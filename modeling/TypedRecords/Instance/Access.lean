import TypedRecords.Text.Basic
import TypedRecords.Value.JsonForm

/-!
# Reading an instance

Reading a property resolves an undefined one to its default. A dotted path leads through nested
instances. The data of an instance may be had in whole, for some properties only, or for all but
some; whoever names a property that is not declared is told so first.

* `Instance.get`, `Instance.isDefined`: reading a property, and asking for one along a path.
* `Instance.only`, `Instance.except`: parts of the data.
-/

namespace TypedRecords

namespace Instance

variable {κ : Type}

/-- The error for names that the class does not declare. -/
def unknown (record : Instance κ) (names : List String) : Error :=
  .unknownProperties record.className names

/-- Fails with all names that the class does not declare, in the order given. -/
def checkKnown (record : Instance κ) (names : List String) : Except Error Unit :=
  let undeclared := names.filter fun name => !record.metadata.declares name
  if undeclared.isEmpty then .ok () else .error (record.unknown undeclared)

/-- The value of a defined property. -/
def stored? (record : Instance κ) (name : String) : Option (Value κ) :=
  Table.get? record.stored name

/-- The value of a property: as stored, or the default under the flags of the instance. -/
def get (record : Instance κ) (name : String) : Except Error (Value κ) :=
  match record.metadata.property? name with
  | none => .error (record.unknown [name])
  | some property =>
    match record.stored? name with
    | some value => .ok value
    | none =>
      match property.default? record.flags with
      | some value => .ok value
      | none => .error (.undefinedProperties record.className [name])

/-- Whether the properties along a way through nested instances are all defined. A value on the way
that is no instance ends it. -/
def definedAlong (record : Instance κ) (head : String) : List String → Except Error Bool
  | [] =>
    if record.metadata.declares head then .ok (record.stored? head).isSome
    else .error (record.unknown [head])
  | next :: rest =>
    if record.metadata.declares head then
      match record.stored? head with
      | some (.record _ nested) =>
        (definedAlong nested next rest).mapError (.prefixed head)
      | _ => .ok false
    else .error (record.unknown [head])

/-- Whether the property at the end of a dotted path is defined. -/
def isDefined (record : Instance κ) (path : String) : Except Error Bool :=
  match (Text.pieces '.' path.toList).map String.ofList with
  | [] => .ok false
  | head :: rest => record.definedAlong head rest

/-! ## Data -/

/-- The data of the defined properties that satisfy `keep`. -/
def dataWhere (casting : Casting κ) (record : Instance κ) (keep : String → Bool) :
    Except Error (Table (Value κ)) :=
  let request : DataRequest := ⟨record.flags, false⟩
  Property.dataAll casting request (Value.storedData casting request record.stored)
    (record.metadata.properties.filter fun property => keep property.name)

/-- The data of the named properties. -/
def only (casting : Casting κ) (record : Instance κ) (names : List String) :
    Except Error (Table (Value κ)) := do
  record.checkKnown names
  record.dataWhere casting fun name => names.contains name

/-- The data of all properties but the named ones. -/
def except (casting : Casting κ) (record : Instance κ) (names : List String) :
    Except Error (Table (Value κ)) := do
  record.checkKnown names
  record.dataWhere casting fun name => !names.contains name

/-- The data of an instance as JSON. -/
def toJson (casting : Casting κ) (record : Instance κ) : Except Error Json := do
  let data ← record.data casting false
  (Value.map data).toJson casting

/-! ## Change -/

/-- The instance with a property set; the stored properties stay in order of declaration. -/
def put (record : Instance κ) (name : String) (value : Value κ) : Instance κ :=
  { record with
    stored := record.metadata.properties.filterMap fun property =>
      (if property.name = name then some value else record.stored? property.name).map
        fun value => (property.name, value) }

end Instance

end TypedRecords
