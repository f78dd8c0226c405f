import TypedRecords.Cast.Basic
import TypedRecords.Class.Property

/-!
# Plain data

Rich values become plain data: an instance becomes the map of its defined properties, each taken
back by the first cast kept for it that has something to say, else by its native data form; an object has
the data form that it comes with, if any. On request, instances have their undefined properties
filled in by defaults first; the data form of an object, that of a collection included, is the same
either way, unless the cast for collections is asked.

* `Value.plain`: the plain data of a value.
* `Instance.data`: the plain data of an instance, as a table.
-/

namespace TypedRecords

variable {κ : Type}

/-- The value under a key that has been found in a list of entries, as data of the property that is
handed in. -/
abbrev StoredData (κ : Type) := String → Option (Property κ → Except Error (Value κ))

mutual

/-- The plain data of a value, by native data forms only. -/
def Value.plain (casting : Casting κ) (withDefaults : Bool) : Value κ → Except Error (Value κ)
  | .null => .ok .null
  | .bool b => .ok (.bool b)
  | .int n => .ok (.int n)
  | .float x => .ok (.float x)
  | .text s => .ok (.text s)
  | .list items => .list <$> Value.plainItems casting withDefaults 0 items
  | .map entries => .map <$> Value.plainEntries casting withDefaults entries
  | .record _ r => .map <$> r.data casting withDefaults
  | .object _ o => o.nativeData casting

/-- The plain data of each item; an error tells the position, counted from `index`. -/
def Value.plainItems (casting : Casting κ) (withDefaults : Bool) (index : Nat) :
    List (Value κ) → Except Error (List (Value κ))
  | [] => .ok []
  | item :: rest => do
    let data ← (item.plain casting withDefaults).mapError (.prefixed (toString index))
    let others ← Value.plainItems casting withDefaults (index + 1) rest
    .ok (data :: others)

/-- The plain data of the value of each entry; an error tells the key. -/
def Value.plainEntries (casting : Casting κ) (withDefaults : Bool) :
    List (String × Value κ) → Except Error (List (String × Value κ))
  | [] => .ok []
  | (key, value) :: rest => do
    let data ← (value.plain casting withDefaults).mapError (.prefixed key)
    let others ← Value.plainEntries casting withDefaults rest
    .ok ((key, data) :: others)

/-- The defined properties of an instance as plain data, with defaults for the others on request. -/
def Instance.data (casting : Casting κ) (withDefaults : Bool) :
    Instance κ → Except Error (List (String × Value κ))
  | ⟨metadata, stored, _, flags⟩ =>
    metadata.data casting withDefaults flags
      (Value.storedData casting ⟨flags, withDefaults⟩ stored)

/-- The data of the properties of a class, given that of the stored ones. -/
def Metadata.data (casting : Casting κ) (withDefaults : Bool) (flags : Flags)
    (stored : StoredData κ) : Metadata κ → Except Error (List (String × Value κ))
  | ⟨_, _, _, _, properties⟩ => Property.dataAll casting ⟨flags, withDefaults⟩ stored properties

/-- The data of properties, in order; undefined ones are left out. -/
def Property.dataAll (casting : Casting κ) (request : DataRequest) (stored : StoredData κ) :
    List (Property κ) → Except Error (List (String × Value κ))
  | [] => .ok []
  | property :: rest =>
    match property.data? casting request stored with
    | none => Property.dataAll casting request stored rest
    | some data => do
      let value ← data
      let others ← Property.dataAll casting request stored rest
      .ok ((property.name, value) :: others)

/-- The data of a property, if it is stored or is to be filled in and has a default. -/
def Property.data? (casting : Casting κ) (request : DataRequest) (stored : StoredData κ) :
    Property κ → Option (Except Error (Value κ))
  | ⟨owner, name, union, casts, elementCasts, default⟩ =>
    let property : Property κ := ⟨owner, name, union, casts, elementCasts, none⟩
    match stored name with
    | some dataFor => some (dataFor property)
    | none =>
      if request.withDefaults then
        match Value.defaultData casting request default property with
        | some data => some data
        | none => (property.implicitDefault? request.flags).map .ok
      else none

/-- The data of an explicit default. -/
def Value.defaultData (casting : Casting κ) (request : DataRequest) :
    Option (Value κ) → Property κ → Option (Except Error (Value κ))
  | none, _ => none
  | some value, property => some (value.dataFor casting request property)

/-- The stored values as data. -/
def Value.storedData (casting : Casting κ) (request : DataRequest) :
    List (String × Value κ) → StoredData κ
  | [], _ => none
  | (key, value) :: rest, name =>
    if key = name then some fun property => value.dataFor casting request property
    else Value.storedData casting request rest name

/-- A value of a property as data: a list item by item with the casts for elements, any other value
with the casts for the whole. An error begins with the name of the property. -/
def Value.dataFor (casting : Casting κ) (request : DataRequest) :
    Value κ → Property κ → Except Error (Value κ)
  | .list items, property =>
    (Value.list <$> Value.restoreItems casting request property.elementCasts 0 items).mapError
      (.prefixed property.name)
  | .null, _ => .ok .null
  | .bool b, _ => .ok (.bool b)
  | .int n, _ => .ok (.int n)
  | .float x, _ => .ok (.float x)
  | .text s, _ => .ok (.text s)
  | .map entries, property =>
    (Value.map <$> Value.plainEntries casting request.withDefaults entries).mapError
      (.prefixed property.name)
  | .record origin r, property =>
    (match Cast.restoreFirst casting (.record origin r) request property.casts with
      | .done result => result
      | _ => .map <$> r.data casting request.withDefaults).mapError (.prefixed property.name)
  | .object origin o, property =>
    (match Cast.restoreFirst casting (.object origin o) request property.casts with
      | .done result => result
      | .members => o.memberData casting request.withDefaults
      | .pass => o.nativeData casting).mapError (.prefixed property.name)

/-- The items of a list as data, by the given casts; an error tells the position. -/
def Value.restoreItems (casting : Casting κ) (request : DataRequest)
    (casts : List (TypeName × Cast κ)) (index : Nat) :
    List (Value κ) → Except Error (List (Value κ))
  | [] => .ok []
  | item :: rest => do
    let data ← (item.restore casting request casts).mapError (.prefixed (toString index))
    let others ← Value.restoreItems casting request casts (index + 1) rest
    .ok (data :: others)

/-- A value as data, by the given casts if it is rich. -/
def Value.restore (casting : Casting κ) (request : DataRequest)
    (casts : List (TypeName × Cast κ)) : Value κ → Except Error (Value κ)
  | .null => .ok .null
  | .bool b => .ok (.bool b)
  | .int n => .ok (.int n)
  | .float x => .ok (.float x)
  | .text s => .ok (.text s)
  | .list items => .list <$> Value.plainItems casting request.withDefaults 0 items
  | .map entries => .map <$> Value.plainEntries casting request.withDefaults entries
  | .record origin r =>
    match Cast.restoreFirst casting (.record origin r) request casts with
    | .done result => result
    | _ => .map <$> r.data casting request.withDefaults
  | .object origin o =>
    match Cast.restoreFirst casting (.object origin o) request casts with
    | .done result => result
    | .members => o.memberData casting request.withDefaults
    | .pass => o.nativeData casting

/-- The data form that an object comes with. Collections never fill in defaults here. -/
def Object.nativeData (casting : Casting κ) : Object κ → Except Error (Value κ)
  | .sealed typeName _ => .error (.unserializable "" typeName)
  | .wrapper typeName _ none _ => .error (.unserializable "" typeName)
  | .wrapper _ _ (some data) _ => data
  | .collection _ _ items => .list <$> Instance.dataItems casting false 0 items

/-- The data of the items of a collection; of any other object, its data form. -/
def Object.memberData (casting : Casting κ) (withDefaults : Bool) :
    Object κ → Except Error (Value κ)
  | .sealed typeName _ => .error (.unserializable "" typeName)
  | .wrapper typeName _ none _ => .error (.unserializable "" typeName)
  | .wrapper _ _ (some data) _ => data
  | .collection _ _ items => .list <$> Instance.dataItems casting withDefaults 0 items

/-- The data of each item of a collection; an error tells the position. -/
def Instance.dataItems (casting : Casting κ) (withDefaults : Bool) (index : Nat) :
    List (Origin × Instance κ) → Except Error (List (Value κ))
  | [] => .ok []
  | (_, item) :: rest => do
    let data ← (item.data casting withDefaults).mapError (.prefixed (toString index))
    let others ← Instance.dataItems casting withDefaults (index + 1) rest
    .ok (.map data :: others)

end

end TypedRecords
