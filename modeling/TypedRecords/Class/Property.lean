import TypedRecords.Value.Basic

/-!
# Properties

Which values a property accepts, and which value it has while it is undefined.
-/

namespace TypedRecords

variable {κ : Type}

/-- Whether a value belongs to a single type. -/
def TypeName.holds : TypeName → Value κ → Bool
  | .keyword .string, .text _ => true
  | .keyword .int, .int _ => true
  | .keyword .float, .float _ => true
  | .keyword .bool, .bool _ => true
  | .keyword .array, .list _ | .keyword .array, .map _ => true
  | .keyword .null, .null => true
  | .keyword .mixed, _ => true
  | .named className, .record _ r => r.isInstanceOf className
  | .named className, .object _ o => o.isInstanceOf className
  | _, _ => false

namespace UnionType

/-- Whether a value other than null belongs to the union: to one of the plain types, or, as a list,
with all its items to one of the element types. -/
def holds (union : UnionType) (value : Value κ) : Bool :=
  union.isMixed || union.plain.any (·.holds value) ||
    match value with
    | .list items => union.elements.any fun type => items.all type.holds
    | _ => false

end UnionType

namespace Property

/-- Whether null is accepted under `flags`, whose overrides come before the declared type. -/
def acceptsNull (property : Property κ) (flags : Flags) : Bool :=
  !flags.contains .notNullable && (flags.contains .nullable || property.union.isNullable)

/-- Whether a value belongs to the type of the property. -/
def accepts (property : Property κ) (flags : Flags) (value : Value κ) : Bool :=
  if value.isNull then property.acceptsNull flags else property.union.holds value

/-- The failure of a value that is not accepted. -/
def invalid (property : Property κ) (value : Value κ) : Error :=
  .invalidType [.ofValue property.owner property.name property.union.display value]

/-- The default that comes from the type alone: the empty list before false before null, each for
the types it is for and if its flag is set. -/
def implicitDefault? (property : Property κ) (flags : Flags) : Option (Value κ) :=
  if property.union.isArray && flags.contains .emptyArrays then some (.list [])
  else if property.union.isBool && flags.contains .falseByDefault then some (.bool false)
  else if property.union.isNullable && flags.contains .nullByDefault then some .null
  else none

/-- The value of the property while it is undefined: the explicit default before an implicit one. -/
def default? (property : Property κ) (flags : Flags) : Option (Value κ) :=
  property.default <|> property.implicitDefault? flags

end Property

end TypedRecords
