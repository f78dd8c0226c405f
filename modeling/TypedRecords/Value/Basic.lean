import TypedRecords.Error.Basic
import TypedRecords.Flags.Basic
import TypedRecords.Number.Shortest
import TypedRecords.Table

/-!
# Values

Input, stored properties and output are loosely typed values. Plain values are scalars, lists and
maps; rich values are instances of declared classes and opaque objects. An instance carries the
metadata of its class, a property of which may have a default that is again any value, so values,
instances, metadata, properties and objects are defined together.

Custom casts are known here by handles of a type `κ` only; what a handle does is said where the
casts are used. With an empty `κ` there are no custom casts.

Maps, and the tables of an instance, hold no key twice; see `Table.Distinct`.
-/

namespace TypedRecords

/-- A step from a value to a part of it. -/
inductive Step where
  /-- The property of this name. -/
  | property (name : String)
  /-- The element at this position. -/
  | element (index : Nat)
  /-- The result of this numbered construction within a custom cast. -/
  | made (index : Nat)
  deriving DecidableEq, Repr

/-- What makes a shared instance or object the one it is: copies of it have the same origin, and
nothing else has. -/
inductive Origin where
  /-- It was given from outside, under this number. -/
  | given (number : Nat)
  /-- It was built by this numbered call, for this place in the input of the call. -/
  | built (call : Nat) (place : List Step)
  deriving DecidableEq, Repr

/-- A cast: one of the two built-in ones, or a custom one. -/
inductive Cast (κ : Type) where
  /-- Builds instances of declared classes from maps. -/
  | instances
  /-- Builds declared collections from lists. -/
  | collections
  | custom (handle : κ)
  deriving DecidableEq, Repr

mutual

/-- A loosely typed value. -/
inductive Value (κ : Type) where
  | null
  | bool (b : Bool)
  | int (n : Int64)
  | float (x : Double)
  | text (s : String)
  | list (items : List (Value κ))
  | map (entries : List (String × Value κ))
  /-- A shared instance of a declared class. -/
  | record (origin : Origin) (r : Instance κ)
  /-- A shared opaque object. -/
  | object (origin : Origin) (o : Object κ)

/-- A validated instance of a declared class. -/
structure Instance (κ : Type) where
  metadata : Metadata κ
  /-- The defined properties, in order of declaration. -/
  stored : List (String × Value κ)
  /-- The undeclared input that was kept. -/
  tracked : List (String × Value κ)
  flags : Flags

/-- What is known about a class: the part that its instances share. -/
structure Metadata (κ : Type) where
  /-- The name under which the metadata was asked for. -/
  key : String
  /-- How often all metadata had been dropped before this was made. -/
  generation : Nat
  name : String
  /-- The ancestors, nearest first, and then the interfaces. -/
  lineage : List String
  /-- The properties in order of declaration, inherited ones included. -/
  properties : List (Property κ)

/-- A declared property. -/
structure Property (κ : Type) where
  /-- The class whose metadata this belongs to. -/
  owner : String
  name : String
  union : UnionType
  /-- The casts found for plain alternatives, in their order. -/
  casts : List (TypeName × Cast κ)
  /-- The casts found for element types, in their order. -/
  elementCasts : List (TypeName × Cast κ)
  /-- The explicit default. -/
  default : Option (Value κ)

/-- An opaque object. -/
inductive Object (κ : Type) where
  /-- An object of which only the type shows: it passes for no other type and has no data form. -/
  | sealed (typeName : String) (inner : Value κ)
  /-- An object of type `typeName` that also passes for the types in `aliases`. Its data form, if it
  has one, is a value or an error. -/
  | wrapper (typeName : String) (aliases : List String)
      (data : Option (Except Error (Value κ))) (inner : Value κ)
  /-- A collection of instances of `itemClass`. -/
  | collection (name itemClass : String) (items : List (Origin × Instance κ))

end

/-- The sort of a value, as told in failures. -/
inductive Kind where
  | null
  | bool
  | int
  | float
  | string
  | array
  | object
  deriving DecidableEq, Repr

/-- The name of a kind. -/
def Kind.name : Kind → String
  | null => "null"
  | bool => "bool"
  | int => "int"
  | float => "float"
  | string => "string"
  | array => "array"
  | object => "object"

variable {κ : Type}

/-! ## Classes and properties -/

namespace Metadata

/-- The property `name`, if declared. -/
def property? (metadata : Metadata κ) (name : String) : Option (Property κ) :=
  metadata.properties.find? (·.name == name)

/-- Whether the property `name` is declared. -/
def declares (metadata : Metadata κ) (name : String) : Bool :=
  metadata.properties.any (·.name == name)

/-- The names of the properties in order of declaration. -/
def names (metadata : Metadata κ) : List String :=
  metadata.properties.map Property.name

/-- The place of the property `name` in the order of declaration. -/
def position? (metadata : Metadata κ) (name : String) : Option Nat :=
  metadata.properties.findIdx? (·.name == name)

/-- Whether instances of the class pass for `className`: the class itself, an ancestor, or an
interface. -/
def isInstanceOf (metadata : Metadata κ) (className : String) : Bool :=
  let className := normalName className
  metadata.name == className || metadata.lineage.contains className

end Metadata

namespace Instance

/-- The class of the instance. -/
def className (record : Instance κ) : String := record.metadata.name

/-- Whether the instance passes for `className`. -/
def isInstanceOf (record : Instance κ) (className : String) : Bool :=
  record.metadata.isInstanceOf className

/-- The names of the defined properties, in order of declaration. -/
def definedNames (record : Instance κ) : List String :=
  Table.keys record.stored

end Instance

namespace Object

/-- The type of an object. -/
def typeName : Object κ → String
  | sealed typeName _ => typeName
  | wrapper typeName .. => typeName
  | collection name .. => name

/-- Whether the object passes for `className`, which is compared as it stands. -/
def isInstanceOf : Object κ → String → Bool
  | sealed typeName _, className => typeName == className
  | wrapper typeName aliases .., className => typeName == className || aliases.contains className
  | collection name .., className => name == className

end Object

/-! ## Looking at a value -/

namespace Value

/-- The kind of a value. -/
def kind : Value κ → Kind
  | null => .null
  | bool _ => .bool
  | int _ => .int
  | float _ => .float
  | text _ => .string
  | list _ | map _ => .array
  | record .. | object .. => .object

/-- The class of a rich value, the kind of any other. -/
def typeName : Value κ → String
  | record _ r => r.className
  | object _ o => o.typeName
  | value => value.kind.name

/-- A short description: the value of a scalar, the type of a rich value. -/
def summary : Value κ → String
  | null => "null"
  | bool b => toString b
  | int n => toString n
  | float x => x.text
  | text s => s
  | list _ | map _ => "array"
  | record _ r => r.className
  | object _ o => o.typeName

/-- Whether the value is null. -/
def isNull : Value κ → Bool
  | null => true
  | _ => false

/-- Whether the value is a truth value, a number or a text. -/
def isScalar : Value κ → Bool
  | bool _ | int _ | float _ | text _ => true
  | _ => false

/-- Whether the value is a list. -/
def isList : Value κ → Bool
  | list _ => true
  | _ => false

/-- Whether the value is a map. -/
def isMap : Value κ → Bool
  | map _ => true
  | _ => false

/-- The truth value, if the value is one. -/
def bool? : Value κ → Option Bool
  | bool b => some b
  | _ => none

/-- The integer, if the value is one. -/
def int? : Value κ → Option Int64
  | int n => some n
  | _ => none

/-- The double, if the value is one. -/
def float? : Value κ → Option Double
  | float x => some x
  | _ => none

/-- The text, if the value is one. -/
def text? : Value κ → Option String
  | text s => some s
  | _ => none

/-- The items, if the value is a list. -/
def items? : Value κ → Option (List (Value κ))
  | list items => some items
  | _ => none

/-- The entries, if the value is a map. -/
def entries? : Value κ → Option (List (String × Value κ))
  | map entries => some entries
  | _ => none

/-- The instance, if the value is one. -/
def record? : Value κ → Option (Instance κ)
  | record _ r => some r
  | _ => none

end Value

/-- The value as a failure of the type `expected` at `path`. -/
def Failure.ofValue (owner path expected : String) (value : Value κ) : Failure :=
  ⟨owner, path, expected, value.summary, value.kind.name⟩

end TypedRecords
