import TypedRecords.Value.Basic

/-!
# Declarations

A class is declared by name, with its parent, its interfaces, its properties and their defaults, and
the custom casts for one property or for all. A collection is declared by name, with the class of
its items. A declaration is put together step by step; names of classes lose one backslash in front.
-/

namespace TypedRecords

/-- The declaration of a class. -/
structure ClassDeclaration (κ : Type) where
  name : String
  parent : Option String := none
  interfaces : List String := []
  /-- The declared types of each property, in order of declaration. -/
  properties : Table (List String) := []
  /-- The explicit defaults. -/
  defaults : Table (Value κ) := []
  /-- The casts for single properties. -/
  propertyCasts : Table (List κ) := []
  /-- The casts for all properties. -/
  casts : List κ := []

namespace ClassDeclaration

variable {κ : Type}

/-- A class without anything declared. -/
def named (name : String) : ClassDeclaration κ :=
  { name := normalName name }

/-- Inherits from `parent`. -/
def extending (declaration : ClassDeclaration κ) (parent : String) : ClassDeclaration κ :=
  { declaration with parent := some (normalName parent) }

/-- Passes for `interface`. -/
def implementing (declaration : ClassDeclaration κ) (interface : String) : ClassDeclaration κ :=
  { declaration with interfaces := addNew declaration.interfaces (normalName interface) }

/-- Declares a property by its types. -/
def withProperty (declaration : ClassDeclaration κ) (name : String) (types : List String) :
    ClassDeclaration κ :=
  { declaration with properties := Table.put declaration.properties name types }

/-- Declares the default of a property. -/
def withDefault (declaration : ClassDeclaration κ) (name : String) (value : Value κ) :
    ClassDeclaration κ :=
  { declaration with defaults := Table.put declaration.defaults name value }

/-- Adds a cast for one property. -/
def withPropertyCast (declaration : ClassDeclaration κ) (name : String) (cast : κ) :
    ClassDeclaration κ :=
  let casts := (Table.get? declaration.propertyCasts name).getD []
  { declaration with propertyCasts := Table.put declaration.propertyCasts name (casts ++ [cast]) }

/-- Adds a cast for all properties. -/
def withCast (declaration : ClassDeclaration κ) (cast : κ) : ClassDeclaration κ :=
  { declaration with casts := declaration.casts ++ [cast] }

/-- The casts for one property. -/
def castsFor (declaration : ClassDeclaration κ) (name : String) : List κ :=
  (Table.get? declaration.propertyCasts name).getD []

end ClassDeclaration

/-- The declaration of a collection of instances. -/
structure CollectionDeclaration where
  name : String
  /-- The class of the items. -/
  itemClass : String
  deriving DecidableEq, Repr

namespace CollectionDeclaration

/-- The collection `name` of instances of `itemClass`. -/
def of (name itemClass : String) : CollectionDeclaration :=
  ⟨normalName name, normalName itemClass⟩

end CollectionDeclaration

end TypedRecords
