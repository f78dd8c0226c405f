import TypedRecords.Class.Declaration

/-!
# Registries

The declared classes and collections, by name. A later declaration replaces an earlier one of the
same name. A name asked for loses one backslash in front.
-/

namespace TypedRecords

/-- The declared classes and collections. -/
structure Registry (κ : Type) where
  classes : Table (ClassDeclaration κ) := []
  collections : Table CollectionDeclaration := []

namespace Registry

variable {κ : Type}

/-- Nothing is declared. -/
def empty : Registry κ := {}

/-- Declares a class, or declares it anew. -/
def register (registry : Registry κ) (declaration : ClassDeclaration κ) : Registry κ :=
  { registry with classes := Table.put registry.classes declaration.name declaration }

/-- Declares a collection, or declares it anew. -/
def registerCollection (registry : Registry κ) (declaration : CollectionDeclaration) :
    Registry κ :=
  { registry with collections := Table.put registry.collections declaration.name declaration }

/-- The declaration of the class `name`. -/
def class? (registry : Registry κ) (name : String) : Option (ClassDeclaration κ) :=
  Table.get? registry.classes (normalName name)

/-- The declaration of the collection `name`. -/
def collection? (registry : Registry κ) (name : String) : Option CollectionDeclaration :=
  Table.get? registry.collections (normalName name)

/-- Whether the class `name` is declared. -/
def hasClass (registry : Registry κ) (name : String) : Bool :=
  (registry.class? name).isSome

/-- The number of declared classes. -/
def size (registry : Registry κ) : Nat := registry.classes.length

end Registry

end TypedRecords
