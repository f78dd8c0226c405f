import TypedRecords.Cast.Basic
import TypedRecords.Class.Ancestry
import TypedRecords.Class.Property

/-!
# Resolving a class

The metadata of a class is made from its declaration and those of its ancestors: what they declare
is laid over one another from the root down, types are parsed, casts are chosen and defaults are
checked.

A property keeps the place of its first declaration and has the type of the last. A default or a
cast for a property has to come after the declaration of that property.

The casts that may be kept for a property are, in this order: those for the property and those for
the whole class, the class before its ancestors; those of the engine; the built-in ones.
-/

namespace TypedRecords

variable {κ : Type}

/-- The declarations of a class and its ancestors laid over one another. -/
structure Flattened (κ : Type) where
  types : Table (List String) := []
  defaults : Table (Value κ) := []
  casts : Table (List κ) := []

namespace Flattened

/-- The error for something given for a property that is not declared. -/
def undeclared (declaration : ClassDeclaration κ) (what property : String) : Error :=
  .badDeclaration declaration.name (what ++ " given for undeclared property `" ++ property ++ "`")

/-- Lays the defaults of a declaration over those of its ancestors. -/
def addDefaults (declaration : ClassDeclaration κ) (flat : Flattened κ) :
    Except Error (Flattened κ) :=
  declaration.defaults.foldlM (fun flat (name, value) =>
    if Table.has flat.types name then
      .ok { flat with defaults := Table.put flat.defaults name value }
    else .error (undeclared declaration "default" name)) flat

/-- Puts the casts of a declaration for single properties before those of its ancestors. -/
def addCasts (declaration : ClassDeclaration κ) (flat : Flattened κ) :
    Except Error (Flattened κ) :=
  declaration.propertyCasts.foldlM (fun flat (name, casts) =>
    if Table.has flat.types name then
      let inherited := (Table.get? flat.casts name).getD []
      .ok { flat with casts := Table.put flat.casts name (casts ++ inherited) }
    else .error (undeclared declaration "cast" name)) flat

/-- Lays a declaration over its ancestors. -/
def extend (flat : Flattened κ) (declaration : ClassDeclaration κ) :
    Except Error (Flattened κ) := do
  let flat := { flat with types := Table.putAll flat.types declaration.properties }
  let flat ← addDefaults declaration flat
  addCasts declaration flat

/-- Lays a chain of declarations, nearest first, over one another. -/
def ofChain (chain : List (ClassDeclaration κ)) : Except Error (Flattened κ) :=
  chain.reverse.foldlM extend {}

end Flattened

/-- The names of the ancestors, nearest first, and then the interfaces, each once. -/
def lineageOf (chain : List (ClassDeclaration κ)) : List String :=
  (chain.flatMap ClassDeclaration.interfaces).foldl addNew (chain.tail.map ClassDeclaration.name)

/-- For each type the first of the candidates that accepts it; types that none accepts have no
entry. -/
def keptCasts (casting : Casting κ) (registry : Registry κ) (candidates : List (Cast κ))
    (types : List TypeName) : List (TypeName × Cast κ) :=
  types.filterMap fun type =>
    (candidates.find? (·.accepts casting registry type)).map fun cast => (type, cast)

/-- The casts of an engine: its custom ones, then the built-in ones. -/
def engineCasts (casts : List κ) : List (Cast κ) :=
  casts.map Cast.custom ++ [.instances, .collections]

/-- Makes a property from its parts; an explicit default has to be accepted. -/
def Property.resolve (casting : Casting κ) (registry : Registry κ) (owner name : String)
    (union : UnionType) (default : Option (Value κ)) (candidates : List (Cast κ)) :
    Except Error (Property κ) :=
  let property : Property κ :=
    { owner, name, union, default
      casts := keptCasts casting registry candidates union.plain
      elementCasts := keptCasts casting registry candidates union.elements }
  match default with
  | none => .ok property
  | some value =>
    if property.accepts .none value then .ok property else .error (property.invalid value)

/-- The type of a property, from the texts it is declared by. -/
def parseTypes (owner name : String) (types : List String) : Except Error UnionType :=
  (UnionType.parse types).mapError fun error =>
    .badDeclaration owner ("property `" ++ name ++ "`: " ++ error.message)

/-- Makes the metadata of a class, given the custom casts of the engine. -/
def Metadata.resolve (casting : Casting κ) (registry : Registry κ) (casts : List κ)
    (generation : Nat) (key : String) : Except Error (Metadata κ) := do
  let name := normalName key
  let chain ← registry.ancestry name
  let flat ← Flattened.ofChain chain
  let shared := (chain.flatMap ClassDeclaration.casts).map Cast.custom ++ engineCasts casts
  let properties ← flat.types.mapM fun (property, types) => do
    let union ← parseTypes name property types
    let own := ((Table.get? flat.casts property).getD []).map Cast.custom
    Property.resolve casting registry name property union (Table.get? flat.defaults property)
      (own ++ shared)
  return { key, generation, name, lineage := lineageOf chain, properties }

end TypedRecords
