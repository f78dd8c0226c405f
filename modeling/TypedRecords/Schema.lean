import TypedRecords.Class.Registry
import TypedRecords.Json.Reader
import TypedRecords.Toml.Reader
import TypedRecords.Value.Conversion

/-!
# Schema documents

Classes and collections may be declared in a document of JSON or TOML: under `classes` the parent,
the interfaces, the property types and the defaults of each class, under `collections` the item
class of each collection. Casts cannot be declared there.
-/

namespace TypedRecords

/-- A class of a schema document. -/
structure ClassSchema where
  parent : Option String
  interfaces : List String
  /-- The declared types of each property: one text or a list of texts. -/
  properties : Table (List String)
  /-- The defaults, in canonical form. -/
  defaults : Table Json

/-- A schema document. -/
structure Schema where
  classes : Table ClassSchema
  collections : Table String

namespace ClassSchema

/-- The names of the parts of a class in documents, in order. -/
def fieldNames : List String := ["extends", "implements", "properties", "defaults"]

/-- The types of a property: one text, or a list of texts. -/
def types? (document : Json) : Option (List String) :=
  match document.string? with
  | some type => some [type]
  | none => document.strings?

/-- The table that an object stands for, each value read by `read`. -/
def table? {α : Type} (read : Json → Option α) (document : Json) : Option (Table α) := do
  let entries ← document.entries?
  let read ← entries.mapM fun (key, value) => do some (key, ← read value)
  some (Table.ofEntries read)

/-- A part that is missing is empty. -/
def part? {α : Type} (read : Json → Option (List α)) : Option Json → Option (List α)
  | none => some []
  | some value => read value

/-- The parent; it may be missing or null. -/
def parent? : Option Json → Option (Option String)
  | none | some .null => some none
  | some value => do some (some (← value.string?))

/-- Reads a class. -/
def ofDocument? (surplus : Json.Surplus) (document : Json) : Option ClassSchema := do
  match ← document.fields? surplus fieldNames with
  | [parent, interfaces, properties, defaults] =>
    let parent ← parent? parent
    let interfaces ← part? Json.strings? interfaces
    let properties ← part? (table? types?) properties
    let defaults ← part? (table? fun value => some value.canonical) defaults
    some { parent, interfaces, properties, defaults }
  | _ => none

/-- The declaration of the class under `name`. -/
def declaration {κ : Type} (schema : ClassSchema) (name : String) : ClassDeclaration κ :=
  let declaration : ClassDeclaration κ := .named name
  let declaration := schema.parent.elim declaration declaration.extending
  let declaration := schema.interfaces.foldl .implementing declaration
  let declaration := schema.properties.foldl (fun d (name, types) => d.withProperty name types)
    declaration
  schema.defaults.foldl (fun d (name, value) => d.withDefault name (.ofJson value)) declaration

end ClassSchema

namespace Schema

/-- The names of the parts of a document, in order. -/
def fieldNames : List String := ["classes", "collections"]

/-- Reads a schema. -/
def ofDocument? (surplus : Json.Surplus) (document : Json) : Option Schema := do
  match ← document.fields? surplus fieldNames with
  | [classes, collections] =>
    let classes ← ClassSchema.part? (ClassSchema.table? (ClassSchema.ofDocument? surplus)) classes
    let collections ← ClassSchema.part? (ClassSchema.table? Json.string?) collections
    some { classes, collections }
  | _ => none

/-- Reads a schema from a text of JSON. An array that stands for a class is not longer than a class
has parts. -/
def ofJson? (text : String) : Option Schema := do
  ofDocument? .refused (← Json.ofText? text)

/-- Reads a schema from a text of TOML. Of an array that stands for a class, the items beyond the
parts of a class do not count. -/
def ofToml? (text : String) : Option Schema := do
  ofDocument? .ignored (← Toml.ofText? text)

variable {κ : Type}

/-- The declarations of the classes, in order. -/
def declarations (schema : Schema) : List (ClassDeclaration κ) :=
  schema.classes.map fun (name, part) => part.declaration name

/-- Declares all classes and collections of the schema. -/
def registerIn (schema : Schema) (registry : Registry κ) : Registry κ :=
  let registry := schema.declarations.foldl .register registry
  schema.collections.foldl (fun r (name, itemClass) => r.registerCollection (.of name itemClass))
    registry

/-- The registry of what the schema declares. -/
def toRegistry (schema : Schema) : Registry κ :=
  schema.registerIn .empty

end Schema

end TypedRecords
