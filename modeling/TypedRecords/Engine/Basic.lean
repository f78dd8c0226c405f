import TypedRecords.Class.Resolution
import TypedRecords.Construction.Make
import TypedRecords.Instance.Access
import TypedRecords.Settings

/-!
# Engines

An engine makes instances of the classes of a registry, with its own custom casts and settings. It
keeps the metadata of every class that it has consulted, until it is told to drop them all; classes
declared anew in the meantime do not change what is kept.

* `Engine.metadata`: what is kept for a class, or what its declaration gives now.
* `Engine.make`: makes an instance.
-/

namespace TypedRecords

/-- An engine with all that it depends on. -/
structure Engine (κ : Type) where
  casting : Casting κ
  /-- The custom casts for all classes. -/
  casts : List κ := []
  settings : Settings := {}
  registry : Registry κ := {}
  /-- Whether the declared collections are made use of. -/
  offersCollections : Bool := true
  /-- The metadata that is kept, by class. -/
  cache : Table (Metadata κ) := []
  /-- How often the metadata has been dropped. -/
  generation : Nat := 0
  /-- How many calls there have been. -/
  calls : Nat := 0

namespace Engine

variable {κ α : Type}

/-- The declarations that the engine makes use of. -/
def source (engine : Engine κ) : Registry κ :=
  if engine.offersCollections then engine.registry else { engine.registry with collections := [] }

/-- Whether the metadata of a class is kept. -/
def isCached (engine : Engine κ) (className : String) : Bool :=
  Table.has engine.cache (normalName className)

/-- The metadata of a class: as kept, or else from the declarations. -/
def metadata (engine : Engine κ) (className : String) : Except Error (Metadata κ) :=
  let key := normalName className
  match Table.get? engine.cache key with
  | some metadata => .ok metadata
  | none => Metadata.resolve engine.casting engine.source engine.casts engine.generation key

/-- Keeps metadata, unless there is some for the class already. -/
def keep (engine : Engine κ) (metadata : Metadata κ) : Engine κ :=
  if Table.has engine.cache metadata.key then engine
  else { engine with cache := Table.put engine.cache metadata.key metadata }

/-- Drops all metadata. -/
def clearCache (engine : Engine κ) : Engine κ :=
  { engine with cache := [], generation := engine.generation + 1 }

/-- Declares a class, or declares it anew. -/
def register (engine : Engine κ) (declaration : ClassDeclaration κ) : Engine κ :=
  { engine with registry := engine.registry.register declaration }

/-- Declares a collection, or declares it anew. -/
def registerCollection (engine : Engine κ) (declaration : CollectionDeclaration) : Engine κ :=
  { engine with registry := engine.registry.registerCollection declaration }

/-- What constructions may rely on. -/
def plan (engine : Engine κ) : Plan κ :=
  { casting := engine.casting
    registry := engine.source
    metadata := engine.metadata
    maxDepth := engine.settings.maxDepth }

/-- Carries out a numbered call, and keeps all metadata that it consulted, also if it fails. The call
itself goes by the metadata as it is at its start; `Engine.performLive` looks it up as it goes. -/
def perform (engine : Engine κ) (call : Nat → Build κ α) : Except Error α × Engine κ :=
  let build := call engine.calls
  (build.result, build.consulted.foldl keep { engine with calls := engine.calls + 1 })

/-- The metadata of a class, which is kept from now on. -/
def consult (engine : Engine κ) (className : String) : Except Error (Metadata κ) × Engine κ :=
  engine.perform fun _ => Build.consult (engine.metadata className)

/-- Makes an instance of a class. -/
def make (engine : Engine κ) (className : String) (input : Table (Value κ)) (flags : Flags) :
    Except Error (Instance κ) × Engine κ :=
  engine.perform fun call => Construction.make engine.plan call className input flags

/-- Makes an instance of a class from any value; only a map will do. -/
def makeValue (engine : Engine κ) (className : String) (value : Value κ) (flags : Flags) :
    Except Error (Instance κ) × Engine κ :=
  match value with
  | .map input => engine.make className input flags
  | other =>
    let name := normalName className
    (.error (.invalidType [.ofValue name "" name other]), engine)

/-- Makes an instance of a class under the flags of the settings. -/
def build (engine : Engine κ) (className : String) (input : Table (Value κ)) :
    Except Error (Instance κ) × Engine κ :=
  engine.make className input engine.settings.defaultFlags

/-- Coerces and validates a value for a property. -/
def castValue (engine : Engine κ) (property : Property κ) (value : Value κ) (flags : Flags) :
    Except Error (Value κ) × Engine κ :=
  engine.perform fun call => Construction.castValue engine.plan call property flags value

/-! ## Instances -/

/-- Writes a property of a mutable instance. The value is coerced and validated like input. -/
def set (engine : Engine κ) (record : Instance κ) (name : String) (value : Value κ) :
    Except Error (Instance κ) × Engine κ :=
  if !record.flags.contains .mutable then
    (.error (.immutableWrite record.className name), engine)
  else
    match record.metadata.property? name with
    | none => (.error (.unknownProperties record.className [name]), engine)
    | some property =>
      let (result, engine) := engine.castValue property value record.flags
      ((result.mapError (.withOwner record.className)).map (record.put name), engine)

/-- Makes an instance anew from other input, with the same class and flags. -/
def rebuild (engine : Engine κ) (record : Instance κ) (input : Table (Value κ)) :
    Except Error (Instance κ) × Engine κ :=
  engine.make record.className input record.flags

end Engine

end TypedRecords
