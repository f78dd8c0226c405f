import TypedRecords.Engine.Basic

/-!
# Runs

A call of an engine step by step, with the engine at hand. Whenever metadata is needed it is looked
up in the cache as it is at that moment, and what has to be resolved is kept at once, so that the
rest of the call shares it.

* `Run.consult`: comes by the metadata of a class.
* `Run.bind_of_ok`, `Run.bind_of_error`: steps that go on, and steps that end with an error.
* `Engine.performLive`: a call that is carried out step by step. `Engine.makeLive` and
  `Engine.castValueLive` make instances and coerce values in this way.
-/

namespace TypedRecords

/-- Steps that are taken with an engine at hand. They leave another engine, failed or not. -/
def Run (κ α : Type) : Type := Engine κ → Except Error α × Engine κ

namespace Run

variable {κ α β : Type}

instance : Monad (Run κ) where
  pure a engine := (.ok a, engine)
  bind run next engine :=
    match run engine with
    | (.ok a, engine) => next a engine
    | (.error error, engine) => (.error error, engine)

instance : Fallible (Run κ) where
  mapResult change run engine := (change (run engine).1, (run engine).2)

section Bind

variable {run : Run κ α} {engine later : Engine κ}

theorem bind_of_ok {a : α} (h : run engine = (.ok a, later)) (next : α → Run κ β) :
    (run >>= next) engine = next a later := by
  simp only [bind, h]

theorem bind_of_error {error : Error} (h : run engine = (.error error, later))
    (next : α → Run κ β) : (run >>= next) engine = (.error error, later) := by
  simp only [bind, h]

end Bind

/-- The metadata of a class, as the engine has it now. It is kept from then on. -/
def consult (className : String) : Run κ (Metadata κ) := fun engine =>
  match engine.metadata className with
  | .ok metadata => (.ok metadata, engine.keep metadata)
  | .error error => (.error error, engine)

end Run

namespace Engine

variable {κ α : Type}

/-- What constructions may rely on that consult the engine whenever they need metadata. -/
def livePlan (engine : Engine κ) : PlanIn (Run κ) κ where
  casting := engine.casting
  registry := engine.source
  metadata := Run.consult
  maxDepth := engine.settings.maxDepth

/-- Carries out a numbered call step by step. -/
def performLive (engine : Engine κ) (call : Nat → Run κ α) : Except Error α × Engine κ :=
  call engine.calls { engine with calls := engine.calls + 1 }

/-- Makes an instance of a class, step by step. -/
def makeLive (engine : Engine κ) (className : String) (input : Table (Value κ)) (flags : Flags) :
    Except Error (Instance κ) × Engine κ :=
  engine.performLive fun call =>
    Construction.makeIn engine.livePlan call (engine.settings.maxDepth + 1) [] className input flags

/-- What conversions of a property of an instance that is not nested may rely on, step by step. -/
def liveBench (engine : Engine κ) (call : Nat) : WorkbenchIn (Run κ) κ :=
  ⟨engine.casting, engine.source,
    Construction.makeIn engine.livePlan call engine.settings.maxDepth⟩

/-- Coerces and validates a value for a property, step by step. -/
def castValueLive (engine : Engine κ) (property : Property κ) (value : Value κ) (flags : Flags) :
    Except Error (Value κ) × Engine κ :=
  engine.performLive fun call =>
    property.castValue (engine.liveBench call) ⟨0, call, []⟩ flags value

end Engine

end TypedRecords
