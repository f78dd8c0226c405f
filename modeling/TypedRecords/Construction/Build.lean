import TypedRecords.Error.Collector
import TypedRecords.Value.Basic

/-!
# Building

What is built is built in steps that may fail. `Fallible` is what such steps have in common, whatever
else they do on the way: how they end can be looked at and changed.

A `Build` is a computation that may fail and that notes the metadata it consults, failed or not.
What it computes does not depend on the notes.

* `Build.collect`: one step for each item, with all mergeable failures reported together.
* `Build.result_bind`, `Build.consulted_bind`: result and notes of a sequence.
-/

namespace TypedRecords

/-- A result, and the metadata that was consulted on the way to it, in order. -/
structure Build (κ α : Type) where
  consulted : List (Metadata κ)
  result : Except Error α

/-- Steps that may fail. -/
class Fallible (m : Type → Type) where
  /-- The same steps with another end. -/
  mapResult {α β : Type} : (Except Error α → Except Error β) → m α → m β

namespace Build

variable {κ α β : Type}

instance : Monad (Build κ) where
  pure a := ⟨[], .ok a⟩
  bind build next :=
    match build.result with
    | .error error => ⟨build.consulted, .error error⟩
    | .ok a => ⟨build.consulted ++ (next a).consulted, (next a).result⟩

instance : Fallible (Build κ) where
  mapResult change build := ⟨build.consulted, change build.result⟩

/-- Consults metadata, if there is any. -/
def consult (metadata : Except Error (Metadata κ)) : Build κ (Metadata κ) :=
  ⟨metadata.toOption.toList, metadata⟩

/-! ## Steps of any kind -/

section Steps

variable {m : Type → Type} [Monad m] [Fallible m]

/-- The given result, without any step. -/
def ofResult (result : Except Error α) : m α :=
  Fallible.mapResult (fun _ => result) (pure () : m Unit)

/-- An error, without any step. -/
def fail (error : Error) : m α := ofResult (.error error)

/-- The result, be it an error, as a value. -/
def attempt (steps : m α) : m (Except Error α) := Fallible.mapResult .ok steps

/-- The same with every path in an error seen from one level further out. -/
def prefixed (head : String) (steps : m α) : m α :=
  Fallible.mapResult (fun result => result.mapError (Error.prefixed head)) steps

/-- Goes through the items in order. Mergeable failures are collected and reported together at the
end; a fatal error stops at once. -/
def collectWith (step : α → m β) (report : Collector) : List α → m (List β)
  | [] => do
    ofResult report.finish
    pure []
  | item :: rest => do
    match ← attempt (step item) with
    | .ok made => return made :: (← collectWith step report rest)
    | .error error =>
      match report.absorb error with
      | (report, none) => collectWith step report rest
      | (_, some fatal) => fail fatal

/-- Goes through the items in order and reports the failures as those of `owner`. -/
def collect (owner : String) (step : α → m β) (items : List α) : m (List β) :=
  collectWith step { owner } items

end Steps

/-! ## Result and notes -/

@[simp] theorem result_pure (a : α) : (pure a : Build κ α).result = .ok a := rfl

@[simp] theorem result_fail (error : Error) : (fail error : Build κ α).result = .error error := rfl

theorem result_bind (build : Build κ α) (next : α → Build κ β) :
    (build >>= next).result = build.result.bind fun a => (next a).result := by
  show (match build.result with
    | .error error => (⟨build.consulted, .error error⟩ : Build κ β)
    | .ok a => ⟨build.consulted ++ (next a).consulted, (next a).result⟩).result = _
  cases build.result <;> rfl

theorem consulted_bind (build : Build κ α) (next : α → Build κ β) :
    (build >>= next).consulted =
      build.consulted ++ match build.result with
        | .error _ => []
        | .ok a => (next a).consulted := by
  show (match build.result with
    | .error error => (⟨build.consulted, .error error⟩ : Build κ β)
    | .ok a => ⟨build.consulted ++ (next a).consulted, (next a).result⟩).consulted = _
  cases build.result <;> simp

@[simp] theorem result_attempt (build : Build κ α) : (attempt build).result = .ok build.result :=
  rfl

@[simp] theorem result_prefixed (head : String) (build : Build κ α) :
    (prefixed head build).result = build.result.mapError (Error.prefixed head) := rfl

end Build

end TypedRecords
