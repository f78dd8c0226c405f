import TypedRecords.Json.Basic
import TypedRecords.Value.Data

/-!
# Values as JSON

A value becomes JSON by way of its plain data. The data form of an object may itself hold rich
values; these are expanded in turn, one level at a time, before their parts are looked at. A number
that is not finite has no JSON.

* `Value.toJson`: the JSON of a value, with sorted objects.
-/

namespace TypedRecords

variable {κ : Type}

mutual

/-- How deep a value is nested. A rich value counts twice: what stands for it may be a map. -/
def Value.height : Value κ → Nat
  | .list items => Value.heightItems items + 1
  | .map entries => Value.heightEntries entries + 1
  | .record _ r => r.height + 2
  | .object _ o => o.height + 2
  | .null | .bool _ | .int _ | .float _ | .text _ => 1

/-- The height of the deepest item. -/
def Value.heightItems : List (Value κ) → Nat
  | [] => 0
  | item :: rest => max item.height (Value.heightItems rest)

/-- The height of the deepest value. -/
def Value.heightEntries : List (String × Value κ) → Nat
  | [] => 0
  | (_, value) :: rest => max value.height (Value.heightEntries rest)

/-- The height of the deepest stored value. -/
def Instance.height : Instance κ → Nat
  | ⟨_, stored, _, _⟩ => Value.heightEntries stored

/-- The height of the deepest of the instances. -/
def Instance.heightItems : List (Origin × Instance κ) → Nat
  | [] => 0
  | (_, item) :: rest => max (item.height + 2) (Instance.heightItems rest)

/-- The height of what an object holds. -/
def Object.height : Object κ → Nat
  | .sealed _ inner => inner.height
  | .wrapper _ _ (some (.ok data)) inner => max data.height inner.height
  | .wrapper _ _ _ inner => inner.height
  | .collection _ _ items => Instance.heightItems items

end

namespace Value

/-- The JSON of a value that has just been made plain, down to the given depth. -/
def jsonWithin (casting : Casting κ) : Nat → Value κ → Except Error Json
  | 0, value => .error (.unserializable "" value.typeName)
  | depth + 1, value =>
    let part (name : String) (value : Value κ) : Except Error Json :=
      (do jsonWithin casting depth (← value.plain casting false)).mapError (.prefixed name)
    match value with
    | .null => .ok .null
    | .bool b => .ok (.bool b)
    | .int n => .ok (.number (.signed n))
    | .float x =>
      if x.isFinite then .ok (.number (.double x))
      else .error (.unserializable "" ("float " ++ x.text))
    | .text s => .ok (.string s)
    | .list items => do
      let parts ← items.zipIdx.mapM fun (item, index) => part (toString index) item
      .ok (.array parts)
    | .map entries => do
      let parts ← entries.mapM fun (key, value) => do .ok (key, ← part key value)
      .ok (.object (Json.sortEntries parts))
    | .record .. | .object .. => .error (.unserializable "" value.typeName)

/-- The JSON of a value. The depth suffices unless a custom cast answers with more than the value it
was asked about. -/
def toJson (casting : Casting κ) (value : Value κ) : Except Error Json := do
  let data ← value.plain casting false
  jsonWithin casting data.height data

end Value

end TypedRecords
