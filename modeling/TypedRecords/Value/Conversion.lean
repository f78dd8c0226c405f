import TypedRecords.Json.Basic
import TypedRecords.Value.Basic

/-!
# Values of JSON

A value of JSON as a value: whole numbers of 64 bits become integers, all other numbers floats.
-/

namespace TypedRecords

namespace Value

variable {κ : Type}

/-- A number of JSON as a value. -/
def ofNumber : JsonNumber → Value κ
  | .signed n => .int n
  | .large n => .float (Double.ofNat n.toNat)
  | .double x => .float x

mutual

/-- A value of JSON as a value. -/
def ofJson : Json → Value κ
  | .null => .null
  | .bool b => .bool b
  | .number n => ofNumber n
  | .string s => .text s
  | .array items => .list (ofJsonItems items)
  | .object entries => .map (ofJsonEntries entries)

/-- Each item as a value. -/
def ofJsonItems : List Json → List (Value κ)
  | [] => []
  | item :: rest => ofJson item :: ofJsonItems rest

/-- Each entry with its value converted. -/
def ofJsonEntries : List (String × Json) → List (String × Value κ)
  | [] => []
  | (key, value) :: rest => (key, ofJson value) :: ofJsonEntries rest

end

/-- Null for nothing. -/
def ofOption {α : Type} (convert : α → Value κ) : Option α → Value κ
  | none => .null
  | some a => convert a

/-- The list of converted items. -/
def ofList {α : Type} (convert : α → Value κ) (items : List α) : Value κ :=
  .list (items.map convert)

end Value

end TypedRecords
