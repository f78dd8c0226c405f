import TypedRecords.Number.Numeral
import TypedRecords.Table

/-!
# JSON values

A document is read as a tree whose objects keep the order and the repetitions of the text. The
canonical form of a tree sorts the keys of every object, keeps the last value of a repeated key, and
has null for the numbers that are not finite.
-/

namespace TypedRecords

/-- A number of JSON. -/
inductive JsonNumber where
  /-- A whole number of 64 bits with sign. -/
  | signed (n : Int64)
  /-- A whole number from `2 ^ 63` on that fits in 64 bits. -/
  | large (n : UInt64)
  | double (x : Double)
  deriving DecidableEq, Repr

/-- A JSON value. -/
inductive Json where
  | null
  | bool (b : Bool)
  | number (n : JsonNumber)
  | string (s : String)
  | array (items : List Json)
  | object (entries : List (String × Json))
  deriving Repr

namespace Json

/-- Writes a value under a key in an object sorted by key. -/
def putSorted {α : Type} (key : String) (value : α) : List (String × α) → List (String × α)
  | [] => [(key, value)]
  | (k, v) :: rest =>
    if key < k then (key, value) :: (k, v) :: rest
    else if key = k then (k, value) :: rest
    else (k, v) :: putSorted key value rest

/-- The entries sorted by key; of a repeated key the last value counts. -/
def sortEntries {α : Type} (entries : List (String × α)) : List (String × α) :=
  entries.foldl (fun sorted entry => putSorted entry.1 entry.2 sorted) []

mutual

/-- The canonical form of a value. -/
def canonical : Json → Json
  | number (.double x) => if x.isFinite then number (.double x) else null
  | array items => array (canonicalItems items)
  | object entries => object (sortEntries (canonicalEntries entries))
  | null => null
  | bool b => bool b
  | number (.signed n) => number (.signed n)
  | number (.large n) => number (.large n)
  | string s => string s

/-- The canonical form of each item. -/
def canonicalItems : List Json → List Json
  | [] => []
  | item :: rest => item.canonical :: canonicalItems rest

/-- The canonical form of each value. -/
def canonicalEntries : List (String × Json) → List (String × Json)
  | [] => []
  | (key, value) :: rest => (key, value.canonical) :: canonicalEntries rest

end

/-! ## Reading parts of a document -/

/-- The text, if the value is one. -/
def string? : Json → Option String
  | string s => some s
  | _ => none

/-- The truth value, if the value is one. -/
def bool? : Json → Option Bool
  | bool b => some b
  | _ => none

/-- The texts of an array of texts. -/
def strings? : Json → Option (List String)
  | array items => items.mapM string?
  | _ => none

/-- The entries, if the value is an object. -/
def entries? : Json → Option (List (String × Json))
  | object entries => some entries
  | _ => none

/-- What becomes of the items of an array that stands for a record with fewer fields. -/
inductive Surplus where
  | refused
  | ignored
  deriving DecidableEq, Repr

/-- The value under each of `fields` in a record, `none` for a missing field. A record is an object
without other or repeated keys, or an array of the first fields in order. -/
def fields? (surplus : Surplus) (fields : List String) : Json → Option (List (Option Json))
  | object entries =>
    if (Table.keys entries).Nodup && (Table.keys entries).all (· ∈ fields) then
      some (fields.map (Table.get? entries))
    else none
  | array items =>
    if items.length ≤ fields.length || surplus = .ignored then
      some ((List.range fields.length).map fun i => items[i]?)
    else none
  | _ => none

end Json

end TypedRecords
