import TypedRecords.Text.Basic

/-!
# Type keywords

The built-in types and their spellings. A keyword may be written in any mixture of cases.
-/

namespace TypedRecords

/-- A built-in type. -/
inductive Keyword where
  | string
  | int
  | float
  | bool
  /-- Any list or map. -/
  | array
  | null
  /-- Anything at all. -/
  | mixed
  deriving DecidableEq, Repr

namespace Keyword

/-- The keywords in their customary order. -/
def all : List Keyword := [string, int, float, bool, array, null, mixed]

/-- The canonical spelling. -/
def name : Keyword → String
  | string => "string"
  | int => "int"
  | float => "float"
  | bool => "bool"
  | array => "array"
  | null => "null"
  | mixed => "mixed"

/-- Every spelling, aliases included, in lower case. -/
def spellings : List (String × Keyword) :=
  [("string", string), ("int", int), ("integer", int), ("float", float), ("double", float),
    ("bool", bool), ("boolean", bool), ("array", array), ("null", null), ("mixed", mixed)]

/-- The keyword that a text spells, in any case. -/
def ofText? (text : List Char) : Option Keyword :=
  spellings.lookup (String.ofList (Text.lower text))

theorem ofText?_name (k : Keyword) : ofText? k.name.toList = some k := by
  cases k <;> decide

end Keyword

end TypedRecords
