import TypedRecords.Flags.Document
import TypedRecords.Toml.Reader

/-!
# Settings

The settings of an engine: the flags of a construction that names none, and how deep construction
may nest. They are read from a document of TOML.
-/

namespace TypedRecords

/-- The settings of an engine. -/
structure Settings where
  defaultFlags : Flags := .none
  /-- The number of levels that may be nested in an instance. -/
  maxDepth : Nat := 100
  deriving DecidableEq, Repr

namespace Settings

/-- The names of the settings in documents. -/
def fieldNames : List String := ["default_flags", "max_depth"]

/-- A setting that is given has to be read by `read`. -/
def field? {α : Type} (document : Option Json) (default : α) (read : Json → Option α) :
    Option α :=
  match document with
  | none => some default
  | some value => read value

/-- A whole number that is not negative. -/
def natural? : Json → Option Nat
  | .number (.signed n) => if 0 ≤ n.toInt then some n.toInt.toNat else none
  | .number (.large n) => some n.toNat
  | _ => none

/-- Reads settings; what is missing keeps its default. -/
def ofDocument? (document : Json) : Option Settings := do
  match ← document.fields? .refused fieldNames with
  | [flags, depth] =>
    let defaultFlags ← field? flags .none Flags.ofDocument?
    let maxDepth ← field? depth 100 natural?
    some { defaultFlags, maxDepth }
  | _ => none

/-- Reads settings from a text of TOML. -/
def ofToml? (text : String) : Option Settings := do
  ofDocument? (← Toml.ofText? text)

/-- The settings as an object of JSON. -/
def toJsonText (settings : Settings) : String :=
  "\x7b\"default_flags\":\"" ++ settings.defaultFlags.display ++ "\",\"max_depth\":" ++
    toString settings.maxDepth ++ "\x7d"

end Settings

end TypedRecords
