import TypedRecords.Error.Basic
import TypedRecords.Flags.Options
import TypedRecords.Json.Basic

/-!
# Flags in documents

Flags are written as a text of names between bars, as a list of single names, or as a record of
named switches.
-/

namespace TypedRecords

/-- Reads a record of switches; missing ones are off. -/
def Options.ofDocument? (document : Json) : Option Options := do
  let fields ← document.fields? .refused fieldNames
  let switches ← fields.mapM fun field =>
    match field with
    | none => some false
    | some value => value.bool?
  some (ofList switches)

namespace Flags

/-- The error for a text that is no flags. -/
def unknown (text : String) : Error :=
  .badSettings ("unknown flags `" ++ text ++ "`")

/-- The union of single flags or combinations, by name. -/
def ofNames? (names : List String) : Option Flags := do
  let flags ← names.mapM fun name => ofName? name.toList
  some (flags.foldl union none)

/-- Reads flags in any of their three forms. -/
def ofDocument? (document : Json) : Option Flags :=
  match document.string? with
  | some text => ofText? text
  | .none =>
    match document.strings? with
    | some names => ofNames? names
    | .none => (Options.ofDocument? document).map Options.toFlags

end Flags

end TypedRecords
