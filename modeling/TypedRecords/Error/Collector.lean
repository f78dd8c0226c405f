import TypedRecords.Error.Basic

/-!
# Collecting failures

A `Collector` gathers the mergeable failures of one call, grouped by kind, and turns them into one
error: the error of the only kind there is, or an aggregate with one error for each kind.
-/

namespace TypedRecords

/-- The failures gathered so far, to be reported by `owner`. -/
structure Collector where
  owner : String
  invalid : List Failure := []
  unknown : List String := []
  undefined : List String := []
  deriving DecidableEq, Repr

namespace Collector

/-- Records an invalid value, as reported by the collector's owner. -/
def addInvalid (report : Collector) (failure : Failure) : Collector :=
  { report with invalid := report.invalid ++ [failure.withOwner report.owner] }

/-- Records an unknown property, once. -/
def addUnknown (report : Collector) (path : String) : Collector :=
  { report with unknown := addNew report.unknown path }

/-- Records an undefined property, once. -/
def addUndefined (report : Collector) (path : String) : Collector :=
  { report with undefined := addNew report.undefined path }

mutual

/-- Merges an error. The first fatal error in it stops the merging and is handed back; what came
before it stays merged. -/
def absorb (report : Collector) : Error → Collector × Option Error
  | .invalidType failures => (failures.foldl addInvalid report, none)
  | .unknownProperties _ paths => (paths.foldl addUnknown report, none)
  | .undefinedProperties _ paths => (paths.foldl addUndefined report, none)
  | .aggregate errors => absorbAll report errors
  | fatal => (report, some fatal)

/-- Merges errors one by one, up to the first fatal one. -/
def absorbAll (report : Collector) : List Error → Collector × Option Error
  | [] => (report, none)
  | error :: rest =>
    match absorb report error with
    | (report, none) => absorbAll report rest
    | (report, some fatal) => (report, some fatal)

end

/-- Whether nothing is recorded. -/
def isEmpty (report : Collector) : Bool :=
  report.invalid.isEmpty && report.unknown.isEmpty && report.undefined.isEmpty

/-- One error for each kind that is recorded: invalid values, unknown, undefined. -/
def errors (report : Collector) : List Error :=
  (if report.invalid.isEmpty then [] else [.invalidType report.invalid]) ++
    (if report.unknown.isEmpty then [] else [.unknownProperties report.owner report.unknown]) ++
    (if report.undefined.isEmpty then []
      else [.undefinedProperties report.owner report.undefined])

/-- What is recorded as one error, if anything is. -/
def toError? (report : Collector) : Option Error :=
  match report.errors with
  | [] => none
  | [error] => some error
  | errors => some (.aggregate errors)

/-- Fails with what is recorded, if anything is. -/
def finish (report : Collector) : Except Error Unit :=
  match report.toError? with
  | none => .ok ()
  | some error => .error error

end Collector

end TypedRecords
