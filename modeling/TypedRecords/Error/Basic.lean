import TypedRecords.Typing.UnionType

/-!
# Errors

What can go wrong in construction, access and serialization. Failures of independent properties are
reported together, so three kinds of error hold lists and can be merged: invalid values, unknown
properties, undefined properties. The others are fatal.

A failure names the property by a path: the names and positions from the outermost instance inward,
between dots.
-/

namespace TypedRecords

/-- The path `path` seen from one level further out. -/
def joinPath (head path : String) : String :=
  if path = "" then head else head ++ "." ++ path

/-- A value that does not belong to the type of its property. -/
structure Failure where
  /-- The class that reports the failure. -/
  owner : String
  /-- The path of the property; empty for the value as a whole. -/
  path : String
  /-- The accepted types. -/
  expected : String
  /-- A summary of the value. -/
  value : String
  /-- The kind of the value. -/
  kind : String
  deriving DecidableEq, Repr

namespace Failure

/-- The failure seen from one level further out. -/
def prefixed (failure : Failure) (head : String) : Failure :=
  { failure with path := joinPath head failure.path }

/-- The failure as reported by `owner`. -/
def withOwner (failure : Failure) (owner : String) : Failure :=
  { failure with owner := owner }

/-- The sentence that tells the failure. -/
def message (failure : Failure) : String :=
  let place := if failure.path = "" then failure.owner else failure.owner ++ "::" ++ failure.path
  "Invalid type: expected \"" ++ place ++ "\" to be of type \"" ++ failure.expected ++
    "\", instead got value \"" ++ failure.value ++ "\", which is " ++ failure.kind ++ "."

end Failure

/-- The errors of the library. -/
inductive Error where
  /-- A write to an instance that is not mutable. -/
  | immutableWrite (owner property : String)
  /-- Keys that name no property. -/
  | unknownProperties (owner : String) (paths : List String)
  /-- Required properties without a value. -/
  | undefinedProperties (owner : String) (paths : List String)
  /-- Values of the wrong type. -/
  | invalidType (failures : List Failure)
  /-- Errors of several kinds from one call. -/
  | aggregate (errors : List Error)
  /-- A value that no cast takes back and that has no data form. -/
  | unserializable (path typeName : String)
  /-- No class of this name is declared. -/
  | unknownClass (name : String)
  /-- A declaration that makes no sense. -/
  | badDeclaration (owner reason : String)
  /-- A class that extends itself, with the way from it back to it. -/
  | circularInheritance (names : List String)
  /-- A walk up from a class that comes round for ever without naming a class twice: some parent on
  it is named with a backslash more than the class it stands for. -/
  | endlessInheritance (name : String)
  /-- Nested construction went deeper than the limit. -/
  | maxDepthExceeded (limit : Nat)
  /-- A cast refused a value that it had claimed. -/
  | castFailed (path reason : String)
  /-- A schema document that cannot be read. -/
  | badSchema (reason : String)
  /-- A setting that cannot be read. -/
  | badSettings (reason : String)
  deriving Repr

namespace Error

/-! ## Message -/

mutual

/-- The text of an error. -/
def message : Error → String
  | immutableWrite owner property =>
    "Cannot write `" ++ property ++ "`: " ++ owner ++ " is immutable"
  | unknownProperties owner paths =>
    "Unknown properties on " ++ owner ++ ": " ++ ", ".intercalate paths
  | undefinedProperties owner paths =>
    "Undefined required properties on " ++ owner ++ ": " ++ ", ".intercalate paths
  | invalidType failures => "\n".intercalate (failures.map Failure.message)
  | aggregate errors => "\n".intercalate (messages errors)
  | unserializable path typeName =>
    "Cannot serialize `" ++ path ++ "`: no cast or data form for " ++ typeName
  | unknownClass name => "Unknown class: " ++ name
  | badDeclaration owner reason => "Invalid declaration for " ++ owner ++ ": " ++ reason
  | circularInheritance names =>
    "Circular inheritance detected: " ++ " -> ".intercalate names
  | endlessInheritance name => "Endless inheritance from " ++ name
  | maxDepthExceeded limit => "Maximum nesting depth of " ++ toString limit ++ " exceeded"
  | castFailed path reason => "Cast failed for `" ++ path ++ "`: " ++ reason
  | badSchema reason => "Schema error: " ++ reason
  | badSettings reason => "Configuration error: " ++ reason

/-- The texts of several errors. -/
def messages : List Error → List String
  | [] => []
  | error :: rest => error.message :: messages rest

end

/-! ## Re-tagging -/

mutual

/-- The error seen from one level further out: every path in it gains `head`. -/
def prefixed (head : String) : Error → Error
  | unknownProperties owner paths => unknownProperties owner (paths.map (joinPath head))
  | undefinedProperties owner paths => undefinedProperties owner (paths.map (joinPath head))
  | invalidType failures => invalidType (failures.map (·.prefixed head))
  | aggregate errors => aggregate (prefixedAll head errors)
  | unserializable path typeName => unserializable (joinPath head path) typeName
  | castFailed path reason => castFailed (joinPath head path) reason
  | immutableWrite owner property => immutableWrite owner property
  | unknownClass name => unknownClass name
  | badDeclaration owner reason => badDeclaration owner reason
  | circularInheritance names => circularInheritance names
  | endlessInheritance name => endlessInheritance name
  | maxDepthExceeded limit => maxDepthExceeded limit
  | badSchema reason => badSchema reason
  | badSettings reason => badSettings reason

/-- Each error seen from one level further out. -/
def prefixedAll (head : String) : List Error → List Error
  | [] => []
  | error :: rest => error.prefixed head :: prefixedAll head rest

end

mutual

/-- The error with every mergeable failure reported by `owner`. -/
def withOwner (owner : String) : Error → Error
  | unknownProperties _ paths => unknownProperties owner paths
  | undefinedProperties _ paths => undefinedProperties owner paths
  | invalidType failures => invalidType (failures.map (·.withOwner owner))
  | aggregate errors => aggregate (withOwnerAll owner errors)
  | unserializable path typeName => unserializable path typeName
  | castFailed path reason => castFailed path reason
  | immutableWrite owner' property => immutableWrite owner' property
  | unknownClass name => unknownClass name
  | badDeclaration owner' reason => badDeclaration owner' reason
  | circularInheritance names => circularInheritance names
  | endlessInheritance name => endlessInheritance name
  | maxDepthExceeded limit => maxDepthExceeded limit
  | badSchema reason => badSchema reason
  | badSettings reason => badSettings reason

/-- Each error as reported by `owner`. -/
def withOwnerAll (owner : String) : List Error → List Error
  | [] => []
  | error :: rest => error.withOwner owner :: withOwnerAll owner rest

end

/-! ## What an error reports -/

/-- Whether the error is of a kind that is merged with others. -/
def isAggregatable : Error → Bool
  | unknownProperties .. | undefinedProperties .. | invalidType .. | aggregate .. => true
  | _ => false

mutual

/-- All invalid values, looking through aggregates. -/
def invalidTypes : Error → List Failure
  | invalidType failures => failures
  | aggregate errors => invalidTypesAll errors
  | _ => []

/-- The invalid values of all errors, in order. -/
def invalidTypesAll : List Error → List Failure
  | [] => []
  | error :: rest => error.invalidTypes ++ invalidTypesAll rest

end

mutual

/-- All paths of unknown properties, looking through aggregates. -/
def unknownPaths : Error → List String
  | unknownProperties _ paths => paths
  | aggregate errors => unknownPathsAll errors
  | _ => []

/-- The unknown paths of all errors, in order. -/
def unknownPathsAll : List Error → List String
  | [] => []
  | error :: rest => error.unknownPaths ++ unknownPathsAll rest

end

mutual

/-- All paths of undefined properties, looking through aggregates. -/
def undefinedPaths : Error → List String
  | undefinedProperties _ paths => paths
  | aggregate errors => undefinedPathsAll errors
  | _ => []

/-- The undefined paths of all errors, in order. -/
def undefinedPathsAll : List Error → List String
  | [] => []
  | error :: rest => error.undefinedPaths ++ undefinedPathsAll rest

end

end Error

end TypedRecords
