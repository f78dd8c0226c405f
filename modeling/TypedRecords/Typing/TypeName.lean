import TypedRecords.Typing.Keyword

/-!
# Type names

A type name is a keyword or the qualified name of a class: segments separated by single
backslashes, with at most one more backslash in front, which is dropped.
-/

namespace TypedRecords

/-- Why a text is not a type. -/
inductive TypeSyntaxError where
  /-- An alternative of `declaration` has no type in it. -/
  | emptyAlternative (declaration : String)
  /-- The text is neither a keyword nor a qualified name. -/
  | invalidIdentifier (text : String)
  deriving DecidableEq, Repr

namespace TypeSyntaxError

/-- The sentence that tells the error. -/
def message : TypeSyntaxError → String
  | emptyAlternative declaration => "Empty type token in `" ++ declaration ++ "`"
  | invalidIdentifier text => "Invalid type identifier: " ++ text

end TypeSyntaxError

/-- Drops one backslash in front. -/
def dropBackslash : List Char → List Char
  | '\\' :: rest => rest
  | text => text

/-- A class name without the backslash it may start with. -/
def normalName (name : String) : String :=
  String.ofList (dropBackslash name.toList)

/-- A keyword or the name of a class. -/
inductive TypeName where
  | keyword (k : Keyword)
  | named (className : String)
  deriving DecidableEq, Repr

namespace TypeName

/-- A segment is a letter or underscore, followed by letters, digits and underscores, all ASCII. -/
def isSegment : List Char → Bool
  | [] => false
  | c :: rest => (c.isAlpha || c == '_') && rest.all fun d => d.isAlphanum || d == '_'

/-- A qualified name is one or more segments between single backslashes. -/
def isQualified (text : List Char) : Bool :=
  (Text.pieces '\\' text).all isSegment

/-- Reads a type name, blanks around it aside. -/
def parse (text : List Char) : Except TypeSyntaxError TypeName :=
  let text := Text.trim text
  match Keyword.ofText? text with
  | some k => .ok (keyword k)
  | none =>
    let name := dropBackslash text
    if isQualified name then .ok (named (String.ofList name))
    else .error (.invalidIdentifier (String.ofList text))

/-- The name as it is displayed. -/
def display : TypeName → String
  | keyword k => k.name
  | named className => className

/-- The keyword, if the type is built in. -/
def keyword? : TypeName → Option Keyword
  | keyword k => some k
  | named _ => none

/-- The class, if the type is named. -/
def className? : TypeName → Option String
  | keyword _ => none
  | named className => some className

/-- Whether this is the keyword `k`. -/
def isKeyword (name : TypeName) (k : Keyword) : Bool :=
  name.keyword? == some k

end TypeName

end TypedRecords
