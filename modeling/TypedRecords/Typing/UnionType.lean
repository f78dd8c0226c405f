import TypedRecords.Typing.TypeName

/-!
# Union types

A property's type is written as a list of declarations, each holding alternatives separated by
bars. An alternative is a type name, optionally with a question mark in front (null is accepted
too) and with `[]` behind (a list of that type). The union keeps the plain alternatives and the
list alternatives apart, each without repetition and in order of first mention.

* `UnionType.display`: the canonical text of a union.
-/

namespace TypedRecords

/-- One alternative of a declaration. -/
structure Alternative where
  /-- A question mark stood in front. -/
  optional : Bool
  /-- The mark `[]` stood behind: `base` is the type of the elements. -/
  listed : Bool
  base : TypeName
  deriving DecidableEq, Repr

namespace Alternative

/-- The mark of a list type. -/
def listMark : List Char := ['[', ']']

/-- An optional question mark, and the trimmed rest. -/
def splitOptional : List Char → Bool × List Char
  | '?' :: rest => (true, Text.trim rest)
  | text => (false, text)

/-- The element type in front of `[]`. A list of lists is checked one level deep only, so an element
that ends in `[]` is any array. -/
def parseElement (declaration : String) (element : List Char) :
    Except TypeSyntaxError TypeName :=
  if element.isEmpty then .error (.emptyAlternative declaration)
  else match Text.dropEnding? listMark element with
    | some _ => .ok (.keyword .array)
    | none => TypeName.parse element

/-- Reads an alternative of `declaration`. -/
def parse (declaration : String) (text : List Char) : Except TypeSyntaxError Alternative :=
  let (optional, rest) := splitOptional (Text.trim text)
  if rest.isEmpty then .error (.emptyAlternative declaration)
  else match Text.dropEnding? listMark rest with
    | some element => do
      let base ← parseElement declaration (Text.trim element)
      .ok ⟨optional, true, base⟩
    | none => do
      let base ← TypeName.parse rest
      .ok ⟨optional, false, base⟩

end Alternative

/-- Adds an item at the end of a list, unless it is there already. -/
def addNew {α : Type} [DecidableEq α] (items : List α) (item : α) : List α :=
  if item ∈ items then items else items ++ [item]

/-- A union of plain types and of list types. -/
structure UnionType where
  /-- The plain alternatives. -/
  plain : List TypeName
  /-- The element types of the list alternatives. -/
  elements : List TypeName
  deriving DecidableEq, Repr

namespace UnionType

/-- No alternative at all; it only arises on the way. -/
def empty : UnionType := ⟨[], []⟩

/-- The union that accepts anything. -/
def mixed : UnionType := ⟨[.keyword .mixed], []⟩

/-- Adds an alternative; null comes before the type that made it optional. -/
def add (union : UnionType) (alternative : Alternative) : UnionType :=
  let plain := if alternative.optional then addNew union.plain (.keyword .null) else union.plain
  if alternative.listed then ⟨plain, addNew union.elements alternative.base⟩
  else ⟨addNew plain alternative.base, union.elements⟩

/-- The alternatives of a list of declarations, each with the declaration it stands in. -/
def alternatives (declarations : List String) : List (String × List Char) :=
  declarations.flatMap fun declaration =>
    (Text.pieces '|' declaration.toList).map fun text => (declaration, text)

/-- Reads a list of declarations. No declaration at all stands for `mixed`. -/
def parse (declarations : List String) : Except TypeSyntaxError UnionType := do
  let read ← (alternatives declarations).mapM fun (declaration, text) =>
    Alternative.parse declaration text
  .ok (if read.isEmpty then mixed else read.foldl add empty)

/-- Whether the keyword `k` is a plain alternative. -/
def contains (union : UnionType) (k : Keyword) : Bool :=
  union.plain.any (·.isKeyword k)

/-- Whether anything is accepted. -/
def isMixed (union : UnionType) : Bool := union.contains .mixed

/-- Whether null is accepted. -/
def isNullable (union : UnionType) : Bool := union.contains .null || union.isMixed

/-- Whether truth values are a plain alternative. -/
def isBool (union : UnionType) : Bool := union.contains .bool

/-- Whether lists are accepted: all of them, or those of some element type. -/
def isArray (union : UnionType) : Bool := union.contains .array || !union.elements.isEmpty

/-- Whether texts are a plain alternative. -/
def isString (union : UnionType) : Bool := union.contains .string

/-- Whether integers are a plain alternative. -/
def isInt (union : UnionType) : Bool := union.contains .int

/-- The classes that the union mentions, plain ones first. -/
def classNames (union : UnionType) : List String :=
  (union.plain ++ union.elements).filterMap TypeName.className?

/-- The alternatives between bars, plain ones first. -/
def display (union : UnionType) : String :=
  let parts := union.plain.map TypeName.display ++ union.elements.map fun t => t.display ++ "[]"
  if parts.isEmpty then "mixed" else "|".intercalate parts

/-- The element types between bars. -/
def elementDisplay (union : UnionType) : String :=
  "|".intercalate (union.elements.map TypeName.display)

end UnionType

end TypedRecords
