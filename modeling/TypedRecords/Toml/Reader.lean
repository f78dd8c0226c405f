import TypedRecords.Json.Reader
import TypedRecords.Toml.Moment
import TypedRecords.Toml.Tables

/-!
# Reading TOML

The documents of TOML 1.0. At most 79 arrays and inline tables may lie inside one another, and a key
may have at most 79 parts. A date or time stands for an object with a single key that no document
would use otherwise.

* `Toml.ofText?`: the tree of a document.
-/

namespace TypedRecords.Toml

open Reader

/-! ## Blanks and comments -/

/-- Whether a character may stand in a line: no control character but the tab. -/
def isLineChar (c : Char) : Bool :=
  c == '\t' || (0x20 ≤ c.toNat && c.toNat != 0x7F)

/-- Blanks within a line. -/
def space : Reader Unit := do
  let _ ← run fun c => c == ' ' || c == '\t'

/-- The end of a line. -/
def newline : Reader Unit := do
  let _ ← skipChar '\x0d'
  char '\n'

/-- A comment up to the end of its line, if there is one. -/
def comment : Reader Unit := do
  if ← skipChar '#' then
    let _ ← run isLineChar

/-- The end of the line or of the text. -/
def newlineOrEnd : Reader Unit := do
  match ← peek? with
  | none => pure ()
  | some _ => newline

/-- The rest of a line: blanks, a comment, and the end of the line or of the text. -/
def lineEnd : Reader Unit := do
  space
  comment
  newlineOrEnd

/-- Blanks, comments and ends of lines. -/
def gap : Reader Unit :=
  iterate (fun (_ : Unit) => do
    space
    match ← peek? with
    | some '#' => comment; newlineOrEnd; pure (.inl ())
    | some '\n' | some '\x0d' => newline; pure (.inl ())
    | _ => pure (.inr ())) ()

/-! ## Strings -/

/-- The character of an escape that gives its code point in `count` hexadecimal digits. -/
def codePoint (count : Nat) : Reader Char := do
  Json.charOf (← Json.hexDigits count 0)

/-- What follows the backslash of an escape. -/
def escape : Reader Char := do
  match ← next with
  | 'b' => pure '\x08'
  | 't' => pure '\t'
  | 'n' => pure '\n'
  | 'f' => pure '\x0c'
  | 'r' => pure '\x0d'
  | '"' => pure '"'
  | '\\' => pure '\\'
  | 'u' => codePoint 4
  | 'U' => codePoint 8
  | _ => failure

/-- The rest of a string in one line, after the opening `quote`; backslashes count if `escapes`. -/
def lineString (quote : Char) (escapes : Bool) : Reader String :=
  iterate (fun (read : List Char) => do
    let c ← next
    if c = quote then pure (.inr (String.ofList read.reverse))
    else if c = '\\' && escapes then pure (.inl ((← escape) :: read))
    else if isLineChar c then pure (.inl (c :: read))
    else failure) []

/-- Blanks and ends of lines, among them at least one end of a line. -/
def foldedLines : Reader Unit := do
  space
  newline
  iterate (fun (_ : Unit) => do
    space
    match ← peek? with
    | some '\n' | some '\x0d' => newline; pure (.inl ())
    | _ => pure (.inr ())) ()

/-- The rest of a string over several lines, after the three opening quotes. Up to two quotes may
stand before the three closing ones. A backslash at the end of a line takes the line break and the
blanks after it away. -/
def blockString (quote : Char) (escapes : Bool) : Reader String := do
  match ← peek? with
  | some '\n' | some '\x0d' => newline
  | _ => pure ()
  iterate (fun (read : List Char) => do
    match ← peek? with
    | none => failure
    | some c =>
      if c = quote then
        let quotes ← run (· == quote)
        if quotes.length < 3 then pure (.inl (quotes ++ read))
        else if quotes.length ≤ 5 then
          pure (.inr (String.ofList (quotes.drop 3 ++ read).reverse))
        else failure
      else if c = '\n' || c = '\x0d' then
        newline
        pure (.inl ('\n' :: read))
      else if c = '\\' && escapes then
        let _ ← next
        match ← peek? with
        | some ' ' | some '\t' | some '\n' | some '\x0d' =>
          foldedLines
          pure (.inl read)
        | _ => pure (.inl ((← escape) :: read))
      else if isLineChar c then
        let _ ← next
        pure (.inl (c :: read))
      else failure) []

/-- A string in any of the four notations. -/
def string : Reader String := do
  if ← skipWord "\"\"\"" then blockString '"' true
  else if ← skipWord "'''" then blockString '\'' false
  else if ← skipChar '"' then lineString '"' true
  else
    char '\''
    lineString '\'' false

/-! ## Keys -/

/-- A part of a key. -/
def keyPart : Reader String := do
  match ← peek? with
  | some '"' => let _ ← next; lineString '"' true
  | some '\'' => let _ ← next; lineString '\'' false
  | _ => String.ofList <$> run1 fun c => c.isAlphanum || c == '_' || c == '-'

/-- A key: the parts before the last, and the last. -/
def key : Reader (List String × String) := do
  let parts ← iterate (fun (read : List String) => do
    space
    let part ← keyPart
    space
    if ← skipChar '.' then pure (.inl (part :: read))
    else pure (.inr (part :: read))) []
  match parts with
  | last :: before => if parts.length < 80 then pure (before.reverse, last) else failure
  | [] => failure

/-! ## Numbers -/

/-- A run of digits with single underscores between them, without the underscores. -/
def digits (isDigit : Char → Bool) : Reader (List Char) :=
  iterate (fun (read : List Char) => do
    let found ← run1 isDigit
    let read := read ++ found
    if ← skipChar '_' then pure (.inl read) else pure (.inr read)) []

/-- A whole number of 64 bits with sign. -/
def integer (n : Int) : Reader Json :=
  match int64? n with
  | some word => pure (.number (.signed word))
  | none => failure

/-- The value of digits to a base. -/
def toBase (base : Nat) (read : List Char) : Nat :=
  read.foldl (fun n c => base * n + (Json.hexDigit? c).getD 0) 0

/-- A whole number to the base sixteen, eight or two, after its mark. -/
def basedInteger (base : Nat) : Reader Json := do
  let read ← digits fun c => (Json.hexDigit? c).any (· < base)
  integer (toBase base read)

/-- The double of a decimal numeral; what is too large is refused, unless it is negative. -/
def double (negative : Bool) (whole fraction : List Char) (exponent : Int) : Reader Json :=
  let n : Numeral := ⟨negative, Numeral.ofDigits 0 (whole ++ fraction), exponent - fraction.length⟩
  let x := n.toDouble
  if x.isInfinite && !negative then failure else pure (.number (.double x))

/-- A decimal number: whole, or with a fraction, an exponent, or both. -/
def decimal (negative : Bool) : Reader Json := do
  let whole ← digits Char.isDigit
  if whole.head? = some '0' && 1 < whole.length then failure
  let point ← skipChar '.'
  let fraction ← if point then digits Char.isDigit else pure []
  if (← skipChar 'e') || (← skipChar 'E') then
    let minus ← skipChar '-'
    unless minus do let _ ← skipChar '+'
    let size := Numeral.ofDigits 0 (← digits Char.isDigit)
    double negative whole fraction (if minus then -(size : Int) else size)
  else if point then double negative whole fraction 0
  else
    let size := Numeral.ofDigits 0 whole
    integer (if negative then -(size : Int) else size)

/-- A number that begins with a sign or a digit, or is named. -/
def number : Reader Json := do
  let negative ← skipChar '-'
  let signed := negative || (← if negative then pure false else skipChar '+')
  if ← skipWord "inf" then
    pure (.number (.double (.ofSizeCode negative Double.infinityCode)))
  else if ← skipWord "nan" then pure (.number (.double .nan))
  else if signed then decimal negative
  else if ← skipWord "0x" then basedInteger 16
  else if ← skipWord "0o" then basedInteger 8
  else if ← skipWord "0b" then basedInteger 2
  else decimal false

/-! ## Values -/

/-- The key that marks a date or a time. -/
def momentKey : String := "$__toml_private_datetime"

/-- A date or a time if the text looks like one, a number otherwise. -/
def numberOrMoment : Reader Json := fun text =>
  if Moment.looksLikeDate text || Moment.looksLikeTime text then
    ((fun moment => Json.object [(momentKey, .string moment)]) <$> Moment.text) text
  else number text

/-- The rest of an array after the opening bracket. A comma may stand after the last item. -/
def arrayRest (item : Reader Json) : Reader (List Json) :=
  iterate (fun (read : List Json) => do
    gap
    if ← skipChar ']' then pure (.inr read.reverse)
    else
      let value ← item
      gap
      if ← skipChar ',' then pure (.inl (value :: read))
      else
        char ']'
        pure (.inr (value :: read).reverse)) []

/-- A key and the value after the equals sign. -/
def binding (value : Reader Json) : Reader Binding := do
  let (path, key) ← key
  char '='
  space
  return { path, key, value := ← value }

/-- The rest of an inline table after the opening brace, in one line and without a comma after the
last binding. -/
def inlineRest (value : Reader Json) : Reader (List Binding) := do
  space
  if ← skipChar '\x7d' then pure []
  else iterate (fun (read : List Binding) => do
    let bound ← binding value
    space
    if ← skipChar ',' then pure (.inl (bound :: read))
    else
      char '\x7d'
      pure (.inr (bound :: read).reverse)) []

/-- A value with fewer than `depth` arrays and inline tables inside one another. -/
def value : Nat → Reader Json
  | 0 => failure
  | depth + 1 => do
    match ← peek? with
    | some '"' | some '\'' => .string <$> string
    | some '[' =>
      if depth = 0 then failure
      char '['
      .array <$> arrayRest (value depth)
    | some '\x7b' =>
      if depth = 0 then failure
      char '\x7b'
      match assembleInline (← inlineRest (value depth)) with
      | some table => pure table
      | none => failure
    | some 't' => word "true"; pure (.bool true)
    | some 'f' => word "false"; pure (.bool false)
    | _ => numberOrMoment

/-! ## Documents -/

/-- A binding on a line of its own. -/
def bindingLine : Reader Binding := do
  let bound ← binding (value 80)
  lineEnd
  pure bound

/-- The bindings up to the next header or the end. -/
def bindings : Reader (List Binding) :=
  iterate (fun (read : List Binding) => do
    gap
    match ← peek? with
    | none | some '[' => pure (.inr read.reverse)
    | some _ => return .inl ((← bindingLine) :: read)) []

/-- The header of a section, on a line of its own. -/
def header : Reader Header := do
  if ← skipWord "[[" then
    let (path, key) ← key
    word "]]"
    lineEnd
    pure (.element path key)
  else
    char '['
    let (path, key) ← key
    char ']'
    lineEnd
    pure (.table path key)

/-- The sections up to the end. -/
def sections : Reader (List Section) :=
  iterate (fun (read : List Section) => do
    match ← peek? with
    | none => pure (.inr read.reverse)
    | some _ =>
      let header ← header
      let bindings ← bindings
      return .inl ({ header, bindings } :: read)) []

/-- The tree of a document. A byte order mark in front is skipped. -/
def document : Reader Json := do
  let _ ← skipChar '\ufeff'
  let bindings ← bindings
  let sections ← sections
  match assemble bindings sections with
  | some tree => pure tree
  | none => failure

/-- Reads a document. -/
def ofText? (text : String) : Option Json := document.whole? text

end TypedRecords.Toml
