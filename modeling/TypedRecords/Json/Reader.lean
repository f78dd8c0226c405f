import TypedRecords.Json.Basic
import TypedRecords.Text.Reader

/-!
# Reading JSON

The texts of JSON, read strictly: no comments, no trailing commas, no lone surrogates, nothing after
the value, and at most 127 arrays and objects inside one another.

A number without point and exponent is kept whole if it fits in 64 bits. For any other number, the
digits are gathered in a word of 64 bits as long as they fit, and the word is scaled by its power of
ten in double precision, in at most a few rounded steps; so the last bit may differ from that of the
nearest double. A number too large for a double is refused.
-/

namespace TypedRecords

namespace Json

open Reader

/-! ## Numbers -/

/-- The exponents of ten are kept within a word of 32 bits with sign. -/
def exponentLimit : Nat := Nat.pow 2 31 - 1

/-- Numbers of this size no longer fit in the word that gathers the digits. -/
def wordLimit : Nat := Nat.pow 2 64

/-- The double nearest to a power of ten. -/
def tenTo (n : Nat) : Double := Double.ofDecimal false 1 n

/-- The quotient `size / 10 ^ down`: divisions by `10 ^ 308`, and a last one by what is left. -/
def scaleDown (size : Double) (down : Nat) : Nat → Double
  | 0 => size
  | rounds + 1 =>
    if down ≤ 308 then size.divSize (tenTo down)
    else if size.isZero then size
    else scaleDown (size.divSize (tenTo 308)) (down - 308) rounds

/-- The product `size · 10 ^ exponent`, unless that is too large. -/
def scale? (size : Double) (exponent : Int) : Option Double :=
  if 0 ≤ exponent then
    if exponent ≤ 308 then
      let scaled := size.mulSize (tenTo exponent.toNat)
      if scaled.isInfinite then none else some scaled
    else if size.isZero then some size
    else none
  else some (scaleDown size (-exponent).toNat 8)

/-- The number of the gathered digits and a power of ten. -/
def finish? (negative : Bool) (word : Nat) (exponent : Int) : Option JsonNumber := do
  let size ← scale? (Double.ofNat word) exponent
  some (.double (if negative then size.negate else size))

/-- Gathers digits in a word for as long as they fit; answers the word, the number of digits that
are in it, and the digits that no longer fit. -/
def gather (word : Nat) : List Char → Nat × Nat × List Char
  | [] => (word, 0, [])
  | c :: rest =>
    let next := 10 * word + (c.toNat - '0'.toNat)
    if wordLimit ≤ next then (word, 0, c :: rest)
    else
      let (word, taken, left) := gather next rest
      (word, taken + 1, left)

/-- Keeps an exponent within a word of 32 bits. -/
def clampExponent (exponent : Int) : Int :=
  max (-(exponentLimit : Int) - 1) (min exponentLimit exponent)

/-- The exponent that follows the mark `e`: refused if it does not fit, unless the number is then
zero all the same. -/
def exponentPart (negative : Bool) (word : Nat) (start : Int) : Reader JsonNumber := do
  let minus ← skipChar '-'
  unless minus do let _ ← skipChar '+'
  let digits ← run1 Char.isDigit
  let exponent := Numeral.ofDigits 0 digits
  if exponentLimit < exponent then
    if word ≠ 0 && !minus then failure
    else pure (.double (Double.ofSizeCode negative 0))
  else
    let total : Int := if minus then start - exponent else start + exponent
    match finish? negative word (clampExponent total) with
    | some n => pure n
    | none => failure

/-- What may follow the digits of a number: a fraction, an exponent, both, or neither. The count
`extra` is that of the digits before the point that did not fit in the word. -/
def tail (negative : Bool) (word extra : Nat) (whole : Option JsonNumber) :
    Reader JsonNumber := do
  let exponentOrEnd (word : Nat) (exponent : Int) : Reader JsonNumber := do
    if (← skipChar 'e') || (← skipChar 'E') then exponentPart negative word exponent
    else match finish? negative word exponent with
      | some n => pure n
      | none => failure
  match ← peek? with
  | some '.' =>
    let _ ← next
    let digits ← run1 Char.isDigit
    let (word, taken, _) := gather word digits
    exponentOrEnd word (extra - taken)
  | some 'e' | some 'E' => exponentOrEnd word extra
  | _ =>
    match whole with
    | some n => pure n
    | none => exponentOrEnd word extra

/-- The whole number of a sign and a word. Minus zero is a double, and so is what lies below the
words with sign. -/
def wholeNumber (negative : Bool) (word : Nat) : JsonNumber :=
  if negative then
    if word = 0 || Nat.pow 2 63 < word then .double (Double.ofNat word).negate
    else .signed (Int64.ofInt (-(word : Int)))
  else if word < Nat.pow 2 63 then .signed (Int64.ofNat word)
  else .large (UInt64.ofNat word)

/-- A number; a zero in front stands alone. -/
def numeral : Reader JsonNumber := do
  let negative ← skipChar '-'
  let digits ← run1 Char.isDigit
  if digits.head? = some '0' && 1 < digits.length then failure
  let (word, _, left) := gather 0 digits
  tail negative word left.length (if left.isEmpty then some (wholeNumber negative word) else none)

/-! ## Strings -/

/-- The value of a digit to the base sixteen. -/
def hexDigit? (c : Char) : Option Nat :=
  if c.isDigit then some (c.toNat - '0'.toNat)
  else if 'a' ≤ c && c ≤ 'f' then some (c.toNat - 'a'.toNat + 10)
  else if 'A' ≤ c && c ≤ 'F' then some (c.toNat - 'A'.toNat + 10)
  else none

/-- Exactly `count` digits to the base sixteen. -/
def hexDigits : Nat → Nat → Reader Nat
  | 0, value => pure value
  | count + 1, value => do
    match hexDigit? (← next) with
    | some d => hexDigits count (16 * value + d)
    | none => failure

/-- The character of a code point, if it is one. -/
def charOf (code : Nat) : Reader Char :=
  if code.isValidChar then pure (Char.ofNat code) else failure

/-- The character of an escape with four hexadecimal digits; a surrogate needs its partner. -/
def unicodeEscape : Reader Char := do
  let code ← hexDigits 4 0
  if 0xD800 ≤ code && code < 0xDC00 then
    word "\\u"
    let low ← hexDigits 4 0
    if 0xDC00 ≤ low && low < 0xE000 then
      charOf (0x10000 + (code - 0xD800) * 0x400 + (low - 0xDC00))
    else failure
  else charOf code

/-- What follows the backslash of an escape. -/
def escape : Reader Char := do
  match ← next with
  | '"' => pure '"'
  | '\\' => pure '\\'
  | '/' => pure '/'
  | 'b' => pure '\x08'
  | 'f' => pure '\x0c'
  | 'n' => pure '\n'
  | 'r' => pure '\x0d'
  | 't' => pure '\t'
  | 'u' => unicodeEscape
  | _ => failure

/-- The rest of a string after the opening quote. -/
def stringRest : Reader String :=
  iterate (fun (read : List Char) => do
    match ← next with
    | '"' => pure (.inr (String.ofList read.reverse))
    | '\\' => pure (.inl ((← escape) :: read))
    | c => if c.toNat < 0x20 then failure else pure (.inl (c :: read))) []

/-! ## Values -/

/-- Blanks between tokens. -/
def space : Reader Unit := do
  let _ ← run fun c => c == ' ' || c == '\n' || c == '\t' || c == '\x0d'

/-- The rest of a list after the opening bracket: items between commas, up to `close`. -/
def listRest {α : Type} (close : Char) (item : Reader α) : Reader (List α) := do
  space
  if ← skipChar close then pure []
  else iterate (fun (read : List α) => do
    space
    let value ← item
    space
    if ← skipChar ',' then pure (.inl (value :: read))
    else
      char close
      pure (.inr (value :: read).reverse)) []

/-- A key with its value. -/
def entry (value : Reader Json) : Reader (String × Json) := do
  char '"'
  let key ← stringRest
  space
  char ':'
  space
  return (key, ← value)

/-- A value with fewer than `depth` arrays and objects inside one another. -/
def value : Nat → Reader Json
  | 0 => failure
  | depth + 1 => do
    match ← peek? with
    | some 'n' => word "null"; pure .null
    | some 't' => word "true"; pure (.bool true)
    | some 'f' => word "false"; pure (.bool false)
    | some '"' => char '"'; return .string (← stringRest)
    | some '[' =>
      if depth = 0 then failure
      char '['
      return .array (← listRest ']' (value depth))
    | some '\x7b' =>
      if depth = 0 then failure
      char '\x7b'
      return .object (← listRest '\x7d' (entry (value depth)))
    | _ => return .number (← numeral)

/-- Reads a text of JSON. -/
def ofText? (text : String) : Option Json :=
  (do space; let v ← value 128; space; pure v : Reader Json).whole? text

end Json

end TypedRecords
