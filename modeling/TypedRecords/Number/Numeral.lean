import TypedRecords.Number.Double
import TypedRecords.Text.Basic

/-!
# Numerals

The texts that denote numbers: whole numbers, and decimal numerals with an optional fraction and an
optional exponent. `integral?` reads the numerals that stand for whole numbers of 64 bits.
-/

namespace TypedRecords

namespace Numeral

/-- The number that a run of digits writes, continuing from `start`. -/
def ofDigits (start : Nat) (digits : List Char) : Nat :=
  digits.foldl (fun n c => 10 * n + (c.toNat - '0'.toNat)) start

/-- An optional sign; `true` stands for minus. -/
def splitSign : List Char → Bool × List Char
  | '-' :: rest => (true, rest)
  | '+' :: rest => (false, rest)
  | text => (false, text)

/-- A non-empty run of digits, and nothing else. -/
def natural? (text : List Char) : Option Nat :=
  if !text.isEmpty && text.all Char.isDigit then some (ofDigits 0 text) else none

/-- A whole number with an optional sign. -/
def whole? (text : List Char) : Option Int :=
  let (negative, digits) := splitSign text
  (natural? digits).map fun n => if negative then -(n : Int) else n

end Numeral

/-- Whether a whole number fits in a signed word of 64 bits. -/
def fitsInt64 (n : Int) : Bool :=
  -(Nat.pow 2 63 : Int) ≤ n && n < (Nat.pow 2 63 : Int)

/-- The word that holds `n`, if it fits. -/
def int64? (n : Int) : Option Int64 :=
  if fitsInt64 n then some (Int64.ofInt n) else none

/-- A decimal numeral: `digits · 10 ^ exponent`, with a sign. -/
structure Numeral where
  negative : Bool
  digits : Nat
  exponent : Int
  deriving DecidableEq, Repr

namespace Numeral

/-- The exponent part of a numeral: nothing, or `e`, an optional sign and digits. -/
def exponentPart? : List Char → Option Int
  | [] => some 0
  | c :: rest => if c = 'e' ∨ c = 'E' then whole? rest else none

/-- Reads an optional sign, digits around an optional point (at least one digit), and an optional
exponent. -/
def ofText? (text : List Char) : Option Numeral := do
  let (negative, body) := splitSign text
  let before := body.takeWhile Char.isDigit
  let afterBefore := body.dropWhile Char.isDigit
  let (fraction, tail) := match afterBefore with
    | '.' :: rest => (rest.takeWhile Char.isDigit, rest.dropWhile Char.isDigit)
    | rest => ([], rest)
  guard (!before.isEmpty || !fraction.isEmpty)
  let exponent ← exponentPart? tail
  some ⟨negative, ofDigits 0 (before ++ fraction), exponent - fraction.length⟩

/-- The double nearest to the numeral. -/
def toDouble (numeral : Numeral) : Double :=
  Double.ofDecimal numeral.negative numeral.digits numeral.exponent

/-- The whole number that a text stands for, blanks around it aside: a whole number that fits, or a
decimal numeral whose nearest double is a whole number that fits. -/
def integral? (text : List Char) : Option Int64 :=
  let text := Text.trim text
  match (whole? text).bind int64? with
  | some n => some n
  | none => do
    let numeral ← ofText? text
    let n ← numeral.toDouble.toInt?
    int64? n

end Numeral

end TypedRecords
