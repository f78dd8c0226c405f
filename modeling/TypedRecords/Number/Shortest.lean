import TypedRecords.Number.Double

/-!
# Shortest decimals

The decimal text of a double: the fewest digits that read back as the same double, and of those the
nearest to it. A tie goes up.
-/

namespace TypedRecords

/-- Decimal digits with the position of the point: `0.d₁d₂… · 10 ^ point`. -/
structure Decimal where
  digits : List Char
  point : Int
  deriving DecidableEq, Repr

namespace Decimal

/-- The digits of a number without its final zeros. -/
def significant (n : Nat) : List Char :=
  ((Nat.toDigits 10 n).reverse.dropWhile (· == '0')).reverse

/-- The power `10 ^ n` as a ratio, for exponents of either sign. -/
def power (n : Int) : Nat × Nat :=
  if 0 ≤ n then (Nat.pow 10 n.toNat, 1) else (1, Nat.pow 10 (-n).toNat)

/-- Whether `a / b ≤ c / d`. -/
def ratioLe (a b c d : Nat) : Bool := a * d ≤ c * b

/-- The position of the point: the least `k` with `units / unitsPerOne < 10 ^ k`. -/
def pointOf (units : Nat) : Int :=
  let estimate : Int := (((units.log2 : Int) - 1074) * 30103) / 100000
  let reaches (k : Int) : Bool :=
    let (num, den) := power k
    ratioLe num den units Double.unitsPerOne
  if reaches (estimate + 1) then estimate + 2
  else if reaches estimate then estimate + 1
  else estimate

/-- The numbers that round to a double, in quarters of a unit, and whether the ends do too. -/
structure Interval where
  low : Nat
  high : Nat
  closed : Bool

/-- The interval of a finite double other than zero. Below a power of two the doubles lie twice as
dense. -/
def intervalOf (x : Double) : Interval :=
  let dense := x.fractionField = 0 && 1 < x.exponentField
  { low := 4 * x.units - (if dense then x.gap else 2 * x.gap)
    high := 4 * x.units + 2 * x.gap
    closed := x.fractionField % 2 = 0 }

/-- Whether `count · 10 ^ exponent` lies in the interval. -/
def Interval.holds (interval : Interval) (count : Nat) (exponent : Int) : Bool :=
  let (num, den) := power exponent
  let value := 4 * count * num * Double.unitsPerOne
  if interval.closed then interval.low * den ≤ value && value ≤ interval.high * den
  else interval.low * den < value && value < interval.high * den

/-- The best number of `digits` digits: of the two neighbours on that grid the one in the interval,
the nearer if both are, the upper on a tie. -/
def onGrid? (x : Double) (interval : Interval) (point : Int) (digits : Nat) : Option Nat :=
  let exponent := point - digits
  let (num, den) := power exponent
  let below := x.units * den / (num * Double.unitsPerOne)
  let rest := x.units * den % (num * Double.unitsPerOne)
  match interval.holds below exponent, interval.holds (below + 1) exponent with
  | true, true => some (if 2 * rest < num * Double.unitsPerOne then below else below + 1)
  | true, false => some below
  | false, true => some (below + 1)
  | false, false => none

/-- The first grid with a hit, looking at `digits`, `digits + 1`, … for `rounds` rounds. -/
def search (x : Double) (interval : Interval) (point : Int) : Nat → Nat → Decimal
  | 0, digits =>
    let (num, den) := power (point - digits)
    ofCount (x.units * den / (num * Double.unitsPerOne)) digits
  | rounds + 1, digits =>
    match onGrid? x interval point digits with
    | some count => ofCount count digits
    | none => search x interval point rounds (digits + 1)
where
  /-- A count on the grid of `digits` digits; rounding up may have added a digit. -/
  ofCount (count digits : Nat) : Decimal :=
    ⟨significant count, point + ((Nat.toDigits 10 count).length - digits : Int)⟩

/-- The shortest decimal of the size of a finite double other than zero. Seventeen digits always
suffice. -/
def ofDouble (x : Double) : Decimal :=
  search x (intervalOf x) (pointOf x.units) 17 1

/-! ## Layout -/

/-- As many zeros as `n` says. -/
def zeros (n : Nat) : List Char := List.replicate n '0'

/-- The decimal without exponent; a whole number ends in `ending`. -/
def positional (decimal : Decimal) (ending : List Char) : List Char :=
  let count : Int := decimal.digits.length
  if decimal.point ≤ 0 then '0' :: '.' :: zeros (-decimal.point).toNat ++ decimal.digits
  else if count ≤ decimal.point then
    decimal.digits ++ zeros (decimal.point - count).toNat ++ ending
  else decimal.digits.take decimal.point.toNat ++ '.' :: decimal.digits.drop decimal.point.toNat

/-- The decimal as one digit before the point and a power of ten. -/
def scientific (decimal : Decimal) : List Char :=
  let mantissa := match decimal.digits with
    | [] => ['0']
    | [d] => [d]
    | d :: rest => d :: '.' :: rest
  mantissa ++ 'e' :: (toString (decimal.point - 1)).toList

end Decimal

namespace Double

/-- The text of a double, given how to write the size of a finite one. -/
def textWith (x : Double) (zero : List Char) (size : Decimal → List Char) : String :=
  let minus := if x.isNegative then ['-'] else []
  String.ofList <|
    if x.isNaN then ['N', 'a', 'N']
    else if x.isInfinite then minus ++ ['i', 'n', 'f']
    else if x.isZero then minus ++ zero
    else minus ++ size (Decimal.ofDouble x)

/-- The plain text of a double: never an exponent, and no point in a whole number. -/
def text (x : Double) : String :=
  x.textWith ['0'] fun decimal => decimal.positional []

/-- The text that shows a double as one: a whole number ends in `.0`, and sizes below `10 ^ -4` or
from `10 ^ 16` on have an exponent. -/
def showText (x : Double) : String :=
  x.textWith ['0', '.', '0'] fun decimal =>
    if -4 < decimal.point && decimal.point ≤ 16 then decimal.positional ['.', '0']
    else decimal.scientific

end Double

end TypedRecords
