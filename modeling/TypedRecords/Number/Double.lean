/-!
# Double-precision numbers

A double is kept as its 64 bits. The size of a finite double is a whole number of *units*, a unit
being the smallest positive double, so comparison, rounding and the arithmetic on doubles are
computed on natural numbers.

* `Double.ieeeEq_symm`, `Double.ieeeEq_trans`: numeric equality is symmetric and transitive.
* `Double.ieeeEq_self`: it is reflexive exactly away from NaN.
-/

namespace TypedRecords

/-- A double-precision number, given by its bits: sign, eleven bits of exponent, fifty-two bits of
fraction. -/
structure Double where
  bits : UInt64
  deriving DecidableEq, Repr

namespace Double

/-! ## Parts of a double -/

/-- The bits as a number. -/
def code (x : Double) : Nat := x.bits.toNat

/-- Whether the sign bit is set; a NaN may have it too. -/
def isNegative (x : Double) : Bool := Nat.pow 2 63 ≤ x.code

/-- The bits without the sign: a larger size has a larger code. -/
def sizeCode (x : Double) : Nat := x.code % Nat.pow 2 63

/-- The code of infinity; the codes above it are not numbers. -/
def infinityCode : Nat := 0x7FF0000000000000

/-- Whether the double is no number. -/
def isNaN (x : Double) : Bool := infinityCode < x.sizeCode

/-- Whether the double is a finite number. -/
def isFinite (x : Double) : Bool := x.sizeCode < infinityCode

/-- Whether the double is infinite, of either sign. -/
def isInfinite (x : Double) : Bool := x.sizeCode = infinityCode

/-- Whether the double is zero, of either sign. -/
def isZero (x : Double) : Bool := x.sizeCode = 0

/-- The eleven bits of the exponent. -/
def exponentField (x : Double) : Nat := x.sizeCode / Nat.pow 2 52

/-- The fifty-two bits below the exponent. -/
def fractionField (x : Double) : Nat := x.sizeCode % Nat.pow 2 52

/-- How many units make one. -/
def unitsPerOne : Nat := Nat.pow 2 1074

/-- The distance to the next larger size, in units. -/
def gap (x : Double) : Nat := Nat.pow 2 (x.exponentField - 1)

/-- The size of a finite double, in units. -/
def units (x : Double) : Nat :=
  if x.exponentField = 0 then x.fractionField else (Nat.pow 2 52 + x.fractionField) * x.gap

/-- The double with the given sign and size code. -/
def ofSizeCode (negative : Bool) (size : Nat) : Double :=
  ⟨UInt64.ofNat (size + if negative then Nat.pow 2 63 else 0)⟩

/-- The NaN that stands for all of them. -/
def nan : Double := ⟨0x7FF8000000000000⟩

/-! ## Equality -/

/-- Numeric equality: the two zeros are equal, and NaN equals nothing. -/
def ieeeEq (x y : Double) : Bool :=
  !x.isNaN && !y.isNaN && (x.bits == y.bits || x.isZero && y.isZero)

theorem ieeeEq_symm {x y : Double} (h : ieeeEq x y = true) : ieeeEq y x = true := by
  simp only [ieeeEq, Bool.and_eq_true, Bool.or_eq_true, beq_iff_eq] at h ⊢
  exact ⟨⟨h.1.2, h.1.1⟩, h.2.imp Eq.symm And.symm⟩

theorem isZero_of_bits {x y : Double} (h : x.bits = y.bits) : x.isZero = y.isZero := by
  unfold isZero sizeCode code
  rw [h]

theorem ieeeEq_trans {x y z : Double} (h : ieeeEq x y = true) (h' : ieeeEq y z = true) :
    ieeeEq x z = true := by
  simp only [ieeeEq, Bool.and_eq_true, Bool.or_eq_true, beq_iff_eq] at h h' ⊢
  refine ⟨⟨h.1.1, h'.1.2⟩, ?_⟩
  rcases h.2 with e | ⟨zx, zy⟩
  · rcases h'.2 with e' | ⟨zy, zz⟩
    · exact .inl (e.trans e')
    · exact .inr ⟨isZero_of_bits e ▸ zy, zz⟩
  · rcases h'.2 with e' | ⟨_, zz⟩
    · exact .inr ⟨zx, isZero_of_bits e' ▸ zy⟩
    · exact .inr ⟨zx, zz⟩

theorem ieeeEq_self (x : Double) : ieeeEq x x = !x.isNaN := by
  simp [ieeeEq]

/-! ## Rounding -/

/-- The quotient rounded to the nearest whole number, a half to the even neighbour. -/
def roundHalfEven (num den : Nat) : Nat :=
  let q := num / den
  let twice := 2 * (num % den)
  if twice < den then q
  else if den < twice then q + 1
  else if q % 2 = 0 then q else q + 1

/-- The size code of the double nearest to `num / den`, ties to the even code; sizes beyond the
largest double give infinity. -/
def nearestCode (num den : Nat) : Nat :=
  let scaled := num * unitsPerOne
  let shift := (scaled / den).log2 - 52
  min infinityCode (shift * Nat.pow 2 52 + roundHalfEven scaled (den * Nat.pow 2 shift))

/-- The double nearest to `num / den`. -/
def ofRatio (negative : Bool) (num den : Nat) : Double :=
  ofSizeCode negative (nearestCode num den)

/-- The double nearest to a natural number. -/
def ofNat (n : Nat) : Double := ofRatio false n 1

/-- The double nearest to `digits · 10 ^ exponent`. Exponents far outside the range of doubles are
answered without computing the power: from `10 ^ 400` on all is infinite, and what is below
`2 ^ -1100` is zero. -/
def ofDecimal (negative : Bool) (digits : Nat) (exponent : Int) : Double :=
  if digits = 0 then ofSizeCode negative 0
  else if 400 < exponent then ofSizeCode negative infinityCode
  else if 3 * exponent + digits.log2 + 1 < -1100 then ofSizeCode negative 0
  else if 0 ≤ exponent then ofRatio negative (digits * Nat.pow 10 exponent.toNat) 1
  else ofRatio negative digits (Nat.pow 10 (-exponent).toNat)

/-- The product of the sizes of two finite doubles, rounded, with the sign of the first. -/
def mulSize (x y : Double) : Double :=
  ofRatio x.isNegative (x.units * y.units) (unitsPerOne * unitsPerOne)

/-- The quotient of the sizes of two finite doubles, rounded, with the sign of the first. -/
def divSize (x y : Double) : Double :=
  ofRatio x.isNegative x.units y.units

/-- The same size with the other sign. -/
def negate (x : Double) : Double :=
  ofSizeCode (!x.isNegative) x.sizeCode

/-! ## Whole doubles -/

/-- The value of a finite double without fractional part. -/
def toInt? (x : Double) : Option Int :=
  if x.isFinite && x.units % unitsPerOne = 0 then
    let size : Int := x.units / unitsPerOne
    some (if x.isNegative then -size else size)
  else none

end Double

end TypedRecords
