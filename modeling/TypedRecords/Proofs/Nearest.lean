import Mathlib.Algebra.Order.Field.Rat
import Mathlib.Algebra.Order.Monoid.Unbundled.Basic
import Mathlib.Data.Nat.Cast.Order.Field
import Mathlib.Data.Rat.Cast.Order
import Mathlib.Order.Monotone.Basic
import Mathlib.Tactic.FieldSimp
import Mathlib.Tactic.Linarith
import Mathlib.Tactic.Positivity
import Mathlib.Tactic.Ring
import TypedRecords.Number.Double

/-!
# The nearest double

The sizes of the doubles are whole numbers of units, and in every stretch from a power of two to the
next they lie on a grid of which the step is again a power of two.  To round to a double is to round
to a whole number of steps, and this is the way doubles are computed.

* `Double.value`: the number that a finite double stands for.  `Double.IsNearest`: a double is
  nearest to a number among all finite ones, ties to the even code.
* `Double.isNearestCode_scaled`: **to round to a double is to round to a whole number of steps.**
* `Double.isNearest_ofRatio`, `Double.value_lt_of_ofRatio`: the double that is computed for a ratio
  is nearest to it, or the ratio is beyond all finite doubles.
* `Double.IsNearest.value_unique`: there is only one nearest number.
* `Double.ofDecimal_eq_ofRatio`: the shortcuts for extreme exponents make no difference.
* `Double.toInt?_ofDecimal_eq_some_iff`: **a whole number of 64 bits is read off a decimal numeral
  if and only if the nearest double is that number.**
-/

namespace TypedRecords

namespace Double

/-! ## Sizes and their codes -/

/-- The size that a code stands for, in units. -/
def sizeOfCode (code : ℕ) : ℕ :=
  if code / 2 ^ 52 = 0 then code % 2 ^ 52
  else (2 ^ 52 + code % 2 ^ 52) * 2 ^ (code / 2 ^ 52 - 1)

theorem units_eq_sizeOfCode (x : Double) : x.units = sizeOfCode x.sizeCode := rfl

/-- The code `shift * 2 ^ 52 + steps` stands for so many steps of `2 ^ shift` units. -/
theorem sizeOfCode_scaled {shift steps : ℕ} (hnormal : shift = 0 ∨ 2 ^ 52 ≤ steps)
    (hs : steps ≤ 2 ^ 53) : sizeOfCode (shift * 2 ^ 52 + steps) = steps * 2 ^ shift := by
  rcases Nat.lt_or_ge steps (2 ^ 52) with hlt | hge
  · obtain rfl : shift = 0 := hnormal.resolve_right (by omega)
    have hfield : (0 * 2 ^ 52 + steps) / 2 ^ 52 = 0 := by omega
    have hfraction : (0 * 2 ^ 52 + steps) % 2 ^ 52 = steps := by omega
    rw [sizeOfCode, if_pos hfield, hfraction, pow_zero, mul_one]
  · rcases Nat.lt_or_ge steps (2 ^ 53) with hlt | htop
    · have hfield : (shift * 2 ^ 52 + steps) / 2 ^ 52 = shift + 1 := by omega
      have hfraction : 2 ^ 52 + (shift * 2 ^ 52 + steps) % 2 ^ 52 = steps := by omega
      rw [sizeOfCode, if_neg (by omega), hfraction, hfield, Nat.add_sub_cancel]
    · obtain rfl : steps = 2 ^ 53 := by omega
      have hfield : (shift * 2 ^ 52 + 2 ^ 53) / 2 ^ 52 = shift + 2 := by omega
      have hfraction : (shift * 2 ^ 52 + 2 ^ 53) % 2 ^ 52 = 0 := by omega
      rw [sizeOfCode, if_neg (by omega), hfraction, hfield]
      show (2 ^ 52 + 0) * 2 ^ (shift + 1) = 2 ^ 53 * 2 ^ shift
      ring

theorem exists_scaled (code : ℕ) : ∃ shift steps, code = shift * 2 ^ 52 + steps ∧
    (shift = 0 ∨ 2 ^ 52 ≤ steps) ∧ steps < 2 ^ 53 :=
  ⟨code / 2 ^ 52 - 1, code - (code / 2 ^ 52 - 1) * 2 ^ 52, by omega, by omega, by omega⟩

theorem sizeOfCode_strictMono : StrictMono sizeOfCode := by
  refine strictMono_nat_of_lt_succ fun code => ?_
  obtain ⟨shift, steps, rfl, hnormal, hs⟩ := exists_scaled code
  rw [sizeOfCode_scaled hnormal hs.le, Nat.add_assoc,
    sizeOfCode_scaled (hnormal.imp_right fun h => by omega) hs]
  exact Nat.mul_lt_mul_of_pos_right (Nat.lt_succ_self steps) (Nat.two_pow_pos shift)

/-! ## Rounding to whole numbers -/

/-- The whole number is at most a half away, and even if it is a half away. -/
structure IsRounded (size : ℚ) (n : ℕ) : Prop where
  close : |(n : ℚ) - size| ≤ 1 / 2
  even : |(n : ℚ) - size| = 1 / 2 → n % 2 = 0

theorem isRounded_roundHalfEven (num : ℕ) {den : ℕ} (hden : 0 < den) :
    IsRounded (num / den) (roundHalfEven num den) := by
  have hd : (0 : ℚ) < den := Nat.cast_pos.mpr hden
  have hnum : (num : ℚ) / den = (num / den : ℕ) + ((num % den : ℕ) : ℚ) / den := by
    have hsplit : (num : ℚ) = den * (num / den : ℕ) + (num % den : ℕ) := by
      exact_mod_cast (Nat.div_add_mod num den).symm
    rw [hsplit]
    field_simp
  have hbelow : 2 * (num % den) < den ↔ ((num % den : ℕ) : ℚ) / den < 1 / 2 := by
    rw [div_lt_div_iff₀ hd two_pos, one_mul, mul_comm]
    exact_mod_cast Iff.rfl
  have habove : den < 2 * (num % den) ↔ 1 / 2 < ((num % den : ℕ) : ℚ) / den := by
    rw [div_lt_div_iff₀ two_pos hd, one_mul, mul_comm ((num % den : ℕ) : ℚ)]
    exact_mod_cast Iff.rfl
  have hnonneg : (0 : ℚ) ≤ ((num % den : ℕ) : ℚ) / den := by positivity
  have hlt : ((num % den : ℕ) : ℚ) / den < 1 :=
    (div_lt_one hd).mpr (by exact_mod_cast Nat.mod_lt num hden)
  unfold roundHalfEven
  dsimp only
  rw [hnum]
  generalize ((num % den : ℕ) : ℚ) / den = rest at *
  generalize num / den = q at *
  have hfloor : |(q : ℚ) - (q + rest)| = rest := by
    rw [sub_add_cancel_left, abs_neg, abs_of_nonneg hnonneg]
  have hceil : |((q + 1 : ℕ) : ℚ) - (q + rest)| = 1 - rest := by
    rw [Nat.cast_add_one, add_sub_add_left_eq_sub, abs_of_pos (sub_pos.mpr hlt)]
  rcases lt_trichotomy rest (1 / 2) with hrest | hrest | hrest
  · rw [if_pos (hbelow.mpr hrest)]
    exact ⟨by rw [hfloor]; exact hrest.le, fun h => absurd (hfloor ▸ h) hrest.ne⟩
  · rw [if_neg (fun h => hrest.not_lt (hbelow.mp h)), if_neg (fun h => hrest.not_gt (habove.mp h))]
    split
    · next heven => exact ⟨by rw [hfloor, hrest], fun _ => heven⟩
    · next hodd => exact ⟨by rw [hceil, hrest]; norm_num, fun _ => by omega⟩
  · rw [if_neg (fun h => hrest.not_gt (hbelow.mp h)), if_pos (habove.mpr hrest)]
    exact ⟨by rw [hceil]; linarith, fun h => by rw [hceil] at h; linarith⟩

/-- What is at most a half away is nearest, and only what is exactly a half away has a rival. -/
theorem IsRounded.nearest {size : ℚ} {n : ℕ} (h : IsRounded size n) (k : ℕ) :
    |(n : ℚ) - size| ≤ |(k : ℚ) - size| ∧
      (k ≠ n → |(k : ℚ) - size| = |(n : ℚ) - size| → n % 2 = 0) := by
  by_cases hk : k = n
  · subst hk
    exact ⟨le_rfl, fun hne => absurd rfl hne⟩
  · have hapart : (1 : ℚ) ≤ |(k : ℚ) - n| := by
      have hint : (1 : ℤ) ≤ |(k : ℤ) - n| := by
        rcases Nat.lt_or_gt_of_ne hk with hlt | hgt
        · rw [abs_of_neg (by omega)]; omega
        · rw [abs_of_pos (by omega)]; omega
      exact_mod_cast hint
    have htriangle : |(k : ℚ) - n| ≤ |(k : ℚ) - size| + |(n : ℚ) - size| := by
      rw [abs_sub_comm (n : ℚ)]
      exact abs_sub_le _ _ _
    have hclose := h.close
    exact ⟨by linarith, fun _ heq => h.even (by linarith)⟩

/-! ## The nearest code -/

/-- The size that the code stands for is nearest among all, and the code is even if there is another
one as near. -/
structure IsNearestCode (size : ℚ) (code : ℕ) : Prop where
  nearest : ∀ other, |(sizeOfCode code : ℚ) - size| ≤ |(sizeOfCode other : ℚ) - size|
  even : ∀ other, other ≠ code →
    |(sizeOfCode other : ℚ) - size| = |(sizeOfCode code : ℚ) - size| → code % 2 = 0

section Scaled

variable {size : ℚ} {shift steps : ℕ}

theorem abs_steps_sub (size : ℚ) (shift k : ℕ) : |((k * 2 ^ shift : ℕ) : ℚ) - size| =
    |(k : ℚ) - size / 2 ^ shift| * 2 ^ shift := by
  have hstep : (0 : ℚ) < 2 ^ shift := by positivity
  rw [← abs_of_pos hstep, ← abs_mul, abs_of_pos hstep]
  congr 1
  push_cast
  field_simp

theorem IsRounded.normal (h : IsRounded (size / 2 ^ shift) steps)
    (hlower : shift = 0 ∨ (2 : ℚ) ^ (52 + shift) ≤ size) : shift = 0 ∨ 2 ^ 52 ≤ steps := by
  refine hlower.imp_right fun hle => ?_
  have hscaled : (2 : ℚ) ^ 52 ≤ size / 2 ^ shift := by rwa [le_div_iff₀ (by positivity), ← pow_add]
  have hcast : (2 : ℚ) ^ 52 < steps + 1 := by linarith [(abs_le.mp h.close).1]
  exact Nat.lt_succ_iff.mp (by exact_mod_cast hcast)

theorem IsRounded.le (h : IsRounded (size / 2 ^ shift) steps)
    (hupper : size < (2 : ℚ) ^ (53 + shift)) : steps ≤ 2 ^ 53 := by
  have hscaled : size / 2 ^ shift < (2 : ℚ) ^ 53 := by rwa [div_lt_iff₀ (by positivity), ← pow_add]
  have hcast : (steps : ℚ) < 2 ^ 53 + 1 := by linarith [(abs_le.mp h.close).2]
  exact Nat.lt_succ_iff.mp (by exact_mod_cast hcast)

/-- Of the sizes on the grid, none is nearer than the one that is rounded to. -/
theorem IsRounded.nearest_on_grid (h : IsRounded (size / 2 ^ shift) steps) (k : ℕ) :
    |((steps * 2 ^ shift : ℕ) : ℚ) - size| ≤ |((k * 2 ^ shift : ℕ) : ℚ) - size| ∧
      (k ≠ steps → |((k * 2 ^ shift : ℕ) : ℚ) - size| = |((steps * 2 ^ shift : ℕ) : ℚ) - size| →
        steps % 2 = 0) := by
  have hstep : (0 : ℚ) < 2 ^ shift := by positivity
  obtain ⟨hnearest, heven⟩ := h.nearest k
  rw [abs_steps_sub, abs_steps_sub]
  exact ⟨mul_le_mul_of_nonneg_right hnearest hstep.le,
    fun hne heq => heven hne (mul_right_cancel₀ hstep.ne' heq)⟩

/-- On a finer grid below there is nothing as near, since the grids meet at a common point that is
not beyond the size. -/
theorem IsRounded.nearer_than_finer (h : IsRounded (size / 2 ^ shift) steps)
    (hlower : (2 : ℚ) ^ (52 + shift) ≤ size) {shift' steps' : ℕ} (hfiner : shift' < shift)
    (hs' : steps' < 2 ^ 53) :
    |((steps * 2 ^ shift : ℕ) : ℚ) - size| < |((steps' * 2 ^ shift' : ℕ) : ℚ) - size| := by
  have hbelow : steps' * 2 ^ shift' < 2 ^ (52 + shift) := by
    calc steps' * 2 ^ shift' < 2 ^ 53 * 2 ^ shift' :=
          Nat.mul_lt_mul_of_pos_right hs' (Nat.two_pow_pos shift')
      _ = 2 ^ (53 + shift') := (pow_add 2 53 shift').symm
      _ ≤ 2 ^ (52 + shift) := Nat.pow_le_pow_right two_pos (by omega)
  have hcast : ((steps' * 2 ^ shift' : ℕ) : ℚ) < 2 ^ (52 + shift) := by exact_mod_cast hbelow
  have hmeet := (h.nearest_on_grid (2 ^ 52)).1
  rw [← pow_add, Nat.cast_pow, Nat.cast_ofNat, abs_of_nonpos (sub_nonpos.mpr hlower)] at hmeet
  rw [abs_of_neg (a := ((steps' * 2 ^ shift' : ℕ) : ℚ) - size) (by linarith)]
  linarith

/-- **To round to a double is to round to a whole number of steps**, of the length that doubles of
this size have. -/
theorem isNearestCode_scaled (hlower : shift = 0 ∨ (2 : ℚ) ^ (52 + shift) ≤ size)
    (hupper : size < (2 : ℚ) ^ (53 + shift)) (h : IsRounded (size / 2 ^ shift) steps) :
    IsNearestCode size (shift * 2 ^ 52 + steps) := by
  have hcode := sizeOfCode_scaled (h.normal hlower) (h.le hupper)
  have hother : ∀ other, |(sizeOfCode (shift * 2 ^ 52 + steps) : ℚ) - size| ≤
      |(sizeOfCode other : ℚ) - size| ∧ (other ≠ shift * 2 ^ 52 + steps →
        |(sizeOfCode other : ℚ) - size| =
          |(sizeOfCode (shift * 2 ^ 52 + steps) : ℚ) - size| → steps % 2 = 0) := by
    intro other
    obtain ⟨shift', steps', hsplit, hnormal', hs'⟩ := exists_scaled other
    have hcode' : sizeOfCode other = steps' * 2 ^ shift' :=
      hsplit ▸ sizeOfCode_scaled hnormal' hs'.le
    rcases Nat.lt_or_ge shift' shift with hfiner | hcoarser
    · have hnearer := h.nearer_than_finer (hlower.resolve_left (by omega)) hfiner hs'
      rw [hcode, hcode']
      exact ⟨hnearer.le, fun _ heq => absurd heq hnearer.ne'⟩
    · have hgrid : sizeOfCode other = steps' * 2 ^ (shift' - shift) * 2 ^ shift := by
        rw [hcode', mul_assoc, ← pow_add, Nat.sub_add_cancel hcoarser]
      obtain ⟨hnearest, heven⟩ := h.nearest_on_grid (steps' * 2 ^ (shift' - shift))
      rw [← hgrid, ← hcode] at hnearest heven
      refine ⟨hnearest, fun hne => heven fun hsame => hne ?_⟩
      exact sizeOfCode_strictMono.injective (by rw [hgrid, hsame, hcode])
  refine ⟨fun other => (hother other).1, fun other hne heq => ?_⟩
  have heven := (hother other).2 hne heq
  omega

end Scaled

/-- **The code that is computed for a ratio is nearest**, unless it is beyond all finite doubles. -/
theorem exists_isNearestCode (num : ℕ) {den : ℕ} (hden : 0 < den) :
    ∃ code, nearestCode num den = min infinityCode code ∧
      IsNearestCode (num * unitsPerOne / den) code := by
  have hd : (0 : ℚ) < den := Nat.cast_pos.mpr hden
  let scaled := num * unitsPerOne
  let floor := scaled / den
  let shift := floor.log2 - 52
  refine ⟨shift * 2 ^ 52 + roundHalfEven scaled (den * 2 ^ shift), ?_, ?_⟩
  · simp only [nearestCode, Nat.pow_eq, scaled, floor, shift]
  have hsize : (num * unitsPerOne / den : ℚ) = (scaled : ℚ) / den := by
    rw [Nat.cast_mul]
  rw [hsize]
  refine isNearestCode_scaled ?_ ?_ ?_
  · by_cases hshift : shift = 0
    · exact .inl hshift
    · refine .inr ?_
      have hlog : 52 + shift = floor.log2 := by omega
      have hne : floor ≠ 0 := fun hzero => hshift (by simp [shift, hzero])
      calc (2 : ℚ) ^ (52 + shift) = ((2 ^ floor.log2 : ℕ) : ℚ) := by rw [hlog]; norm_cast
        _ ≤ (floor : ℚ) := Nat.cast_le.mpr (Nat.log2_self_le hne)
        _ ≤ scaled / den := Nat.cast_div_le
  · have hlog : floor.log2 + 1 ≤ 53 + shift := by omega
    have hfloor : floor + 1 ≤ 2 ^ (53 + shift) :=
      (Nat.lt_log2_self (n := floor)).trans_le (Nat.pow_le_pow_right two_pos hlog)
    have hscaled : (scaled : ℚ) < den * (floor + 1 : ℕ) := by
      exact_mod_cast Nat.lt_mul_div_succ scaled hden
    calc (scaled : ℚ) / den < (floor + 1 : ℕ) := by rwa [div_lt_iff₀' hd]
      _ ≤ 2 ^ (53 + shift) := by exact_mod_cast hfloor
  · have hrounded := isRounded_roundHalfEven scaled (Nat.mul_pos hden (Nat.two_pow_pos shift))
    rwa [Nat.cast_mul den, ← div_div, Nat.cast_pow, Nat.cast_ofNat] at hrounded

/-! ## Values -/

/-- The factor that a sign stands for. -/
def sign (negative : Bool) : ℚ := if negative then -1 else 1

/-- The number that a finite double stands for. -/
def value (x : Double) : ℚ := sign x.isNegative * (x.units / unitsPerOne)

/-- The double is finite and nearest to the number among all finite doubles, and its code is even if
another number is as near. -/
structure IsNearest (number : ℚ) (x : Double) : Prop where
  finite : x.isFinite = true
  nearest : ∀ y : Double, y.isFinite = true → |x.value - number| ≤ |y.value - number|
  even : ∀ y : Double, y.isFinite = true → y.value ≠ x.value →
    |y.value - number| = |x.value - number| → x.sizeCode % 2 = 0

theorem abs_sign (negative : Bool) : |sign negative| = 1 := by
  cases negative
  · exact abs_one
  · exact (abs_neg 1).trans abs_one

theorem unitsPerOne_pos : (0 : ℚ) < unitsPerOne := by
  have hpos : 0 < unitsPerOne := by decide +kernel
  exact Nat.cast_pos.mpr hpos

theorem isFinite_iff {x : Double} : x.isFinite = true ↔ x.sizeCode < infinityCode :=
  decide_eq_true_iff

theorem abs_value (x : Double) : |x.value| = sizeOfCode x.sizeCode / unitsPerOne := by
  have hsize : (0 : ℚ) ≤ sizeOfCode x.sizeCode / unitsPerOne :=
    div_nonneg (Nat.cast_nonneg _) unitsPerOne_pos.le
  rw [value, abs_mul, abs_sign, one_mul, units_eq_sizeOfCode, abs_of_nonneg hsize]

theorem code_ofSizeCode (negative : Bool) {size : ℕ} (h : size < 2 ^ 63) :
    (ofSizeCode negative size).code = size + if negative then 2 ^ 63 else 0 := by
  have hfits : (size + if negative then Nat.pow 2 63 else 0) < 2 ^ 64 := by
    rw [Nat.pow_eq]
    split <;> omega
  exact UInt64.toNat_ofNat_of_lt' hfits

theorem isNegative_ofSizeCode (negative : Bool) {size : ℕ} (h : size < 2 ^ 63) :
    (ofSizeCode negative size).isNegative = negative := by
  unfold isNegative
  rw [code_ofSizeCode negative h, Nat.pow_eq]
  cases negative <;> simp
  exact h

theorem sizeCode_ofSizeCode (negative : Bool) {size : ℕ} (h : size < 2 ^ 63) :
    (ofSizeCode negative size).sizeCode = size := by
  unfold sizeCode
  rw [code_ofSizeCode negative h, Nat.pow_eq]
  split <;> omega

theorem value_ofSizeCode (negative : Bool) {size : ℕ} (h : size < 2 ^ 63) :
    (ofSizeCode negative size).value = sign negative * (sizeOfCode size / unitsPerOne) := by
  rw [value, isNegative_ofSizeCode negative h, units_eq_sizeOfCode, sizeCode_ofSizeCode negative h]

theorem infinityCode_lt : infinityCode < 2 ^ 63 := by decide +kernel

/-! ## The double that is computed for a ratio -/

section Ratio

variable {negative : Bool} {num den : ℕ}

theorem abs_div_sub (num den size : ℕ) :
    |(size : ℚ) / unitsPerOne - num / den| =
      |(size : ℚ) - num * unitsPerOne / den| / unitsPerOne := by
  have hunit := unitsPerOne_pos
  rw [← abs_of_pos hunit, ← abs_div, abs_of_pos hunit, sub_div, mul_div_right_comm,
    mul_div_cancel_right₀ _ hunit.ne']

theorem sizeCode_ofRatio (negative : Bool) (num : ℕ) (hden : 0 < den) :
    ∃ code, (ofRatio negative num den).sizeCode = min infinityCode code ∧
      (ofRatio negative num den).value =
        sign negative * (sizeOfCode (min infinityCode code) / unitsPerOne) ∧
      IsNearestCode (num * unitsPerOne / den) code := by
  obtain ⟨code, hcode, hnearest⟩ := exists_isNearestCode num hden
  have hlt : min infinityCode code < 2 ^ 63 := (min_le_left _ _).trans_lt infinityCode_lt
  unfold ofRatio
  rw [hcode]
  exact ⟨code, sizeCode_ofSizeCode negative hlt, value_ofSizeCode negative hlt, hnearest⟩

/-- A double of the opposite sign is as near as one of the right sign only if both are zero. -/
theorem eq_zero_of_opposite {size ratio : ℚ} (hsize : 0 ≤ size) (hratio : 0 ≤ ratio)
    (hzero : |size - ratio| ≤ ratio)
    (heq : |-(sign negative * size) - sign negative * ratio| = |size - ratio|) : size = 0 := by
  rw [← neg_add', ← mul_add, abs_neg, abs_mul, abs_sign, one_mul,
    abs_of_nonneg (add_nonneg hsize hratio)] at heq
  linarith

theorem IsNearestCode.abs_sub_le {code : ℕ} (h : IsNearestCode (num * unitsPerOne / den) code)
    (other : ℕ) : |(sizeOfCode code : ℚ) / unitsPerOne - num / den| ≤
      |(sizeOfCode other : ℚ) / unitsPerOne - num / den| := by
  rw [abs_div_sub, abs_div_sub]
  exact div_le_div_of_nonneg_right (h.nearest other) unitsPerOne_pos.le

theorem abs_sub_le_abs_value_sub (negative : Bool) (num den : ℕ) (y : Double) :
    |(sizeOfCode y.sizeCode : ℚ) / unitsPerOne - num / den| ≤
      |y.value - sign negative * (num / den)| := by
  have hratio : (0 : ℚ) ≤ num / den := div_nonneg num.cast_nonneg den.cast_nonneg
  have habs := abs_abs_sub_abs_le y.value (sign negative * (num / den : ℚ))
  rwa [abs_value, abs_mul, abs_sign, one_mul, abs_of_nonneg hratio] at habs

/-- **The double that is computed for a ratio is nearest to it**, if it is finite. -/
theorem isNearest_ofRatio (hden : 0 < den) (hfinite : (ofRatio negative num den).isFinite = true) :
    (ofRatio negative num den).IsNearest (sign negative * (num / den)) := by
  obtain ⟨code, hcode, hvalue, hnearest⟩ := sizeCode_ofRatio negative num hden
  have hmin : min infinityCode code = code := by
    have hlt := isFinite_iff.mp hfinite
    rw [hcode] at hlt
    omega
  rw [hmin] at hcode hvalue
  have hunit := unitsPerOne_pos
  have hself : |(ofRatio negative num den).value - sign negative * (num / den)| =
      |(sizeOfCode code : ℚ) / unitsPerOne - num / den| := by
    rw [hvalue, ← mul_sub, abs_mul, abs_sign, one_mul]
  have hother := abs_sub_le_abs_value_sub negative num den
  refine ⟨hfinite, fun y _ => ?_, fun y _ hne heq => ?_⟩
  · exact hself ▸ (hnearest.abs_sub_le y.sizeCode).trans (hother y)
  rw [hself] at heq
  by_cases hsame : y.sizeCode = code
  · -- the same size with the other sign: as near only if both are zero
    have hopposite : y.value = -(ofRatio negative num den).value := by
      refine (abs_eq_abs.mp ?_).resolve_left hne
      rw [abs_value, abs_value, hcode, hsame]
    have hratio : (0 : ℚ) ≤ num / den := div_nonneg num.cast_nonneg den.cast_nonneg
    have hzero : (sizeOfCode code : ℚ) / unitsPerOne = 0 := by
      refine eq_zero_of_opposite (div_nonneg (Nat.cast_nonneg _) hunit.le) hratio ?_
        (by rw [← hvalue, ← hopposite, heq])
      have hle := hnearest.abs_sub_le 0
      rwa [show sizeOfCode 0 = 0 from rfl, Nat.cast_zero, zero_div, zero_sub, abs_neg,
        abs_of_nonneg hratio] at hle
    rw [hopposite, hvalue, hzero, mul_zero, neg_zero] at hne
    exact absurd rfl hne
  · rw [hcode]
    refine hnearest.even y.sizeCode hsame ?_
    have hdist := (heq ▸ hother y).antisymm (hnearest.abs_sub_le y.sizeCode)
    rw [abs_div_sub, abs_div_sub] at hdist
    exact (div_left_inj' hunit.ne').mp hdist

theorem value_lt_of_ofRatio (hden : 0 < den)
    (hinfinite : (ofRatio negative num den).isFinite = false) {y : Double}
    (hy : y.isFinite = true) : |y.value| < num / den := by
  obtain ⟨code, hcode, -, hnearest⟩ := sizeCode_ofRatio negative num hden
  have hge : infinityCode ≤ code := by
    have hnot : ¬(ofRatio negative num den).sizeCode < infinityCode := fun hlt =>
      Bool.eq_false_iff.mp hinfinite (isFinite_iff.mpr hlt)
    rw [hcode] at hnot
    omega
  have hsize : (sizeOfCode y.sizeCode : ℚ) < sizeOfCode code :=
    Nat.cast_lt.mpr (sizeOfCode_strictMono ((isFinite_iff.mp hy).trans_le hge))
  have hbeyond : (sizeOfCode y.sizeCode : ℚ) < num * unitsPerOne / den := by
    by_contra hle
    have hle := not_lt.mp hle
    have hnear := hnearest.nearest y.sizeCode
    rw [abs_of_nonneg (sub_nonneg.mpr (hle.trans hsize.le)),
      abs_of_nonneg (sub_nonneg.mpr hle)] at hnear
    linarith
  rw [abs_value, div_lt_iff₀ unitsPerOne_pos, ← mul_div_right_comm]
  exact hbeyond

end Ratio

/-! ## There is only one nearest number -/

/-- The code of a double with its sign. -/
def signedCode (x : Double) : ℤ := if x.isNegative then -x.sizeCode else x.sizeCode

/-- The size that a signed code stands for, with its sign. -/
def signedSize (code : ℤ) : ℤ := code.sign * sizeOfCode code.natAbs

theorem signedSize_natCast (code : ℕ) : signedSize code = sizeOfCode code := by
  cases code with
  | zero => rfl
  | succ code => exact one_mul _

theorem signedSize_neg (code : ℤ) : signedSize (-code) = -signedSize code := by
  unfold signedSize
  rw [Int.sign_neg, Int.natAbs_neg, neg_mul]

theorem signedSize_lt_signedSize {m n : ℤ} : signedSize m < signedSize n ↔ m < n := by
  have hmono : StrictMono signedSize := by
    refine strictMono_int_of_lt_succ fun code => ?_
    cases code with
    | ofNat n =>
      have hlt := sizeOfCode_strictMono (Nat.lt_succ_self n)
      rw [Int.ofNat_eq_natCast, ← Nat.cast_succ, signedSize_natCast, signedSize_natCast]
      exact_mod_cast hlt
    | negSucc n =>
      have hlt := sizeOfCode_strictMono (Nat.lt_succ_self n)
      have hnext : Int.negSucc n + 1 = -(n : ℤ) := by omega
      rw [hnext, Int.negSucc_eq, ← Nat.cast_succ, signedSize_neg, signedSize_neg,
        signedSize_natCast, signedSize_natCast]
      exact neg_lt_neg (by exact_mod_cast hlt)
  exact hmono.lt_iff_lt

theorem value_eq_signedSize (x : Double) : x.value = signedSize x.signedCode / unitsPerOne := by
  unfold value signedCode sign
  rw [units_eq_sizeOfCode]
  split
  · rw [signedSize_neg, signedSize_natCast]
    push_cast
    ring
  · rw [signedSize_natCast, one_mul, Int.cast_natCast]

theorem value_lt_value {x y : Double} : x.value < y.value ↔ x.signedCode < y.signedCode := by
  rw [value_eq_signedSize, value_eq_signedSize, div_lt_div_iff_of_pos_right unitsPerOne_pos,
    Int.cast_lt, signedSize_lt_signedSize]

theorem natAbs_signedCode (x : Double) : x.signedCode.natAbs = x.sizeCode := by
  unfold signedCode
  split <;> omega

theorem exists_signedCode (code : ℤ) (h : code.natAbs < infinityCode) :
    ∃ x : Double, x.isFinite = true ∧ x.signedCode = code := by
  have hlt := h.trans infinityCode_lt
  refine ⟨ofSizeCode (decide (code < 0)) code.natAbs, ?_, ?_⟩
  · rw [isFinite_iff, sizeCode_ofSizeCode _ hlt]
    exact h
  · rw [signedCode, isNegative_ofSizeCode _ hlt, sizeCode_ofSizeCode _ hlt]
    split
    · next hneg =>
      have hlt := of_decide_eq_true hneg
      omega
    · next hneg =>
      have hle := of_decide_eq_false (Bool.eq_false_iff.mpr hneg)
      omega

/-- Between two doubles with even codes there is another one. -/
theorem exists_between {x y : Double} (hx : x.isFinite = true) (hy : y.isFinite = true)
    (hxeven : x.sizeCode % 2 = 0) (hyeven : y.sizeCode % 2 = 0) (h : x.value < y.value) :
    ∃ z : Double, z.isFinite = true ∧ x.value < z.value ∧ z.value < y.value := by
  rw [isFinite_iff, ← natAbs_signedCode] at hx hy
  rw [← natAbs_signedCode] at hxeven hyeven
  rw [value_lt_value] at h
  obtain ⟨z, hz, hcode⟩ := exists_signedCode (x.signedCode + 1) (by omega)
  exact ⟨z, hz, value_lt_value.mpr (by omega), value_lt_value.mpr (by omega)⟩

/-- **There is only one nearest number.**  If there were two, the number would be right between
them, and both codes even; but then there is a double between them, which is nearer. -/
theorem IsNearest.value_unique {number : ℚ} {x y : Double} (hx : x.IsNearest number)
    (hy : y.IsNearest number) : x.value = y.value := by
  by_contra hne
  wlog hlt : x.value < y.value generalizing x y
  · exact this hy hx (Ne.symm hne) (lt_of_le_of_ne (not_lt.mp hlt) (Ne.symm hne))
  have heq : |x.value - number| = |y.value - number| :=
    (hx.nearest y hy.finite).antisymm (hy.nearest x hx.finite)
  obtain ⟨z, hz, hxz, hzy⟩ := exists_between hx.finite hy.finite
    (hx.even y hy.finite (Ne.symm hne) heq.symm) (hy.even x hx.finite hne heq) hlt
  have hnear := hx.nearest z hz
  have hnear' := heq ▸ hnear
  rcases le_total number z.value with hle | hle
  · rw [abs_of_nonneg (sub_nonneg.mpr hle),
      abs_of_nonneg (sub_nonneg.mpr (hle.trans hzy.le))] at hnear'
    linarith
  · rw [abs_of_nonpos (sub_nonpos.mpr hle),
      abs_of_nonpos (sub_nonpos.mpr (hxz.le.trans hle))] at hnear
    linarith

theorem isNearest_value {x : Double} (hx : x.isFinite = true) : x.IsNearest x.value := by
  refine ⟨hx, fun y _ => ?_, fun y _ hne heq => ?_⟩
  · rw [sub_self, abs_zero]
    exact abs_nonneg _
  · rw [sub_self, abs_zero, abs_eq_zero, sub_eq_zero] at heq
    exact absurd heq hne

/-! ## Whole doubles -/

theorem value_of_units {x : Double} {n : ℕ} (h : x.units = n * unitsPerOne) :
    x.value = (if x.isNegative then -(n : ℤ) else n : ℤ) := by
  have hsize : (x.units : ℚ) / unitsPerOne = n := by
    rw [h, Nat.cast_mul, mul_div_cancel_right₀ _ unitsPerOne_pos.ne']
  rw [value, hsize, sign]
  split
  · rw [neg_one_mul, Int.cast_neg, Int.cast_natCast]
  · rw [one_mul, Int.cast_natCast]

/-- **A double is read as a whole number if and only if it is one.** -/
theorem toInt?_eq_some_iff {x : Double} {n : ℤ} :
    x.toInt? = some n ↔ x.isFinite = true ∧ x.value = n := by
  unfold toInt?
  constructor
  · intro h
    split at h
    · next hwhole =>
      obtain ⟨hfinite, hmod⟩ := Bool.and_eq_true_iff.mp hwhole
      have hdvd := Nat.dvd_of_mod_eq_zero (of_decide_eq_true hmod)
      cases h
      exact ⟨hfinite, value_of_units (Nat.div_mul_cancel hdvd).symm⟩
    · cases h
  · rintro ⟨hfinite, hvalue⟩
    have hunits : x.units = n.natAbs * unitsPerOne := by
      have habs := abs_value x
      rw [hvalue, ← Int.cast_abs, Int.abs_eq_natAbs, eq_div_iff unitsPerOne_pos.ne',
        Int.cast_natCast] at habs
      exact_mod_cast habs.symm
    have hpos : 0 < unitsPerOne := Nat.cast_pos.mp unitsPerOne_pos
    have hn := value_of_units hunits
    rw [hvalue, Int.cast_inj] at hn
    rw [hfinite, hunits, Nat.mul_mod_left, Nat.cast_mul,
      Int.mul_ediv_cancel _ (Int.natCast_ne_zero.mpr hpos.ne')]
    exact congrArg some hn.symm

/-! ## The double that is computed for a decimal numeral -/

theorem unitsPerOne_eq : unitsPerOne = 2 ^ 1074 := by decide +kernel

theorem two_pow_le_ten_pow {m n : ℕ} (h : m ≤ 3 * n) : 2 ^ m ≤ 10 ^ n := by
  calc 2 ^ m ≤ 2 ^ (3 * n) := Nat.pow_le_pow_right two_pos h
    _ = 8 ^ n := pow_mul 2 3 n
    _ ≤ 10 ^ n := Nat.pow_le_pow_left (by decide) n

theorem mul_two_pow_lt (n m : ℕ) : n * 2 ^ m < 2 ^ (n.log2 + 1 + m) := by
  rw [pow_add]
  exact Nat.mul_lt_mul_of_pos_right Nat.lt_log2_self (Nat.two_pow_pos m)

/-- What is at least as large as the next size beyond the finite ones is infinite. -/
theorem nearestCode_eq_infinityCode {num den : ℕ} (hden : 0 < den)
    (h : (sizeOfCode infinityCode : ℚ) ≤ num * unitsPerOne / den) :
    nearestCode num den = infinityCode := by
  obtain ⟨code, hcode, hnearest⟩ := exists_isNearestCode num hden
  rw [hcode, min_eq_left]
  by_contra hlt
  have hsize : (sizeOfCode code : ℚ) < sizeOfCode infinityCode :=
    Nat.cast_lt.mpr (sizeOfCode_strictMono (not_le.mp hlt))
  have hnear := hnearest.nearest infinityCode
  rw [abs_of_nonpos (sub_nonpos.mpr (hsize.le.trans h)), abs_of_nonpos (sub_nonpos.mpr h)] at hnear
  linarith

theorem nearestCode_eq_zero {num den : ℕ} (hden : 0 < den)
    (h : (num * unitsPerOne / den : ℚ) < 1 / 2) : nearestCode num den = 0 := by
  obtain ⟨code, hcode, hnearest⟩ := exists_isNearestCode num hden
  have hratio : (0 : ℚ) ≤ num * unitsPerOne / den :=
    div_nonneg (mul_nonneg num.cast_nonneg unitsPerOne_pos.le) den.cast_nonneg
  have hzero : code = 0 := by
    by_contra hne
    have hsize : (1 : ℚ) ≤ sizeOfCode code := by
      exact_mod_cast sizeOfCode_strictMono (Nat.pos_of_ne_zero hne)
    have hnear := hnearest.nearest 0
    rw [show sizeOfCode 0 = 0 from rfl, Nat.cast_zero, zero_sub, abs_neg, abs_of_nonneg hratio,
      abs_of_nonneg (by linarith)] at hnear
    linarith
  rw [hcode, hzero, min_eq_right (Nat.zero_le _)]

theorem sizeOfCode_infinityCode : sizeOfCode infinityCode = 2 ^ 2098 := by
  have hcode : infinityCode = 2046 * 2 ^ 52 + 2 ^ 52 := by decide +kernel
  rw [hcode, sizeOfCode_scaled (.inr le_rfl) (by decide), ← pow_add]

theorem nearestCode_of_large {digits n : ℕ} (hd : 0 < digits) (hn : 400 < n) :
    nearestCode (digits * 10 ^ n) 1 = infinityCode := by
  refine nearestCode_eq_infinityCode Nat.one_pos ?_
  have hten : 2 ^ 1024 ≤ 10 ^ n := two_pow_le_ten_pow (by omega)
  have hsize : sizeOfCode infinityCode ≤ digits * 10 ^ n * unitsPerOne := by
    calc sizeOfCode infinityCode = 2 ^ 1024 * 2 ^ 1074 := by
          rw [sizeOfCode_infinityCode, ← pow_add]
      _ ≤ digits * 10 ^ n * 2 ^ 1074 :=
          Nat.mul_le_mul_right _ (hten.trans (Nat.le_mul_of_pos_left _ hd))
      _ = digits * 10 ^ n * unitsPerOne := by rw [unitsPerOne_eq]
  rw [Nat.cast_one, div_one]
  exact_mod_cast hsize

theorem nearestCode_of_small {digits n : ℕ} (h : digits.log2 + 1076 ≤ 3 * n) :
    nearestCode digits (10 ^ n) = 0 := by
  have hden : 0 < 10 ^ n := Nat.pow_pos (by decide)
  refine nearestCode_eq_zero hden ?_
  have hsize : digits * unitsPerOne * 2 < 10 ^ n := by
    calc digits * unitsPerOne * 2 = digits * 2 ^ 1075 := by
          rw [unitsPerOne_eq, mul_assoc, ← pow_succ]
      _ < 2 ^ (digits.log2 + 1 + 1075) := mul_two_pow_lt digits 1075
      _ ≤ 10 ^ n := two_pow_le_ten_pow h
  rw [div_lt_div_iff₀ (Nat.cast_pos.mpr hden) two_pos, one_mul]
  exact_mod_cast hsize

/-- **The shortcuts for extreme exponents make no difference.** -/
theorem ofDecimal_eq_ofRatio (negative : Bool) (digits : ℕ) (exponent : ℤ) :
    ofDecimal negative digits exponent =
      ofRatio negative (digits * 10 ^ exponent.toNat) (10 ^ (-exponent).toNat) := by
  unfold ofDecimal
  by_cases hzero : digits = 0
  · subst hzero
    have hden : 0 < 10 ^ (-exponent).toNat := Nat.pow_pos (by decide)
    rw [if_pos rfl, zero_mul, ofRatio, nearestCode_eq_zero hden]
    rw [Nat.cast_zero, zero_mul, zero_div]
    exact one_half_pos
  rw [if_neg hzero]
  by_cases hlarge : 400 < exponent
  · have hnone : (-exponent).toNat = 0 := by omega
    rw [if_pos hlarge, hnone, pow_zero, ofRatio,
      nearestCode_of_large (Nat.pos_of_ne_zero hzero) (by omega)]
  rw [if_neg hlarge]
  by_cases hsmall : 3 * exponent + digits.log2 + 1 < -1100
  · have hnone : exponent.toNat = 0 := by omega
    rw [if_pos hsmall, hnone, pow_zero, mul_one, ofRatio, nearestCode_of_small (by omega)]
  rw [if_neg hsmall]
  by_cases hsign : 0 ≤ exponent
  · have hnone : (-exponent).toNat = 0 := by omega
    rw [if_pos hsign, hnone, pow_zero, Nat.pow_eq]
  · have hnone : exponent.toNat = 0 := by omega
    rw [if_neg hsign, hnone, pow_zero, mul_one, Nat.pow_eq]

section Decimal

variable {negative : Bool} {digits : ℕ} {exponent : ℤ}

theorem ratio_eq_decimal (digits : ℕ) (exponent : ℤ) :
    ((digits * 10 ^ exponent.toNat : ℕ) : ℚ) / (10 ^ (-exponent).toNat : ℕ) =
      digits * 10 ^ exponent := by
  rcases le_total 0 exponent with hsign | hsign
  · obtain ⟨n, rfl⟩ := Int.eq_ofNat_of_zero_le hsign
    rw [Int.toNat_neg_natCast, Int.toNat_natCast, zpow_natCast, pow_zero, Nat.cast_one, div_one]
    push_cast
    rfl
  · obtain ⟨n, hn⟩ := Int.eq_ofNat_of_zero_le (neg_nonneg.mpr hsign)
    obtain rfl : exponent = -(n : ℤ) := by omega
    rw [neg_neg, Int.toNat_neg_natCast, Int.toNat_natCast, zpow_neg, zpow_natCast, pow_zero,
      mul_one, div_eq_mul_inv]
    push_cast
    rfl

/-- **The double that is computed for a decimal numeral is nearest to it**, if it is finite. -/
theorem isNearest_ofDecimal (hfinite : (ofDecimal negative digits exponent).isFinite = true) :
    (ofDecimal negative digits exponent).IsNearest (sign negative * (digits * 10 ^ exponent)) := by
  rw [ofDecimal_eq_ofRatio] at hfinite ⊢
  rw [← ratio_eq_decimal]
  exact isNearest_ofRatio (Nat.pow_pos (by decide)) hfinite

theorem value_lt_of_ofDecimal (hinfinite : (ofDecimal negative digits exponent).isFinite = false)
    {y : Double} (hy : y.isFinite = true) : |y.value| < digits * 10 ^ exponent := by
  rw [ofDecimal_eq_ofRatio] at hinfinite
  rw [← ratio_eq_decimal]
  exact value_lt_of_ofRatio (Nat.pow_pos (by decide)) hinfinite hy

theorem exists_value_of_code (negative : Bool) (code size : ℕ) (hcode : code < infinityCode)
    (hsize : sizeOfCode code = size * unitsPerOne) :
    ∃ x : Double, x.isFinite = true ∧ x.value = sign negative * size := by
  have hlt := hcode.trans infinityCode_lt
  refine ⟨ofSizeCode negative code, ?_, ?_⟩
  · rw [isFinite_iff, sizeCode_ofSizeCode negative hlt]
    exact hcode
  · rw [value_ofSizeCode negative hlt, hsize, Nat.cast_mul,
      mul_div_cancel_right₀ _ unitsPerOne_pos.ne']

/-- Every whole number of at most 53 binary digits is that of a double, and so are its multiples by
powers of two, up to a limit. -/
theorem exists_value_scaled (negative : Bool) (n shift : ℕ) (hn : n < 2 ^ 53) (hs : shift ≤ 971) :
    ∃ x : Double, x.isFinite = true ∧ x.value = sign negative * (n * 2 ^ shift : ℕ) := by
  by_cases hzero : n = 0
  · subst hzero
    refine exists_value_of_code negative 0 _ (by decide +kernel) ?_
    rw [zero_mul, zero_mul]
    rfl
  · have hlog : n.log2 < 53 := (Nat.log2_lt hzero).mpr hn
    have hlower : 2 ^ 52 ≤ n * 2 ^ (52 - n.log2) := by
      calc 2 ^ 52 = 2 ^ n.log2 * 2 ^ (52 - n.log2) := by
            rw [← pow_add, Nat.add_sub_cancel' (by omega)]
        _ ≤ n * 2 ^ (52 - n.log2) := Nat.mul_le_mul_right _ (Nat.log2_self_le hzero)
    have hupper : n * 2 ^ (52 - n.log2) < 2 ^ 53 := by
      have hlt := mul_two_pow_lt n (52 - n.log2)
      rwa [show n.log2 + 1 + (52 - n.log2) = 53 by omega] at hlt
    have hinfinity : infinityCode = 2047 * 2 ^ 52 := by decide +kernel
    refine exists_value_of_code negative
      ((1022 + n.log2 + shift) * 2 ^ 52 + n * 2 ^ (52 - n.log2)) _ (by omega) ?_
    rw [sizeOfCode_scaled (.inr hlower) hupper.le, unitsPerOne_eq, mul_assoc, mul_assoc, ← pow_add,
      ← pow_add]
    congr 2
    omega

theorem exists_value_of_natAbs_le {n : ℤ} (h : n.natAbs ≤ 2 ^ 53) :
    ∃ x : Double, x.isFinite = true ∧ x.value = n := by
  have hsign : ∃ negative, (n : ℚ) = sign negative * n.natAbs := by
    rcases le_total 0 n with hpos | hneg
    · exact ⟨false, by rw [sign, if_neg Bool.false_ne_true, one_mul, Nat.cast_natAbs,
        abs_of_nonneg hpos]⟩
    · exact ⟨true, by rw [sign, if_pos rfl, Nat.cast_natAbs, abs_of_nonpos hneg]; push_cast; ring⟩
  obtain ⟨negative, hn⟩ := hsign
  rw [hn]
  rcases Nat.lt_or_ge n.natAbs (2 ^ 53) with hlt | hge
  · have hx := exists_value_scaled negative n.natAbs 0 hlt (by decide)
    rwa [pow_zero, mul_one] at hx
  · have hx := exists_value_scaled negative 1 53 (by decide) (by decide)
    rwa [one_mul, ← Nat.le_antisymm h hge] at hx

/-- **A whole number of 64 bits is read off a decimal numeral if and only if the nearest double is
that number.** -/
theorem toInt?_ofDecimal_eq_some_iff {n : ℤ} (hn : |n| < 2 ^ 64) :
    (ofDecimal negative digits exponent).toInt? = some n ↔
      ∃ x : Double, x.IsNearest (sign negative * (digits * 10 ^ exponent)) ∧ x.value = n := by
  rw [toInt?_eq_some_iff]
  constructor
  · rintro ⟨hfinite, hvalue⟩
    exact ⟨_, isNearest_ofDecimal hfinite, hvalue⟩
  · rintro ⟨x, hx, hvalue⟩
    cases hfinite : (ofDecimal negative digits exponent).isFinite with
    | true => exact ⟨rfl, (isNearest_ofDecimal hfinite).value_unique hx ▸ hvalue⟩
    | false =>
      -- no number of 64 bits is nearest to what is beyond all finite doubles
      obtain ⟨y, hy, hyvalue⟩ : ∃ y : Double, y.isFinite = true ∧
          y.value = sign negative * 2 ^ 64 := by
        have hy := exists_value_scaled negative 1 64 (by decide) (by decide)
        rwa [one_mul, Nat.cast_pow, Nat.cast_ofNat] at hy
      have hbeyond := value_lt_of_ofDecimal hfinite hy
      have hnear := hx.nearest y hy
      generalize (digits * 10 ^ exponent : ℚ) = ratio at hbeyond hnear
      rw [hyvalue, abs_mul, abs_sign, one_mul, abs_of_pos (by norm_num)] at hbeyond
      rw [hvalue, hyvalue, ← mul_sub, abs_mul, abs_sign, one_mul, abs_sub_comm (2 ^ 64 : ℚ),
        abs_of_pos (sub_pos.mpr hbeyond), abs_sub_comm] at hnear
      have hfar := abs_sub_abs_le_abs_sub (sign negative * ratio) n
      have hsize : |(n : ℚ)| < 2 ^ 64 := by exact_mod_cast hn
      rw [abs_mul, abs_sign, one_mul, abs_of_pos (by linarith)] at hfar
      linarith

end Decimal

end Double

end TypedRecords
