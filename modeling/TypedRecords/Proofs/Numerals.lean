import Mathlib.Data.Nat.Digits.Defs
import TypedRecords.Proofs.Nearest
import TypedRecords.Proofs.Precedence

/-!
# Numerals and what they are read as

A decimal numeral stands for a rational number.  A whole number without fraction and exponent is
read digit by digit; any other numeral goes through a double, which is the nearest one, but need not
be the number itself.

* `Numeral.Written`: a numeral as it is written, with its text and the number it stands for.
* `Numeral.Written.ofText?_text`: **a numeral is read with its sign, its digits and its exponent.**
* `Numeral.Written.Reads`: what a numeral is read as.  `Numeral.integral?_text`: so it is.
* `Numeral.Written.IsExact`: the number is read as it is.  `Numeral.Written.isExact_of_natAbs_le`:
  so are whole numbers up to `2 ^ 53`.
* `Numeral.integers_read`: **what a numeral is read as, when this is the number that is written, and
  what a property for integers stores.**
-/

namespace TypedRecords

namespace Numeral

/-! ## Numerals as they are written -/

/-- The sign in front of a number, if there is one. -/
inductive Sign where
  | none
  | plus
  | minus
  deriving DecidableEq, Repr

namespace Sign

def text : Sign → List Char
  | none => []
  | plus => ['+']
  | minus => ['-']

def isMinus : Sign → Bool
  | minus => true
  | _ => false

end Sign

/-- Digits as they are written. -/
def digitsText (digits : List (Fin 10)) : List Char :=
  digits.map fun d : Fin 10 => Nat.digitChar d

/-- The number that digits write, the first being the highest. -/
def number (digits : List (Fin 10)) : ℕ :=
  Nat.ofDigits 10 (digits.reverse.map Fin.val)

/-- The exponent of a numeral, with at least one digit. -/
structure Exponent where
  capital : Bool
  sign : Sign
  digits : List (Fin 10)
  nonempty : digits ≠ []

namespace Exponent

def text (exponent : Exponent) : List Char :=
  (if exponent.capital then 'E' else 'e') :: exponent.sign.text ++ digitsText exponent.digits

def value (exponent : Exponent) : ℤ :=
  if exponent.sign.isMinus then -number exponent.digits else number exponent.digits

end Exponent

/-- A decimal numeral as it is written: an optional sign, digits, an optional fraction and an
optional exponent, with at least one digit on one side of the point. -/
structure Written where
  sign : Sign
  whole : List (Fin 10)
  fraction : Option (List (Fin 10))
  exponent : Option Exponent
  nonempty : whole ≠ [] ∨ fraction.getD [] ≠ []

namespace Written

/-- The digits of the fraction, if there is one. -/
def fractionDigits (written : Written) : List (Fin 10) :=
  written.fraction.getD []

/-- The power of ten that the exponent stands for. -/
def power (written : Written) : ℤ :=
  written.exponent.elim 0 Exponent.value

def fractionText (written : Written) : List Char :=
  written.fraction.elim [] fun digits => '.' :: digitsText digits

def exponentText (written : Written) : List Char :=
  written.exponent.elim [] Exponent.text

/-- The text of a numeral. -/
def text (written : Written) : List Char :=
  written.sign.text ++ (digitsText written.whole ++ (written.fractionText ++ written.exponentText))

/-- The number that a numeral stands for. -/
def value (written : Written) : ℚ :=
  Double.sign written.sign.isMinus *
    ((number written.whole + number written.fractionDigits / 10 ^ written.fractionDigits.length) *
      10 ^ written.power)

/-- There are only digits, and perhaps a sign. -/
def IsPlain (written : Written) : Prop :=
  written.fraction = none ∧ written.exponent = none

/-- What a numeral is read as.  One without a fraction and an exponent is read as it is written, if
the number fits.  Any other is read as the nearest double, if this is a whole number that fits. -/
inductive Reads (written : Written) (n : Int64) : Prop
  | exact : written.IsPlain → written.value = n.toInt → Reads written n
  | rounded {x : Double} : (written.IsPlain → ∀ m : Int64, written.value ≠ m.toInt) →
      x.IsNearest written.value → x.value = n.toInt → Reads written n

end Written

/-! ## Reading the parts -/

theorem digitChar_spec (d : Fin 10) :
    (Nat.digitChar d).isDigit = true ∧ (Nat.digitChar d).toNat - '0'.toNat = d := by
  revert d
  decide

theorem isDigit_of_mem_digitsText {digits : List (Fin 10)} {c : Char}
    (h : c ∈ digitsText digits) : c.isDigit = true := by
  obtain ⟨d, -, rfl⟩ := List.mem_map.mp h
  exact (digitChar_spec d).1

theorem number_append (digits others : List (Fin 10)) :
    number (digits ++ others) = number digits * 10 ^ others.length + number others := by
  unfold number
  rw [List.reverse_append, List.map_append, Nat.ofDigits_append, List.length_map,
    List.length_reverse]
  ring

theorem number_singleton (d : Fin 10) : number [d] = d :=
  Nat.ofDigits_singleton

/-- Digits are read as the number that they write, with those before them in front. -/
theorem ofDigits_digitsText (start : ℕ) (digits : List (Fin 10)) :
    ofDigits start (digitsText digits) = start * 10 ^ digits.length + number digits := by
  induction digits generalizing start with
  | nil => exact (Nat.mul_one start).symm
  | cons d rest ih =>
    have hstep : ofDigits start (digitsText (d :: rest)) =
        ofDigits (10 * start + ((Nat.digitChar d).toNat - '0'.toNat)) (digitsText rest) := rfl
    have hnumber : number (d :: rest) = d * 10 ^ rest.length + number rest := by
      rw [← List.singleton_append, number_append, number_singleton]
    rw [hstep, ih, (digitChar_spec d).2, hnumber, List.length_cons]
    ring

theorem digitsText_append (digits others : List (Fin 10)) :
    digitsText (digits ++ others) = digitsText digits ++ digitsText others :=
  List.map_append

theorem isEmpty_digitsText {digits : List (Fin 10)} (h : digits ≠ []) :
    (digitsText digits).isEmpty = false := by
  cases digits with
  | nil => exact absurd rfl h
  | cons d rest => rfl

theorem natural?_digitsText {digits : List (Fin 10)} (h : digits ≠ []) :
    natural? (digitsText digits) = some (number digits) := by
  have hall : (digitsText digits).all Char.isDigit = true :=
    List.all_eq_true.mpr fun _ => isDigit_of_mem_digitsText
  have hvalue := ofDigits_digitsText 0 digits
  rw [zero_mul, zero_add] at hvalue
  unfold natural?
  rw [isEmpty_digitsText h, hall, hvalue]
  rfl

theorem splitSign_append (sign : Sign) {rest : List Char}
    (h : ∀ c ∈ rest.head?, c ≠ '-' ∧ c ≠ '+') :
    splitSign (sign.text ++ rest) = (sign.isMinus, rest) := by
  cases sign with
  | plus => rfl
  | minus => rfl
  | none =>
    cases rest with
    | nil => rfl
    | cons c rest =>
      obtain ⟨hminus, hplus⟩ := h c rfl
      show splitSign (c :: rest) = (false, c :: rest)
      unfold splitSign
      split
      · next heq => exact absurd (List.cons.inj heq).1 hminus
      · next heq => exact absurd (List.cons.inj heq).1 hplus
      · rfl

theorem not_sign_of_isDigit {c : Char} (h : c.isDigit = true) : c ≠ '-' ∧ c ≠ '+' := by
  constructor
  all_goals
    rintro rfl
    exact absurd h (by decide)

theorem whole?_signed (sign : Sign) {digits : List (Fin 10)} (h : digits ≠ []) :
    whole? (sign.text ++ digitsText digits) =
      some (if sign.isMinus then -(number digits : ℤ) else number digits) := by
  have hsplit : splitSign (sign.text ++ digitsText digits) = (sign.isMinus, digitsText digits) :=
    splitSign_append sign fun c hc =>
      not_sign_of_isDigit (isDigit_of_mem_digitsText (List.mem_of_mem_head? hc))
  unfold whole?
  rw [hsplit]
  dsimp only
  rw [natural?_digitsText h]
  rfl

/-- The digits after a point, if there is one, and what comes after them. -/
def splitFraction : List Char → List Char × List Char
  | '.' :: rest => (rest.takeWhile Char.isDigit, rest.dropWhile Char.isDigit)
  | rest => ([], rest)

theorem splitFraction_of_head {text : List Char} (h : ∀ c ∈ text.head?, c ≠ '.') :
    splitFraction text = ([], text) := by
  unfold splitFraction
  split
  · exact absurd rfl (h '.' rfl)
  · rfl

theorem ofText?_eq (text : List Char) : ofText? text = (do
    let (negative, body) := splitSign text
    let before := body.takeWhile Char.isDigit
    let (fraction, tail) := splitFraction (body.dropWhile Char.isDigit)
    guard (!before.isEmpty || !fraction.isEmpty)
    let exponent ← exponentPart? tail
    some ⟨negative, ofDigits 0 (before ++ fraction), exponent - fraction.length⟩) := rfl

theorem takeWhile_digitsText (digits : List (Fin 10)) {rest : List Char}
    (h : ∀ c ∈ rest.head?, c.isDigit = false) :
    (digitsText digits ++ rest).takeWhile Char.isDigit = digitsText digits ∧
      (digitsText digits ++ rest).dropWhile Char.isDigit = rest := by
  have hall : ∀ c ∈ digitsText digits, c.isDigit = true := fun _ => isDigit_of_mem_digitsText
  rw [List.takeWhile_append_of_pos hall, List.dropWhile_append_of_pos hall]
  cases rest with
  | nil => exact ⟨List.append_nil _, rfl⟩
  | cons c rest =>
    have hc := h c rfl
    rw [List.takeWhile_cons_of_neg (by simp [hc]), List.dropWhile_cons_of_neg (by simp [hc])]
    exact ⟨List.append_nil _, rfl⟩

theorem exponentPart?_text (exponent : Exponent) :
    exponentPart? exponent.text = some exponent.value := by
  have hmark : (if exponent.capital then 'E' else 'e') = 'e' ∨
      (if exponent.capital then 'E' else 'e') = 'E' := by
    cases exponent.capital
    · exact .inl rfl
    · exact .inr rfl
  show (if _ ∨ _ then whole? (exponent.sign.text ++ digitsText exponent.digits) else none) = _
  rw [if_pos hmark, whole?_signed exponent.sign exponent.nonempty]
  rfl

namespace Written

variable (written : Written)

theorem exponentPart?_exponentText : exponentPart? written.exponentText = some written.power := by
  unfold exponentText power
  cases written.exponent with
  | none => rfl
  | some exponent => exact exponentPart?_text exponent

theorem head_exponentText {c : Char} (h : c ∈ written.exponentText.head?) :
    c = 'e' ∨ c = 'E' := by
  unfold exponentText at h
  cases he : written.exponent with
  | none => rw [he] at h; cases h
  | some exponent =>
    rw [he] at h
    obtain rfl : (if exponent.capital then 'E' else 'e') = c := Option.some.inj h
    cases exponent.capital
    · exact .inl rfl
    · exact .inr rfl

theorem head_tail {c : Char} (h : c ∈ (written.fractionText ++ written.exponentText).head?) :
    c = '.' ∨ c = 'e' ∨ c = 'E' := by
  unfold fractionText at h
  cases hf : written.fraction with
  | none =>
    rw [hf] at h
    exact .inr (written.head_exponentText h)
  | some digits =>
    rw [hf] at h
    exact .inl (Option.some.inj h).symm

theorem isDigit_head_tail {c : Char}
    (h : c ∈ (written.fractionText ++ written.exponentText).head?) : c.isDigit = false := by
  rcases written.head_tail h with rfl | rfl | rfl <;> decide

theorem isDigit_head_exponentText {c : Char} (h : c ∈ written.exponentText.head?) :
    c.isDigit = false := by
  rcases written.head_exponentText h with rfl | rfl <;> decide

theorem splitSign_text : splitSign written.text = (written.sign.isMinus,
    digitsText written.whole ++ (written.fractionText ++ written.exponentText)) := by
  refine splitSign_append written.sign fun c hc => ?_
  cases hw : written.whole with
  | nil =>
    rw [hw] at hc
    rcases written.head_tail hc with rfl | rfl | rfl <;> decide
  | cons d rest =>
    rw [hw] at hc
    obtain rfl : Nat.digitChar d = c := Option.some.inj hc
    exact not_sign_of_isDigit (digitChar_spec d).1

theorem splitFraction_tail : splitFraction (written.fractionText ++ written.exponentText) =
    (digitsText written.fractionDigits, written.exponentText) := by
  unfold fractionText fractionDigits
  cases written.fraction with
  | none =>
    refine splitFraction_of_head fun c hc => ?_
    rcases written.head_exponentText hc with rfl | rfl <;> decide
  | some digits =>
    obtain ⟨hdigits, hrest⟩ :=
      takeWhile_digitsText digits fun c => written.isDigit_head_exponentText (c := c)
    exact Prod.ext hdigits hrest

/-- **A numeral is read with its sign, its digits and its exponent**, which is counted from the last
digit. -/
theorem ofText?_text : ofText? written.text =
    some ⟨written.sign.isMinus, number (written.whole ++ written.fractionDigits),
      written.power - written.fractionDigits.length⟩ := by
  obtain ⟨hbefore, hafter⟩ :=
    takeWhile_digitsText written.whole fun c => written.isDigit_head_tail (c := c)
  have hguard : (!(digitsText written.whole).isEmpty ||
      !(digitsText written.fractionDigits).isEmpty) = true := by
    rcases written.nonempty with h | h
    · rw [isEmpty_digitsText h]
      rfl
    · have hfraction : written.fractionDigits ≠ [] := h
      rw [isEmpty_digitsText hfraction, Bool.not_false, Bool.or_true]
  have hnumber := ofDigits_digitsText 0 (written.whole ++ written.fractionDigits)
  rw [zero_mul, zero_add, digitsText_append] at hnumber
  rw [ofText?_eq, splitSign_text]
  dsimp only
  rw [hbefore, hafter, splitFraction_tail, exponentPart?_exponentText]
  dsimp only
  rw [hguard, hnumber, digitsText, List.length_map]
  rfl

theorem value_eq : written.value = Double.sign written.sign.isMinus *
    ((number (written.whole ++ written.fractionDigits) : ℕ) *
      10 ^ (written.power - written.fractionDigits.length)) := by
  have hten : (10 : ℚ) ≠ 0 := by norm_num
  unfold value
  rw [number_append, zpow_sub₀ hten, zpow_natCast]
  push_cast
  field_simp

variable {written}

/-- **Without a fraction and an exponent, a numeral is read exactly.** -/
theorem whole?_text_of_isPlain (h : written.IsPlain) :
    ∃ n : ℤ, whole? written.text = some n ∧ written.value = n := by
  obtain ⟨hfraction, hexponent⟩ := h
  have hwhole : written.whole ≠ [] :=
    written.nonempty.resolve_right fun hne => hne (by rw [hfraction]; rfl)
  have htext : written.text = written.sign.text ++ digitsText written.whole := by
    unfold text fractionText exponentText
    rw [hfraction, hexponent]
    exact congrArg _ (List.append_nil _)
  refine ⟨_, htext ▸ whole?_signed written.sign hwhole, ?_⟩
  unfold value fractionDigits power Double.sign
  rw [hfraction, hexponent]
  cases written.sign.isMinus <;> simp [number]

theorem tail_ne_nil (h : ¬written.IsPlain) :
    written.fractionText ++ written.exponentText ≠ [] := by
  intro hnil
  obtain ⟨hfraction, hexponent⟩ := List.append_eq_nil_iff.mp hnil
  unfold fractionText at hfraction
  unfold exponentText at hexponent
  refine h ⟨?_, ?_⟩
  · cases hf : written.fraction with
    | none => rfl
    | some digits => rw [hf] at hfraction; cases hfraction
  · cases he : written.exponent with
    | none => rfl
    | some exponent => rw [he] at hexponent; cases hexponent

theorem whole?_text_of_not_isPlain (h : ¬written.IsPlain) : whole? written.text = none := by
  have hall : (digitsText written.whole ++
      (written.fractionText ++ written.exponentText)).all Char.isDigit = false := by
    obtain ⟨c, rest, htail⟩ := List.exists_cons_of_ne_nil (tail_ne_nil h)
    have hc := written.isDigit_head_tail (c := c) (by rw [htail]; rfl)
    rw [htail, List.all_append, List.all_cons, hc, Bool.false_and, Bool.and_false]
  unfold whole?
  rw [splitSign_text]
  dsimp only
  rw [natural?, hall, Bool.and_false]
  rfl

end Written

end Numeral

/-! ## Words of 64 bits -/

theorem fitsInt64_iff {n : ℤ} : fitsInt64 n = true ↔ -2 ^ 63 ≤ n ∧ n < 2 ^ 63 := by
  unfold fitsInt64
  simp

theorem int64?_eq_some_iff {n : ℤ} {m : Int64} : int64? n = some m ↔ m.toInt = n := by
  unfold int64?
  constructor
  · intro h
    split at h
    · next hfits =>
      obtain ⟨hlow, hhigh⟩ := fitsInt64_iff.mp hfits
      cases h
      exact Int64.toInt_ofInt_of_le hlow hhigh
    · cases h
  · rintro rfl
    rw [if_pos (fitsInt64_iff.mpr ⟨m.le_toInt, m.toInt_lt⟩), Int64.ofInt_toInt]

namespace Numeral

theorem Written.reads_iff_of_fits {written : Written} {m n : Int64} (hplain : written.IsPlain)
    (hm : written.value = m.toInt) : written.Reads n ↔ m = n := by
  constructor
  · intro h
    cases h with
    | exact _ hn => exact Int64.toInt_inj.mp (Int.cast_injective (hm.symm.trans hn))
    | rounded hnot => exact absurd hm (hnot hplain m)
  · rintro rfl
    exact .exact hplain hm

theorem Written.reads_iff_of_rounded {written : Written} {n : Int64}
    (hnot : written.IsPlain → ∀ m : Int64, written.value ≠ m.toInt) :
    written.Reads n ↔ ∃ x : Double, x.IsNearest written.value ∧ x.value = n.toInt := by
  constructor
  · intro h
    cases h with
    | exact hplain hn => exact absurd hn (hnot hplain n)
    | rounded _ hx hvalue => exact ⟨_, hx, hvalue⟩
  · rintro ⟨x, hx, hvalue⟩
    exact .rounded hnot hx hvalue

/-- A decimal numeral is read as the nearest double, if this is a whole number that fits. -/
theorem Written.toDouble_text (written : Written) (n : Int64) :
    (do let numeral ← ofText? written.text
        let m ← numeral.toDouble.toInt?
        int64? m) = some n ↔ ∃ x : Double, x.IsNearest written.value ∧ x.value = n.toInt := by
  have hn : |n.toInt| < 2 ^ 64 := by
    have hlow := n.le_toInt
    have hhigh := n.toInt_lt
    rw [abs_lt]
    omega
  rw [written.ofText?_text, written.value_eq, ← Double.toInt?_ofDecimal_eq_some_iff hn]
  change (Double.toInt? _).bind int64? = some n ↔ _
  rw [Option.bind_eq_some_iff]
  constructor
  · rintro ⟨m, hm, hfits⟩
    rw [int64?_eq_some_iff.mp hfits]
    exact hm
  · intro h
    exact ⟨_, h, int64?_eq_some_iff.mpr rfl⟩

/-- **What a numeral is read as**: a whole number without fraction and exponent that fits is read
exactly, and any other numeral as the nearest double. -/
theorem integral?_text {written : Written} {text : List Char} (h : Text.trim text = written.text)
    {n : Int64} : integral? text = some n ↔ written.Reads n := by
  unfold integral?
  dsimp only
  rw [h]
  by_cases hplain : written.IsPlain
  · obtain ⟨whole, hwhole, hvalue⟩ := Written.whole?_text_of_isPlain hplain
    rw [hwhole, Option.bind_some]
    cases hfits : int64? whole with
    | some m =>
      have hm : written.value = m.toInt := by rw [hvalue, int64?_eq_some_iff.mp hfits]
      rw [Written.reads_iff_of_fits hplain hm, Option.some.injEq]
    | none =>
      have hnot : ∀ m : Int64, written.value ≠ m.toInt := by
        intro m hm
        have hsome := int64?_eq_some_iff.mpr (Int.cast_injective (hm.symm.trans hvalue))
        rw [hfits] at hsome
        cases hsome
      rw [Written.reads_iff_of_rounded fun _ => hnot]
      exact written.toDouble_text n
  · rw [Written.whole?_text_of_not_isPlain hplain,
      Written.reads_iff_of_rounded fun h => absurd h hplain]
    exact written.toDouble_text n

namespace Written

/-- The number that the numeral stands for is read as it is: it is written as a whole number that
fits, or it is that of a double. -/
def IsExact (written : Written) : Prop :=
  (written.IsPlain ∧ ∃ m : Int64, written.value = m.toInt) ∨
    ∃ x : Double, x.isFinite = true ∧ x.value = written.value

variable {written : Written}

/-- Whole numbers up to a limit are read as they are, however they are written. -/
theorem isExact_of_natAbs_le {n : ℤ} (hn : n.natAbs ≤ 2 ^ 53) (h : written.value = n) :
    written.IsExact :=
  .inr (h ▸ Double.exists_value_of_natAbs_le hn)

theorem IsExact.reads_iff (h : written.IsExact) (n : Int64) :
    written.Reads n ↔ written.value = n.toInt := by
  rcases h with ⟨hplain, m, hm⟩ | ⟨x, hx, hvalue⟩
  · rw [reads_iff_of_fits hplain hm, hm, Int.cast_inj, Int64.toInt_inj]
  · have hnearest : x.IsNearest written.value := hvalue ▸ Double.isNearest_value hx
    constructor
    · intro hreads
      cases hreads with
      | exact _ hn => exact hn
      | rounded _ hy hyvalue => rw [← hvalue, hnearest.value_unique hy, hyvalue]
    · intro hn
      by_cases hfits : written.IsPlain ∧ ∃ m : Int64, written.value = m.toInt
      · exact .exact hfits.1 hn
      · exact .rounded (fun hplain m hm => hfits ⟨hplain, m, hm⟩) hnearest (hvalue.trans hn)

theorem isExact_of_reads {n : Int64} (h : written.Reads n) (hn : written.value = n.toInt) :
    written.IsExact := by
  cases h with
  | exact hplain _ => exact .inl ⟨hplain, n, hn⟩
  | rounded _ hx hvalue => exact .inr ⟨_, hx.finite, hvalue.trans hn.symm⟩

/-- What is read is the number that is written if and only if the numeral is exact, or there is
nothing to read either way. -/
theorem reads_iff_value_iff : (∀ n : Int64, written.Reads n ↔ written.value = n.toInt) ↔
    written.IsExact ∨ ∀ n : Int64, ¬written.Reads n ∧ written.value ≠ n.toInt := by
  constructor
  · intro h
    by_cases hexact : written.IsExact
    · exact .inl hexact
    · refine .inr fun n => ?_
      have hnot : ¬written.Reads n := fun hreads =>
        hexact (isExact_of_reads hreads ((h n).mp hreads))
      exact ⟨hnot, fun hn => hnot ((h n).mpr hn)⟩
  · rintro (hexact | hnone) n
    · exact hexact.reads_iff n
    · exact iff_of_false (hnone n).1 (hnone n).2

end Written

end Numeral

/-! ## Properties for integers -/

section Properties

variable {κ : Type}

theorem TypeName.holds_text (type : TypeName) (s : String) :
    type.holds (.text s : Value κ) = (type.isKeyword .mixed || type.isKeyword .string) := by
  cases type with
  | keyword k => cases k <;> rfl
  | named className => rfl

theorem UnionType.holds_text (union : UnionType) (s : String) :
    union.holds (.text s : Value κ) = (union.isMixed || union.isString) := by
  have hplain : union.plain.any (·.holds (.text s : Value κ)) =
      (union.isMixed || union.isString) := by
    unfold isMixed isString contains
    induction union.plain with
    | nil => rfl
    | cons type rest ih =>
      rw [List.any_cons, List.any_cons, List.any_cons, ih, TypeName.holds_text]
      ac_rfl
  unfold holds
  rw [hplain, Bool.or_false, ← Bool.or_assoc, Bool.or_self]

theorem UnionType.holds_int {union : UnionType} (h : union.isInt = true) (n : Int64) :
    union.holds (.int n : Value κ) = true := by
  obtain ⟨type, hmem, hkeyword⟩ := List.any_eq_true.mp h
  have hholds : type.holds (.int n : Value κ) = true := by
    cases type with
    | keyword k =>
      obtain rfl : k = .int := by simpa [TypeName.isKeyword, TypeName.keyword?] using hkeyword
      rfl
    | named className => cases hkeyword
  have hplain : union.plain.any (·.holds (.int n : Value κ)) = true :=
    List.any_eq_true.mpr ⟨type, hmem, hholds⟩
  unfold holds
  rw [hplain, Bool.or_true, Bool.true_or]

namespace Property

variable {bench : Workbench κ} {property : Property κ} {site : Site} {flags : Flags} {s : String}

/-- The property is one for integers that accepts no text, and no kept cast wants the text. -/
structure ReadsIntegers (bench : Workbench κ) (property : Property κ) (s : String) : Prop where
  isInt : property.union.isInt = true
  isString : property.union.isString = false
  isMixed : property.union.isMixed = false
  unclaimed : ∀ entry ∈ property.casts, entry.2.claims bench.casting (.text s) = false

/-- A text becomes the integer that it stands for, or it is refused. -/
theorem castValue_text (h : property.ReadsIntegers bench s) :
    (property.castValue bench site flags (.text s)).result =
      match Numeral.integral? s.toList with
      | some n => .ok (.int n)
      | none => .error (property.invalid (.text s)) := by
  have hread : property.readInteger? (.text s : Value κ) = Numeral.integral? s.toList := by
    unfold readInteger?
    rw [h.isInt, h.isString]
    rfl
  have hcoerce : property.coerce bench (site.child (.property property.name)) flags.withoutTransient
      (.text s) = pure ((property.readInteger? (.text s)).elim (.text s) .int) :=
    coerce_of_not_claims (fun items hlist => by cases hlist) h.unclaimed
  unfold castValue
  dsimp only
  rw [hcoerce, hread]
  cases Numeral.integral? s.toList with
  | some n =>
    have haccepts : property.accepts flags (.int n) = true := UnionType.holds_int h.isInt n
    show (if property.accepts flags (.int n) = true then _ else _ : Build κ (Value κ)).result = _
    rw [if_pos haccepts]
    rfl
  | none =>
    have haccepts : property.accepts flags (.text s) = false := by
      show property.union.holds (.text s) = false
      rw [UnionType.holds_text, h.isMixed, h.isString, Bool.or_self]
    show (if property.accepts flags (.text s) = true then _ else _ : Build κ (Value κ)).result = _
    rw [if_neg (by rw [haccepts]; exact Bool.false_ne_true)]
    rfl

end Property

/-- **How decimal numerals are read as integers.**  Blanks around it aside, a numeral is read as the
number that is written, if it has neither fraction nor exponent and fits, and as the nearest double
otherwise.  This is the number that is written if and only if the numeral is exact, or there is no
such number and nothing is read.  What is read is what a property for integers stores; if nothing
is, the property refuses the text. -/
theorem Numeral.integers_read (written : Numeral.Written) (s : String)
    (h : Text.trim s.toList = written.text) :
    (∀ n, Numeral.integral? s.toList = some n ↔ written.Reads n) ∧
    ((∀ n, Numeral.integral? s.toList = some n ↔ written.value = n.toInt) ↔
      written.IsExact ∨ ∀ n : Int64, ¬written.Reads n ∧ written.value ≠ n.toInt) ∧
    ∀ (bench : Workbench κ) (property : Property κ) (site : Site) (flags : Flags),
      property.ReadsIntegers bench s →
        (∀ w, (property.castValue bench site flags (.text s)).result = .ok w ↔
          ∃ n, w = .int n ∧ written.Reads n) ∧
        ((∀ n, ¬written.Reads n) → (property.castValue bench site flags (.text s)).result =
          .error (property.invalid (.text s))) := by
  have hread : ∀ n, Numeral.integral? s.toList = some n ↔ written.Reads n :=
    fun n => integral?_text h
  refine ⟨hread, ?_, fun bench property site flags hproperty => ?_⟩
  · rw [← Written.reads_iff_value_iff]
    exact forall_congr' fun n => by rw [hread]
  · rw [Property.castValue_text hproperty]
    simp only [← hread]
    cases Numeral.integral? s.toList with
    | some n =>
      refine ⟨fun w => ⟨fun hw => ?_, ?_⟩, fun hnone => absurd rfl (hnone n)⟩
      · cases hw
        exact ⟨n, rfl, rfl⟩
      · rintro ⟨m, rfl, hm⟩
        cases hm
        rfl
    | none => exact ⟨fun w => iff_of_false nofun nofun, fun _ => rfl⟩

end Properties

namespace Atlas

/-- The numeral `1.2e3`. -/
def twelveHundred : Numeral.Written where
  sign := .none
  whole := [1]
  fraction := some [2]
  exponent := some ⟨false, .none, [3], List.cons_ne_nil 3 []⟩
  nonempty := .inl (List.cons_ne_nil 1 [])

/-- The numeral `9007199254740993.0`. -/
def aboveLimit : Numeral.Written where
  sign := .none
  whole := [9, 0, 0, 7, 1, 9, 9, 2, 5, 4, 7, 4, 0, 9, 9, 3]
  fraction := some [0]
  exponent := none
  nonempty := .inl (List.cons_ne_nil 9 _)

/-- The number of people is given as a numeral with an exponent. -/
theorem people_counted : ∃ m property, engine.metadata "City" = .ok m ∧
    m.property? "people" = some property ∧ Numeral.integral? " 1.2e3 ".toList = some 1200 ∧
    (engine.castValue property (.text " 1.2e3 ") .none).1 = .ok (.int 1200) := by
  obtain ⟨m, property, hm, hproperty, hint, hstring, hmixed, hcasts⟩ : ∃ m property,
      engine.metadata "City" = .ok m ∧ m.property? "people" = some property ∧
        property.union.isInt = true ∧ property.union.isString = false ∧
        property.union.isMixed = false ∧ property.casts = [] :=
    ⟨_, _, rfl, rfl, rfl, rfl, rfl, rfl⟩
  have htext : Text.trim " 1.2e3 ".toList = twelveHundred.text := by decide +kernel
  have hvalue : twelveHundred.value = (1200 : ℤ) := by decide +kernel
  obtain ⟨hread, -, hproperties⟩ := Numeral.integers_read twelveHundred " 1.2e3 " htext (κ := Empty)
  have hreads : twelveHundred.Reads 1200 :=
    ((Numeral.Written.isExact_of_natAbs_le (by decide) hvalue).reads_iff 1200).mpr hvalue
  have hstored := (hproperties (Construction.outerBench engine.plan engine.calls) property
    ⟨0, engine.calls, []⟩ .none ⟨hint, hstring, hmixed, by rw [hcasts]; exact nofun⟩).1
  exact ⟨m, property, hm, hproperty, (hread 1200).mpr hreads, (hstored _).mpr ⟨1200, rfl, hreads⟩⟩

/-- Above the limit, a whole number is read as another one. -/
theorem aboveLimit_misread : Text.trim "9007199254740993.0".toList = aboveLimit.text ∧
    aboveLimit.value = (9007199254740993 : Int64).toInt ∧
    Numeral.integral? "9007199254740993.0".toList = some 9007199254740992 :=
  ⟨by decide +kernel, by decide +kernel, by decide +kernel⟩

end Atlas

end TypedRecords
