import Mathlib.Data.List.Basic
import Mathlib.Data.List.TakeWhile
import TypedRecords.Text.Basic

/-!
# Texts taken apart

A text is trimmed by taking off the longest runs of blanks at its two ends, and cut at a separator
into pieces without it.

* `Text.Trimmed`: no blank at either end.  `Text.exists_trim`, `Text.trimmed_trim`: trimming takes
  off blanks, and all of them.  `Text.trim_append`: what it leaves of a text with a trimmed part.
* `Text.pieces_eq_splitOn`: the pieces of a text are those of the library, so they put the text
  together again and none of them holds the separator.
* `Text.dropEnding?_eq_some_iff`: a text without its ending.
-/

namespace TypedRecords.Text

variable {text core front back : List Char}

/-! ## Trimming -/

/-- There is nothing but blanks in the text. -/
def Blank (text : List Char) : Prop := ∀ c ∈ text, isBlank c = true

/-- There is no blank at either end of the text. -/
structure Trimmed (text : List Char) : Prop where
  head : ∀ c ∈ text.head?, isBlank c = false
  last : ∀ c ∈ text.getLast?, isBlank c = false

theorem blank_nil : Blank [] := fun _ h => absurd h List.not_mem_nil

theorem Blank.append (hf : Blank front) (hb : Blank back) : Blank (front ++ back) := by
  intro c hc
  rcases List.mem_append.mp hc with hc | hc
  · exact hf c hc
  · exact hb c hc

theorem trimmed_of_forall (h : ∀ c ∈ text, isBlank c = false) : Trimmed text :=
  ⟨fun c hc => h c (List.mem_of_mem_head? hc), fun c hc => h c (List.mem_of_getLast? hc)⟩

theorem trimStart_of_head (h : ∀ c ∈ text.head?, isBlank c = false) : trimStart text = text := by
  cases text with
  | nil => rfl
  | cons c rest =>
    have hc : isBlank c = false := h c rfl
    simp [trimStart, hc]

/-- Trimming at the start does not go beyond a part that does not start with a blank. -/
theorem trimStart_append (h : ∀ c ∈ core.head?, isBlank c = false) :
    trimStart (front ++ core) = trimStart front ++ core := by
  have hcore : core.dropWhile isBlank = core := trimStart_of_head h
  unfold trimStart
  rw [List.dropWhile_append, hcore]
  split
  · next hempty => rw [List.isEmpty_iff.mp hempty, List.nil_append]
  · rfl

theorem trimStart_of_blank (h : Blank text) : trimStart text = [] := by
  have hall : (text ++ []).dropWhile isBlank = ([] : List Char).dropWhile isBlank :=
    List.dropWhile_append_of_pos h
  rwa [List.append_nil] at hall

theorem trimEnd_append_blank (hb : Blank back) (h : ∀ c ∈ core.getLast?, isBlank c = false) :
    trimEnd (core ++ back) = core := by
  have hblank : ∀ c ∈ back.reverse, isBlank c = true := fun c hc => hb c (List.mem_reverse.mp hc)
  have hcore : core.reverse.dropWhile isBlank = core.reverse :=
    trimStart_of_head (by rw [List.head?_reverse]; exact h)
  unfold trimEnd
  rw [List.reverse_append, List.dropWhile_append_of_pos hblank, hcore, List.reverse_reverse]

/-- **What trimming leaves of a text with a trimmed part**: the part, and what stands in front of it
trimmed at its start. -/
theorem trim_append (hne : core ≠ []) (hc : Trimmed core) (hb : Blank back) :
    trim (front ++ core ++ back) = trimStart front ++ core := by
  have hstart : trimStart (front ++ (core ++ back)) = trimStart front ++ (core ++ back) := by
    refine trimStart_append fun c hc' => ?_
    rw [List.head?_append_of_ne_nil core hne] at hc'
    exact hc.head c hc'
  have hlast : ∀ c ∈ (trimStart front ++ core).getLast?, isBlank c = false := by
    intro c hc'
    rw [List.getLast?_append_of_ne_nil _ hne] at hc'
    exact hc.last c hc'
  unfold trim
  rw [List.append_assoc, hstart, ← List.append_assoc, trimEnd_append_blank hb hlast]

theorem trim_of_blank (h : Blank text) : trim text = [] := by
  unfold trim
  rw [trimStart_of_blank h]
  rfl

/-- A trimmed part is what is left when blanks around it are taken off. -/
theorem trim_blank_append (hf : Blank front) (hc : Trimmed core) (hb : Blank back) :
    trim (front ++ core ++ back) = core := by
  by_cases hne : core = []
  · subst hne
    rw [List.append_nil]
    exact trim_of_blank (hf.append hb)
  · rw [trim_append hne hc hb, trimStart_of_blank hf, List.nil_append]

theorem trim_of_trimmed (h : Trimmed text) : trim text = text := by
  have htrim := trim_blank_append blank_nil h blank_nil
  rwa [List.nil_append, List.append_nil] at htrim

theorem exists_trimEnd (text : List Char) : ∃ back, Blank back ∧ text = trimEnd text ++ back := by
  refine ⟨(text.reverse.takeWhile isBlank).reverse, fun c hc => ?_, ?_⟩
  · exact List.mem_takeWhile_imp (List.mem_reverse.mp hc)
  · unfold trimEnd
    rw [← List.reverse_append, List.takeWhile_append_dropWhile, List.reverse_reverse]

theorem exists_trim (text : List Char) :
    ∃ front back, Blank front ∧ Blank back ∧ text = front ++ trim text ++ back := by
  obtain ⟨back, hback, hstart⟩ := exists_trimEnd (trimStart text)
  refine ⟨text.takeWhile isBlank, back, fun c hc => List.mem_takeWhile_imp hc, hback, ?_⟩
  have htext : text = text.takeWhile isBlank ++ trimStart text :=
    List.takeWhile_append_dropWhile.symm
  rw [List.append_assoc, trim, ← hstart]
  exact htext

theorem head?_trimStart (text : List Char) : ∀ c ∈ (trimStart text).head?, isBlank c = false := by
  intro c hc
  have hne : text.dropWhile isBlank ≠ [] := by
    intro hnil
    rw [trimStart, hnil] at hc
    cases hc
  have hsame : (text.dropWhile isBlank).head hne = c :=
    (List.head_eq_iff_head?_eq_some hne).mpr hc
  rw [← hsame]
  exact List.head_dropWhile_not isBlank hne

theorem trimmed_trim (text : List Char) : Trimmed (trim text) := by
  constructor
  · intro c hc
    obtain ⟨back, -, hstart⟩ := exists_trimEnd (trimStart text)
    have hhead := head?_trimStart text
    rw [hstart, List.head?_append, show (trimEnd (trimStart text)).head? = some c from hc] at hhead
    exact hhead c rfl
  · intro c hc
    unfold trim trimEnd at hc
    rw [List.getLast?_reverse] at hc
    exact head?_trimStart _ c hc

/-! ## Cutting -/

/-- The pieces of a text are those of the library. -/
theorem pieces_eq_splitOn (separator : Char) (text : List Char) :
    pieces separator text = text.splitOn separator := by
  rw [List.splitOn_eq_splitOnP]
  induction text with
  | nil => rfl
  | cons c rest ih =>
    rw [List.splitOnP_cons_eq_if_modifyHead, ← ih, pieces]
    by_cases hc : c = separator
    · rw [if_pos hc, if_pos (beq_iff_eq.mpr hc)]
    · rw [if_neg hc, if_neg (by simpa using hc)]
      cases hp : pieces separator rest with
      | nil => exact absurd hp (pieces_ne_nil separator rest)
      | cons piece others => rfl

theorem intercalate_pieces (separator : Char) (text : List Char) :
    [separator].intercalate (pieces separator text) = text := by
  rw [pieces_eq_splitOn]
  exact List.intercalate_splitOn separator

/-- Parts without the separator are the pieces of the text that is put together of them. -/
theorem pieces_intercalate {separator : Char} {parts : List (List Char)} (hne : parts ≠ [])
    (h : ∀ part ∈ parts, separator ∉ part) :
    pieces separator ([separator].intercalate parts) = parts := by
  rw [pieces_eq_splitOn]
  exact List.splitOn_intercalate separator h hne

/-- The pieces of texts with separators between them are the pieces of the single texts. -/
theorem pieces_joined {separator : Char} {texts : List (List Char)} (hne : texts ≠ []) :
    pieces separator ([separator].intercalate texts) = texts.flatMap (pieces separator) := by
  induction texts with
  | nil => exact absurd rfl hne
  | cons text rest ih =>
    cases rest with
    | nil => rw [List.intercalate_singleton, List.flatMap_singleton]
    | cons next more =>
      have hrest := ih (List.cons_ne_nil next more)
      rw [pieces_eq_splitOn] at hrest
      calc pieces separator ([separator].intercalate (text :: next :: more))
        _ = (text ++ separator :: [separator].intercalate (next :: more)).splitOn separator := by
          rw [pieces_eq_splitOn, List.intercalate_cons_cons, List.append_assoc,
            List.singleton_append]
        _ = text.splitOn separator ++
            ([separator].intercalate (next :: more)).splitOn separator := by
          rw [List.splitOn_append_cons_self]
        _ = (text :: next :: more).flatMap (pieces separator) := by
          rw [hrest, ← pieces_eq_splitOn]
          rfl

/-! ## Endings -/

theorem dropEnding?_eq_some_iff {ending stem : List Char} :
    dropEnding? ending text = some stem ↔ text = stem ++ ending := by
  unfold dropEnding?
  constructor
  · intro h
    split at h
    · next hsuffix =>
      cases h
      exact (List.suffix_iff_eq_append.mp hsuffix).symm
    · cases h
  · rintro rfl
    rw [if_pos (List.suffix_append stem ending)]
    simp

theorem dropEnding?_eq_none_iff {ending : List Char} :
    dropEnding? ending text = none ↔ ∀ stem, text ≠ stem ++ ending := by
  rw [Option.eq_none_iff_forall_ne_some]
  exact forall_congr' fun stem => not_congr dropEnding?_eq_some_iff

end TypedRecords.Text
