import TypedRecords.Proofs.Tables
import TypedRecords.Proofs.Texts
import TypedRecords.Typing.UnionType

/-!
# The grammar of union types

A type name is a keyword in any case, or identifiers between single backslashes with at most one
more backslash in front.  An alternative is a type name with an optional question mark in front and
any number of list marks behind, and with blanks around each part (`Alternative.WellFormed`).

Reading keeps to this, with one exception.  A list of lists is taken for a list of arrays as soon as
two list marks are seen at the end, and what stands in front of them is not looked at.

* `TypeName.parse_isOk_iff`: which texts are read as type names.
* `Alternative.parse_isOk_iff`: which texts are read as alternatives.
* `UnionType.parse_accepts_iff`: **declarations are read if and only if each of their alternatives
  is well-formed or ends in two list marks.**
-/

namespace TypedRecords

open Text

/-! ## Characters of names -/

namespace TypeName

/-- A letter of ASCII, or an underscore. -/
def IsLetter (c : Char) : Prop := 'a' ≤ c ∧ c ≤ 'z' ∨ 'A' ≤ c ∧ c ≤ 'Z' ∨ c = '_'

/-- A digit of ASCII. -/
def IsDigit (c : Char) : Prop := '0' ≤ c ∧ c ≤ '9'

instance (c : Char) : Decidable (IsLetter c) :=
  inferInstanceAs (Decidable ('a' ≤ c ∧ c ≤ 'z' ∨ 'A' ≤ c ∧ c ≤ 'Z' ∨ c = '_'))

instance (c : Char) : Decidable (IsDigit c) := inferInstanceAs (Decidable ('0' ≤ c ∧ c ≤ '9'))

/-- A letter, digit, underscore or backslash. -/
def IsNameChar (c : Char) : Prop := IsLetter c ∨ IsDigit c ∨ c = '\\'

variable {c : Char} {text : List Char}

theorem isLetter_iff : (c.isAlpha || c == '_') = true ↔ IsLetter c := by
  have hupper : c.isUpper = true ↔ 'A' ≤ c ∧ c ≤ 'Z' := decide_eq_true_iff
  have hlower : c.isLower = true ↔ 'a' ≤ c ∧ c ≤ 'z' := by
    show (decide _ && decide _) = true ↔ _
    rw [Bool.and_eq_true, decide_eq_true_eq, decide_eq_true_eq]
    exact Iff.rfl
  show (c.isUpper || c.isLower || c == '_') = true ↔ _
  rw [Bool.or_eq_true, Bool.or_eq_true, hupper, hlower, beq_iff_eq, or_assoc, or_left_comm]
  rfl

theorem isDigit_iff : c.isDigit = true ↔ IsDigit c := by
  simp only [Char.isDigit, IsDigit, Bool.and_eq_true, decide_eq_true_eq]
  exact Iff.rfl

theorem IsNameChar.bounds (h : IsNameChar c) :
    48 ≤ c.toNat ∧ c.toNat ≤ 57 ∨ 65 ≤ c.toNat ∧ c.toNat ≤ 90 ∨ c.toNat = 92 ∨ c.toNat = 95 ∨
      97 ≤ c.toNat ∧ c.toNat ≤ 122 := by
  have hle : ∀ a b : Char, a ≤ b → a.toNat ≤ b.toNat := fun _ _ h => h
  rcases h with (⟨hl, hu⟩ | ⟨hl, hu⟩ | rfl) | ⟨hl, hu⟩ | rfl
  · have hl := hle _ _ hl
    have hu := hle _ _ hu
    change 97 ≤ c.toNat at hl
    change c.toNat ≤ 122 at hu
    omega
  · have hl := hle _ _ hl
    have hu := hle _ _ hu
    change 65 ≤ c.toNat at hl
    change c.toNat ≤ 90 at hu
    omega
  · decide
  · have hl := hle _ _ hl
    have hu := hle _ _ hu
    change 48 ≤ c.toNat at hl
    change c.toNat ≤ 57 at hu
    omega
  · decide

theorem IsNameChar.not_isBlank (h : IsNameChar c) : isBlank c = false := by
  have hb := h.bounds
  by_contra hblank
  obtain ⟨range, hrange, hin⟩ := List.any_eq_true.mp (Bool.not_eq_false _ ▸ hblank)
  simp only [Bool.and_eq_true, decide_eq_true_eq] at hin
  simp only [blankRanges, List.mem_cons, List.not_mem_nil, or_false] at hrange
  rcases hrange with rfl | rfl | rfl | rfl | rfl | rfl | rfl | rfl | rfl | rfl <;> omega

theorem IsNameChar.ne_of_toNat (h : IsNameChar c) {d : Char} (hd : d.toNat < 48 ∨
    57 < d.toNat ∧ d.toNat < 65 ∨ d.toNat = 91 ∨ d.toNat = 93 ∨ 122 < d.toNat) : c ≠ d := by
  rintro rfl
  have hb := h.bounds
  omega

/-! ## Type names -/

/-- The text spells a keyword or one of its aliases, in any case. -/
def SpellsKeyword (text : List Char) : Prop :=
  ∃ entry ∈ Keyword.spellings, lower text = entry.1.toList

/-- A letter, followed by letters and digits. -/
inductive IsIdentifier : List Char → Prop
  | mk {c : Char} {rest : List Char} : IsLetter c → (∀ d ∈ rest, IsLetter d ∨ IsDigit d) →
      IsIdentifier (c :: rest)

/-- Identifiers between single backslashes, with at most one more in front. -/
inductive IsClassName : List Char → Prop
  | plain {segments : List (List Char)} : segments ≠ [] → (∀ s ∈ segments, IsIdentifier s) →
      IsClassName (['\\'].intercalate segments)
  | rooted {segments : List (List Char)} : segments ≠ [] → (∀ s ∈ segments, IsIdentifier s) →
      IsClassName ('\\' :: ['\\'].intercalate segments)

/-- A keyword or the name of a class. -/
def IsName (text : List Char) : Prop := SpellsKeyword text ∨ IsClassName text

theorem isSegment_iff : isSegment text = true ↔ IsIdentifier text := by
  cases text with
  | nil => exact iff_of_false Bool.false_ne_true nofun
  | cons c rest =>
    have hrest : ∀ d : Char, (d.isAlphanum || d == '_') = true ↔ IsLetter d ∨ IsDigit d := by
      intro d
      rw [← isLetter_iff, ← isDigit_iff, Char.isAlphanum]
      simp only [Bool.or_eq_true]
      tauto
    simp only [isSegment, Bool.and_eq_true, List.all_eq_true, isLetter_iff, hrest]
    constructor
    · rintro ⟨hc, h⟩
      exact .mk hc h
    · rintro ⟨hc, h⟩
      exact ⟨hc, h⟩

theorem IsIdentifier.isNameChar (h : IsIdentifier text) : ∀ c ∈ text, IsNameChar c := by
  obtain ⟨hc, hrest⟩ := h
  intro d hd
  rcases List.mem_cons.mp hd with rfl | hd
  · exact .inl hc
  · rcases hrest d hd with hd | hd
    · exact .inl hd
    · exact .inr (.inl hd)

theorem IsIdentifier.backslash_not_mem (h : IsIdentifier text) : '\\' ∉ text := by
  have hno : ¬(IsLetter '\\' ∨ IsDigit '\\') := by decide
  obtain ⟨hc, hrest⟩ := h
  intro hmem
  rcases List.mem_cons.mp hmem with rfl | hmem
  · exact hno (.inl hc)
  · exact hno (hrest _ hmem)

theorem SpellsKeyword.isNameChar (h : SpellsKeyword text) : ∀ c ∈ text, IsNameChar c := by
  obtain ⟨entry, hentry, hlower⟩ := h
  have hall : (Keyword.spellings.all fun entry =>
      entry.1.toList.all fun c => 'a' ≤ c ∧ c ≤ 'z') = true := by decide +kernel
  intro c hc
  have hmem : c.toLower ∈ entry.1.toList := hlower ▸ List.mem_map_of_mem hc
  have hletter : 'a' ≤ c.toLower ∧ c.toLower ≤ 'z' :=
    of_decide_eq_true (List.all_eq_true.mp (List.all_eq_true.mp hall entry hentry) _ hmem)
  refine .inl ?_
  by_cases hupper : c.val ≥ 'A'.val ∧ c.val ≤ 'Z'.val
  · exact .inr (.inl hupper)
  · have hsame : c.toLower = c := dif_neg hupper
    rw [hsame] at hletter
    exact .inl hletter

theorem SpellsKeyword.ne_nil (h : SpellsKeyword text) : text ≠ [] := by
  have hspelled : ∀ entry ∈ Keyword.spellings, entry.1.toList ≠ [] := by decide
  obtain ⟨entry, hentry, hlower⟩ := h
  rintro rfl
  exact hspelled entry hentry hlower.symm

theorem ofText?_isSome_iff : (Keyword.ofText? text).isSome = true ↔ SpellsKeyword text := by
  have hkeys := @Table.has_iff _ Keyword.spellings (String.ofList (lower text))
  refine hkeys.trans (List.mem_map.trans ?_)
  refine exists_congr fun entry => and_congr_right fun _ => ?_
  rw [← String.toList_inj, String.toList_ofList]
  exact eq_comm

theorem isNameChar_of_mem_intercalate {segments : List (List Char)}
    (h : ∀ s ∈ segments, IsIdentifier s) :
    ∀ c ∈ ['\\'].intercalate segments, IsNameChar c := by
  induction segments with
  | nil => intro c hc; cases hc
  | cons segment others ih =>
    have hsegment := (h segment List.mem_cons_self).isNameChar
    have hothers := ih fun s hs => h s (List.mem_cons_of_mem _ hs)
    cases others with
    | nil => rwa [List.intercalate_singleton]
    | cons next more =>
      rw [List.intercalate_cons_cons]
      intro c hc
      simp only [List.mem_append, List.mem_singleton] at hc
      rcases hc with (hc | rfl) | hc
      · exact hsegment c hc
      · exact .inr (.inr rfl)
      · exact hothers c hc

theorem exists_isLetter_intercalate {segments : List (List Char)} (hne : segments ≠ [])
    (h : ∀ s ∈ segments, IsIdentifier s) :
    ∃ c rest, ['\\'].intercalate segments = c :: rest ∧ IsLetter c := by
  obtain ⟨segment, others, rfl⟩ := List.exists_cons_of_ne_nil hne
  obtain ⟨hc, -⟩ := h segment List.mem_cons_self
  cases others with
  | nil => exact ⟨_, _, List.intercalate_singleton, hc⟩
  | cons next more => exact ⟨_, _, List.intercalate_cons_cons, hc⟩

theorem IsClassName.isNameChar (h : IsClassName text) : ∀ c ∈ text, IsNameChar c := by
  cases h with
  | plain _ h => exact isNameChar_of_mem_intercalate h
  | rooted _ h =>
    intro c hc
    rcases List.mem_cons.mp hc with rfl | hc
    · exact .inr (.inr rfl)
    · exact isNameChar_of_mem_intercalate h c hc

theorem IsClassName.ne_nil (h : IsClassName text) : text ≠ [] := by
  cases h with
  | plain hne h =>
    obtain ⟨c, rest, htext, -⟩ := exists_isLetter_intercalate hne h
    rw [htext]
    exact List.cons_ne_nil c rest
  | rooted _ _ => exact List.cons_ne_nil _ _

theorem IsName.isNameChar (h : IsName text) : ∀ c ∈ text, IsNameChar c :=
  h.elim SpellsKeyword.isNameChar IsClassName.isNameChar

theorem IsName.ne_nil (h : IsName text) : text ≠ [] :=
  h.elim SpellsKeyword.ne_nil IsClassName.ne_nil

theorem IsName.trimmed (h : IsName text) : Trimmed text :=
  trimmed_of_forall fun c hc => (h.isNameChar c hc).not_isBlank

theorem isQualified_iff : isQualified text = true ↔
    ∃ segments, segments ≠ [] ∧ (∀ s ∈ segments, IsIdentifier s) ∧
      text = ['\\'].intercalate segments := by
  simp only [isQualified, List.all_eq_true, isSegment_iff]
  constructor
  · intro h
    exact ⟨_, pieces_ne_nil _ _, h, (intercalate_pieces _ _).symm⟩
  · rintro ⟨segments, hne, h, rfl⟩
    rwa [pieces_intercalate hne fun s hs => (h s hs).backslash_not_mem]

/-- One backslash in front of a qualified name does no harm. -/
theorem isQualified_dropBackslash_iff :
    isQualified (dropBackslash text) = true ↔ IsClassName text := by
  rw [isQualified_iff]
  constructor
  · rintro ⟨segments, hne, h, htext⟩
    unfold dropBackslash at htext
    split at htext
    · exact htext ▸ .rooted hne h
    · exact htext ▸ .plain hne h
  · intro h
    cases h with
    | @plain segments hne h =>
      obtain ⟨c, rest, htext, hc⟩ := exists_isLetter_intercalate hne h
      refine ⟨segments, hne, h, ?_⟩
      rw [htext]
      unfold dropBackslash
      split
      · next heq =>
        obtain rfl : c = '\\' := (List.cons.inj heq).1
        exact absurd hc (by decide)
      · rfl
    | @rooted segments hne h => exact ⟨segments, hne, h, rfl⟩

/-- **Which texts are read as type names.** -/
theorem parse_isOk_iff : (∃ name, parse text = .ok name) ↔ IsName (trim text) := by
  have hkeyword := @ofText?_isSome_iff (trim text)
  have hclass := @isQualified_dropBackslash_iff (trim text)
  simp only [parse]
  cases hk : Keyword.ofText? (trim text) with
  | some k => exact iff_of_true ⟨_, rfl⟩ (.inl (hkeyword.mp (hk ▸ rfl)))
  | none =>
    have hnot : ¬SpellsKeyword (trim text) := by
      rw [← hkeyword, hk]
      exact Bool.false_ne_true
    by_cases hq : isQualified (dropBackslash (trim text)) = true
    · simp only [if_pos hq]
      exact iff_of_true ⟨_, rfl⟩ (.inr (hclass.mp hq))
    · simp only [if_neg hq]
      refine iff_of_false nofun ?_
      rintro (h | h)
      · exact hnot h
      · exact hq (hclass.mpr h)

end TypeName

/-! ## Alternatives -/

namespace Alternative

open TypedRecords.TypeName (IsName)

variable {text rest front back : List Char}

/-- A question mark with blanks behind it, or nothing. -/
inductive IsOptionalMark : List Char → Prop
  | none : IsOptionalMark []
  | some {blanks : List Char} : Blank blanks → IsOptionalMark ('?' :: blanks)

/-- Any number of list marks, each with blanks in front. -/
inductive IsListMarks : List Char → Prop
  | nil : IsListMarks []
  | snoc {marks blanks : List Char} : IsListMarks marks → Blank blanks →
      IsListMarks (marks ++ blanks ++ listMark)

/-- A type name, optionally with a question mark in front and list marks behind, and with blanks
around each of them. -/
inductive WellFormed : List Char → Prop
  | mk {front mark name marks back : List Char} : Blank front → IsOptionalMark mark → IsName name →
      IsListMarks marks → Blank back → WellFormed (front ++ mark ++ (name ++ marks) ++ back)

/-- There are two list marks at the end, blanks aside. -/
def EndsInLists (text : List Char) : Prop :=
  ∃ stem between back, Blank between ∧ Blank back ∧
    text = stem ++ (listMark ++ between ++ listMark) ++ back

/-- What is accepted behind the question mark. -/
def Reads (rest : List Char) : Prop :=
  IsName rest ∨ ∃ element, rest = element ++ listMark ∧
    (IsName (trim element) ∨ ∃ stem, trim element = stem ++ listMark)

theorem trimmed_listMark : Trimmed listMark := by
  refine trimmed_of_forall fun c hc => ?_
  rcases List.mem_pair.mp hc with rfl | rfl <;> decide

theorem IsListMarks.trimmed {name marks : List Char} (hm : IsListMarks marks) (hn : IsName name) :
    Trimmed (name ++ marks) := by
  cases hm with
  | nil => rw [List.append_nil]; exact hn.trimmed
  | @snoc marks blanks hm hb =>
    obtain ⟨c, rest, rfl⟩ := List.exists_cons_of_ne_nil hn.ne_nil
    refine ⟨hn.trimmed.head, fun d hd => ?_⟩
    rw [← List.append_assoc, List.getLast?_append_of_ne_nil _ (by decide)] at hd
    exact trimmed_listMark.last d hd

theorem not_isName_listMark (element : List Char) : ¬IsName (element ++ listMark) := by
  intro h
  have hmem : ']' ∈ element ++ listMark := List.mem_append_right _ (by decide)
  exact (h.isNameChar _ hmem).ne_of_toNat (by decide) rfl

theorem parseElement_isOk_iff (declaration : String) {element : List Char}
    (ht : Trimmed element) :
    (∃ base, parseElement declaration element = .ok base) ↔
      IsName element ∨ ∃ stem, element = stem ++ listMark := by
  have hname := @TypeName.parse_isOk_iff element
  rw [trim_of_trimmed ht] at hname
  unfold parseElement
  by_cases hnil : element = []
  · subst hnil
    refine iff_of_false nofun ?_
    rintro (h | ⟨stem, h⟩)
    · exact h.ne_nil rfl
    · exact absurd (congrArg List.length h) (by simp [listMark])
  · rw [if_neg (by simpa using hnil)]
    cases hending : dropEnding? listMark element with
    | some stem => exact iff_of_true ⟨_, rfl⟩ (.inr ⟨stem, dropEnding?_eq_some_iff.mp hending⟩)
    | none =>
      refine hname.trans (or_iff_left ?_).symm
      rintro ⟨stem, h⟩
      exact dropEnding?_eq_none_iff.mp hending stem h

/-- What stands behind the question mark is trimmed, and what was taken off around it are blanks. -/
theorem exists_rest (text : List Char) : Trimmed (splitOptional (trim text)).2 ∧
    ∃ front mark back, Blank front ∧ IsOptionalMark mark ∧ Blank back ∧
      text = front ++ mark ++ (splitOptional (trim text)).2 ++ back := by
  obtain ⟨front, back, hf, hb, htext⟩ := exists_trim text
  have htrimmed := trimmed_trim text
  unfold splitOptional
  split
  · next rest heq =>
    obtain ⟨front', back', hf', hb', hrest⟩ := exists_trim rest
    have ht := trimmed_trim rest
    refine ⟨ht, front, '?' :: front', back' ++ back, hf, .some hf', hb'.append hb, ?_⟩
    rw [heq, hrest] at htext
    simpa only [List.append_assoc, List.cons_append, trim_of_trimmed ht] using htext
  · exact ⟨htrimmed, front, [], back, hf, .none, hb, by rwa [List.append_nil]⟩

/-- Reading an alternative is reading what stands behind the question mark. -/
theorem parse_isOk_iff_reads {declaration : String} :
    (∃ alternative, parse declaration text = .ok alternative) ↔
      Reads (splitOptional (trim text)).2 := by
  have htrimmed := (exists_rest text).1
  unfold parse
  generalize splitOptional (trim text) = split at htrimmed
  obtain ⟨optional, rest⟩ := split
  have hname := @TypeName.parse_isOk_iff rest
  rw [trim_of_trimmed htrimmed] at hname
  by_cases hnil : rest = []
  · subst hnil
    refine iff_of_false nofun ?_
    rintro (h | ⟨element, h, -⟩)
    · exact h.ne_nil rfl
    · exact absurd (congrArg List.length h) (by simp [listMark])
  · simp only [if_neg (show ¬rest.isEmpty = true by simpa using hnil)]
    cases hending : dropEnding? listMark rest with
    | some element =>
      obtain rfl := dropEnding?_eq_some_iff.mp hending
      have helement := parseElement_isOk_iff declaration (trimmed_trim element)
      have hreads : Reads (element ++ listMark) ↔
          IsName (trim element) ∨ ∃ stem, trim element = stem ++ listMark := by
        refine (or_iff_right (not_isName_listMark element)).trans ⟨?_, fun h => ⟨element, rfl, h⟩⟩
        rintro ⟨element', heq, h⟩
        rwa [List.append_cancel_right heq]
      rw [hreads, ← helement]
      constructor
      · rintro ⟨alternative, h⟩
        obtain ⟨base, hbase, -⟩ := except_bind_eq_ok.mp h
        exact ⟨base, hbase⟩
      · rintro ⟨base, hbase⟩
        exact ⟨_, except_bind_eq_ok.mpr ⟨base, hbase, rfl⟩⟩
    | none =>
      have hreads : Reads rest ↔ IsName rest := by
        refine or_iff_left ?_
        rintro ⟨element, h, -⟩
        exact dropEnding?_eq_none_iff.mp hending element h
      rw [hreads, ← hname]
      constructor
      · rintro ⟨alternative, h⟩
        obtain ⟨base, hbase, -⟩ := except_bind_eq_ok.mp h
        exact ⟨base, hbase⟩
      · rintro ⟨base, hbase⟩
        exact ⟨_, except_bind_eq_ok.mpr ⟨base, hbase, rfl⟩⟩

/-- Blanks behind a question mark belong to it, and blanks behind none to those in front. -/
theorem IsOptionalMark.append {mark blanks : List Char} (hm : IsOptionalMark mark)
    (hf : Blank front) (hb : Blank blanks) :
    ∃ front' mark', Blank front' ∧ IsOptionalMark mark' ∧
      front ++ mark ++ blanks = front' ++ mark' := by
  cases hm with
  | none => exact ⟨front ++ blanks, [], hf.append hb, .none, by simp⟩
  | @some between h => exact ⟨front, '?' :: (between ++ blanks), hf, .some (h.append hb), by simp⟩

/-- What is accepted is well-formed or ends in two list marks. -/
theorem wellFormed_or_of_reads (h : Reads (splitOptional (trim text)).2) :
    WellFormed text ∨ EndsInLists text := by
  obtain ⟨-, front, mark, back, hf, hm, hb, htext⟩ := exists_rest text
  rcases h with h | ⟨element, hrest, h⟩
  · refine .inl ?_
    have hwell := WellFormed.mk hf hm h .nil hb
    rwa [List.append_nil, ← htext] at hwell
  obtain ⟨front', between, hf', hbetween, helement⟩ := exists_trim element
  rcases h with h | ⟨stem, hstem⟩
  · refine .inl ?_
    obtain ⟨front'', mark', hf'', hm', hfront⟩ := hm.append hf hf'
    have hwell := WellFormed.mk hf'' hm' h (.snoc .nil hbetween) hb
    have heq :
        text = front'' ++ mark' ++ (trim element ++ ([] ++ between ++ listMark)) ++ back := by
      calc text
        _ = front ++ mark ++ (front' ++ trim element ++ between ++ listMark) ++ back := by
          rw [← helement, ← hrest, ← htext]
        _ = front ++ mark ++ front' ++ (trim element ++ ([] ++ between ++ listMark)) ++ back := by
          simp only [List.append_assoc, List.nil_append]
        _ = _ := by rw [hfront]
    exact heq ▸ hwell
  · refine .inr ⟨front ++ mark ++ front' ++ stem, between, back, hbetween, hb, ?_⟩
    rw [hstem] at helement
    rw [htext, hrest, helement]
    simp only [List.append_assoc]

theorem rest_of {mark core : List Char} (hf : Blank front) (hm : IsOptionalMark mark)
    (hb : Blank back) (hne : core ≠ []) (hc : Trimmed core) (hq : core.head? ≠ some '?') :
    (splitOptional (trim (front ++ mark ++ core ++ back))).2 = core := by
  cases hm with
  | none =>
    rw [List.append_nil, trim_blank_append hf hc hb]
    unfold splitOptional
    split
    · exact absurd rfl hq
    · rfl
  | @some blanks hblanks =>
    have hmark : Trimmed ('?' :: blanks ++ core) := by
      refine ⟨fun c hc' => ?_, fun c hc' => ?_⟩
      · cases hc'
        decide
      · rw [List.getLast?_append_of_ne_nil _ hne] at hc'
        exact hc.last c hc'
    rw [List.append_assoc front, trim_blank_append hf hmark hb]
    have hcore := trim_blank_append hblanks hc blank_nil
    rwa [List.append_nil] at hcore

theorem WellFormed.reads (h : WellFormed text) : Reads (splitOptional (trim text)).2 := by
  obtain ⟨hf, hmark, hn, hm, hb⟩ := h
  rename_i front mark name marks back
  have hne : name ++ marks ≠ [] := List.append_ne_nil_of_left_ne_nil hn.ne_nil _
  have hq : (name ++ marks).head? ≠ some '?' := by
    rw [List.head?_append_of_ne_nil _ hn.ne_nil]
    intro hhead
    exact (hn.isNameChar _ (List.mem_of_mem_head? hhead)).ne_of_toNat (by decide) rfl
  rw [rest_of hf hmark hb hne (hm.trimmed hn) hq]
  cases hm with
  | nil => exact .inl (by rwa [List.append_nil])
  | @snoc marks blanks hm hblanks =>
    refine .inr ⟨name ++ marks ++ blanks, by simp only [List.append_assoc], ?_⟩
    have htrim := trim_blank_append blank_nil (hm.trimmed hn) hblanks
    rw [List.nil_append] at htrim
    rw [htrim]
    cases hm with
    | nil => exact .inl (by rwa [List.append_nil])
    | @snoc marks blanks _ _ =>
      exact .inr ⟨name ++ (marks ++ blanks), by simp only [List.append_assoc]⟩

theorem EndsInLists.reads (h : EndsInLists text) : Reads (splitOptional (trim text)).2 := by
  obtain ⟨stem, between, back, hbetween, hb, rfl⟩ := h
  have htail : Trimmed (listMark ++ between ++ listMark) :=
    ⟨fun c hc => trimmed_listMark.head c hc, fun c hc => by
      rw [List.getLast?_append_of_ne_nil _ (by decide)] at hc
      exact trimmed_listMark.last c hc⟩
  have hne : listMark ++ between ++ listMark ≠ [] := List.cons_ne_nil _ _
  have hrest : ∃ front,
      (splitOptional (trim (stem ++ (listMark ++ between ++ listMark) ++ back))).2 =
        front ++ (listMark ++ between ++ listMark) := by
    rw [trim_append hne htail hb]
    cases trimStart stem with
    | nil => exact ⟨[], rfl⟩
    | cons c front =>
      by_cases hc : c = '?'
      · subst hc
        have htrim : trim (front ++ (listMark ++ between ++ listMark) ++ []) =
            trimStart front ++ (listMark ++ between ++ listMark) :=
          trim_append hne htail blank_nil
        rw [List.append_nil] at htrim
        exact ⟨_, htrim⟩
      · refine ⟨c :: front, ?_⟩
        unfold splitOptional
        split
        · next heq => exact absurd (List.cons.inj heq).1 hc
        · rfl
  obtain ⟨front, hfront⟩ := hrest
  rw [hfront]
  refine .inr ⟨front ++ listMark ++ between, by simp only [List.append_assoc], .inr ?_⟩
  exact ⟨trimStart front, trim_append (by decide) trimmed_listMark hbetween⟩

/-- **Which texts are read as alternatives.** -/
theorem parse_isOk_iff {declaration : String} :
    (∃ alternative, parse declaration text = .ok alternative) ↔
      WellFormed text ∨ EndsInLists text :=
  parse_isOk_iff_reads.trans
    ⟨wellFormed_or_of_reads, fun h => h.elim WellFormed.reads EndsInLists.reads⟩

theorem IsListMarks.mem {marks : List Char} (h : IsListMarks marks) :
    ∀ c ∈ marks, isBlank c = true ∨ c ∈ listMark := by
  induction h with
  | nil => intro c hc; cases hc
  | snoc _ hb ih =>
    intro c hc
    simp only [List.mem_append] at hc
    rcases hc with (hc | hc) | hc
    · exact ih c hc
    · exact .inl (hb c hc)
    · exact .inr hc

theorem WellFormed.mem (h : WellFormed text) :
    ∀ c ∈ text, isBlank c = true ∨ c = '?' ∨ TypeName.IsNameChar c ∨ c ∈ listMark := by
  obtain ⟨hf, hmark, hn, hm, hb⟩ := h
  intro c hc
  simp only [List.mem_append] at hc
  rcases hc with ((hc | hc) | hc | hc) | hc
  · exact .inl (hf c hc)
  · cases hmark with
    | none => cases hc
    | some hblanks =>
      rcases List.mem_cons.mp hc with rfl | hc
      · exact .inr (.inl rfl)
      · exact .inl (hblanks c hc)
  · exact .inr (.inr (.inl (hn.isNameChar c hc)))
  · rcases hm.mem c hc with hc | hc
    · exact .inl hc
    · exact .inr (.inr (.inr hc))
  · exact .inl (hb c hc)

end Alternative

/-! ## Types that are read -/

section Read

variable {P : TypeName → Prop} {union : UnionType} (hkeyword : ∀ k, P (.keyword k))

include hkeyword

/-- The type in an alternative is a keyword or is read as a name. -/
theorem Alternative.base_of_parse (hname : ∀ text type, TypeName.parse text = .ok type → P type)
    {declaration : String} {text : List Char} {alternative : Alternative}
    (h : parse declaration text = .ok alternative) : P alternative.base := by
  unfold parse at h
  dsimp only at h
  split at h
  · cases h
  split at h
  · obtain ⟨base, hb, h⟩ := except_bind_eq_ok.mp h
    cases h
    unfold parseElement at hb
    split at hb
    · cases hb
    · split at hb
      · cases hb
        exact hkeyword _
      · exact hname _ _ hb
  · obtain ⟨base, hb, h⟩ := except_bind_eq_ok.mp h
    cases h
    exact hname _ _ hb

namespace UnionType

theorem forall_add (hu : ∀ type ∈ union.plain ++ union.elements, P type)
    {alternative : Alternative} (ha : P alternative.base) :
    ∀ type ∈ (union.add alternative).plain ++ (union.add alternative).elements, P type := by
  have hplain : ∀ type ∈ (if alternative.optional then addNew union.plain (.keyword .null)
      else union.plain), P type := by
    intro type ht
    split at ht
    · rcases mem_addNew ht with ht | rfl
      · exact hu type (List.mem_append_left _ ht)
      · exact hkeyword _
    · exact hu type (List.mem_append_left _ ht)
  intro type ht
  unfold add at ht
  dsimp only at ht
  split at ht
  · rcases List.mem_append.mp ht with ht | ht
    · exact hplain type ht
    · rcases mem_addNew ht with ht | rfl
      · exact hu type (List.mem_append_right _ ht)
      · exact ha
  · rcases List.mem_append.mp ht with ht | ht
    · rcases mem_addNew ht with ht | rfl
      · exact hplain type ht
      · exact ha
    · exact hu type (List.mem_append_right _ ht)

theorem forall_foldl_add {alternatives : List Alternative}
    (hu : ∀ type ∈ union.plain ++ union.elements, P type)
    (ha : ∀ alternative ∈ alternatives, P alternative.base) :
    ∀ type ∈ (alternatives.foldl add union).plain ++ (alternatives.foldl add union).elements,
      P type := by
  induction alternatives generalizing union with
  | nil => exact hu
  | cons first rest ih =>
    exact ih (forall_add hkeyword hu (ha first List.mem_cons_self)) fun alternative hr =>
      ha alternative (List.mem_cons_of_mem _ hr)

/-- **What holds of keywords and of all names that are read** holds of the types in a union that is
read. -/
theorem forall_of_parse (hname : ∀ text type, TypeName.parse text = .ok type → P type)
    {declarations : List String} (h : parse declarations = .ok union) :
    ∀ type ∈ union.plain ++ union.elements, P type := by
  obtain ⟨read, hr, h⟩ := except_bind_eq_ok.mp h
  cases h
  split
  · intro type ht
    rw [List.mem_singleton.mp ht]
    exact hkeyword _
  · refine forall_foldl_add hkeyword (fun type ht => by cases ht) fun alternative ha => ?_
    obtain ⟨entry, -, ht⟩ := forall₂_mem_right (mapM_eq_ok_iff.mp hr) ha
    exact Alternative.base_of_parse hkeyword hname ht

end UnionType

end Read

/-! ## Unions -/

/-- **Declarations are read if and only if each of their alternatives is well-formed or ends in two
list marks.** -/
theorem UnionType.parse_accepts_iff (declarations : List String) :
    (∃ union, UnionType.parse declarations = .ok union) ↔
      ∀ declaration ∈ declarations, ∀ text ∈ declaration.toList.splitOn '|',
        Alternative.WellFormed text ∨ Alternative.EndsInLists text := by
  have hread : (∃ union, UnionType.parse declarations = .ok union) ↔
      ∀ entry ∈ UnionType.alternatives declarations,
        ∃ alternative, Alternative.parse entry.1 entry.2 = .ok alternative := by
    rw [← mapM_isOk_iff]
    constructor
    · rintro ⟨union, h⟩
      obtain ⟨read, hread, -⟩ := except_bind_eq_ok.mp h
      exact ⟨read, hread⟩
    · rintro ⟨read, hread⟩
      exact ⟨_, except_bind_eq_ok.mpr ⟨read, hread, rfl⟩⟩
  simp only [hread, Alternative.parse_isOk_iff, UnionType.alternatives, pieces_eq_splitOn,
    List.forall_mem_flatMap, List.forall_mem_map]

/-- What stands in front of a list mark is read, and in front of two it is not: with one mark the
text is refused, with two it is a list of arrays. -/
theorem UnionType.parse_malformed_list_of_lists :
    UnionType.parse ["!![][]"] = .ok ⟨[], [.keyword .array]⟩ ∧
      ¬Alternative.WellFormed "!![][]".toList ∧
      UnionType.parse ["!![]"] = .error (.invalidIdentifier "!!") := by
  refine ⟨by decide, fun h => ?_, by decide⟩
  rcases h.mem '!' (by decide) with h | h | h | h
  · exact absurd h (by decide)
  · exact absurd h (by decide)
  · exact h.ne_of_toNat (by decide) rfl
  · exact absurd h (by decide)

end TypedRecords
