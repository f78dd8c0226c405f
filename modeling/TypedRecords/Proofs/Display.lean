import TypedRecords.Proofs.Grammar

/-!
# What is displayed can be read again

A union is displayed as one declaration: its plain types, then the element types of its lists, with
bars between them.  No bar, blank or mark is part of a name, so reading the declaration gives every
type back in its place.  A class that is called like a keyword is the exception.  It was declared
with a backslash in front, which is not displayed, and reads as the keyword from then on.

* `TypeName.parse_display`: a displayed type is read as itself, or as the keyword that it spells
  (`TypeName.reread`).
* `UnionType.parse_display`: a displayed union is read type by type.
* `UnionType.Displayable`: what is read is not empty, holds no type twice and has a display that can
  be read.
* `UnionType.display_canonical`: **a displayed union is read as itself if and only if none of its
  classes is called like a keyword.**
-/

namespace TypedRecords

open Text

/-! ## Type names -/

namespace TypeName

variable {type : TypeName} {text : List Char}

/-- A keyword, or a class with a qualified name. -/
def Readable : TypeName → Prop
  | keyword _ => True
  | named className => isQualified className.toList = true

/-- What the type is read as once it has been displayed. -/
def reread : TypeName → TypeName
  | keyword k => keyword k
  | named className => ((Keyword.ofText? className.toList).map keyword).getD (named className)

theorem readable_of_parse (h : parse text = .ok type) : type.Readable := by
  unfold parse at h
  dsimp only at h
  split at h
  · cases h
    trivial
  · split at h
    · next hq =>
      cases h
      show isQualified (String.ofList _).toList = true
      rwa [String.toList_ofList]
    · cases h

theorem Readable.isName (h : type.Readable) : IsName type.display.toList := by
  cases type with
  | keyword k =>
    apply Or.inl
    rw [← ofText?_isSome_iff, display, Keyword.ofText?_name]
    rfl
  | named className =>
    obtain ⟨segments, hne, hsegments, htext⟩ := isQualified_iff.mp h
    apply Or.inr
    rw [display, htext]
    exact .plain hne hsegments

theorem dropBackslash_of_isQualified (h : isQualified text = true) : dropBackslash text = text := by
  obtain ⟨segments, hne, hsegments, rfl⟩ := isQualified_iff.mp h
  obtain ⟨c, rest, htext, hc⟩ := exists_isLetter_intercalate hne hsegments
  rw [htext]
  unfold dropBackslash
  split
  · next heq =>
    obtain rfl : c = '\\' := (List.cons.inj heq).1
    exact absurd hc (by decide)
  · rfl

/-- **A displayed type is read as itself, or as the keyword that it spells.** -/
theorem parse_display (h : type.Readable) : parse type.display.toList = .ok type.reread := by
  have htrim := trim_of_trimmed h.isName.trimmed
  unfold parse
  rw [htrim]
  cases type with
  | keyword k =>
    simp only [display, Keyword.ofText?_name]
    rfl
  | named className =>
    have hq : isQualified className.toList = true := h
    have hdrop := dropBackslash_of_isQualified hq
    simp only [display, reread]
    cases Keyword.ofText? className.toList with
    | some k => rfl
    | none => simp [hdrop, hq]

/-- The names of classes that spell a keyword are lost on the way. -/
theorem not_spellsKeyword_of_reread {className : String} (h : type.reread = named className) :
    ¬SpellsKeyword className.toList := by
  cases type with
  | keyword k => cases h
  | named original =>
    rw [reread] at h
    rw [← ofText?_isSome_iff]
    cases hk : Keyword.ofText? original.toList with
    | some k =>
      rw [hk] at h
      cases h
    | none =>
      rw [hk] at h
      cases h
      rw [hk]
      exact Bool.false_ne_true

theorem reread_eq_self (h : ∀ className, type.className? = some className →
    ¬SpellsKeyword className.toList) : type.reread = type := by
  cases type with
  | keyword k => rfl
  | named className =>
    have hnot := h className rfl
    rw [← ofText?_isSome_iff, Option.not_isSome_iff_eq_none] at hnot
    rw [reread, hnot]
    rfl

end TypeName

/-! ## Alternatives -/

namespace Alternative

variable {declaration : String} {type : TypeName}

theorem splitOptional_of_isName {name : List Char} (h : TypeName.IsName name)
    (marks : List Char) : splitOptional (name ++ marks) = (false, name ++ marks) := by
  obtain ⟨c, rest, rfl⟩ := List.exists_cons_of_ne_nil h.ne_nil
  have hc : c ≠ '?' := (h.isNameChar c List.mem_cons_self).ne_of_toNat (by decide)
  unfold splitOptional
  split
  · next heq => exact absurd (List.cons.inj heq).1 hc
  · rfl

theorem dropEnding?_of_isName {name : List Char} (h : TypeName.IsName name) :
    dropEnding? listMark name = none := by
  rw [dropEnding?_eq_none_iff]
  intro stem heq
  exact not_isName_listMark stem (heq ▸ h)

theorem parse_display (h : type.Readable) :
    parse declaration type.display.toList = .ok ⟨false, false, type.reread⟩ := by
  have hname := h.isName
  have hsplit := splitOptional_of_isName hname []
  have hending := dropEnding?_of_isName hname
  rw [List.append_nil] at hsplit
  unfold parse
  rw [trim_of_trimmed hname.trimmed, hsplit]
  simp only [List.isEmpty_iff, hname.ne_nil, if_false, hending]
  rw [TypeName.parse_display h]
  rfl

theorem parse_display_list (h : type.Readable) :
    parse declaration (type.display ++ "[]").toList = .ok ⟨false, true, type.reread⟩ := by
  have hname := h.isName
  have hmarks : IsListMarks listMark := IsListMarks.snoc .nil blank_nil
  have htext : (type.display ++ "[]").toList = type.display.toList ++ listMark :=
    String.toList_append
  have hending : dropEnding? listMark (type.display.toList ++ listMark) =
      some type.display.toList := dropEnding?_eq_some_iff.mpr rfl
  have hnone := dropEnding?_of_isName hname
  have hne : type.display.toList ++ listMark ≠ [] :=
    List.append_ne_nil_of_left_ne_nil hname.ne_nil _
  unfold parse
  rw [htext, trim_of_trimmed (hmarks.trimmed hname), splitOptional_of_isName hname listMark]
  simp only [List.isEmpty_iff, hne, if_false, hending, parseElement,
    trim_of_trimmed hname.trimmed, hname.ne_nil, hnone]
  rw [TypeName.parse_display h]
  rfl

end Alternative

/-! ## Unions -/

namespace UnionType

variable {union : UnionType} {declarations : List String}

/-- What is read from declarations: there is some type, none stands in its place twice, and each can
be read once it has been displayed. -/
structure Displayable (union : UnionType) : Prop where
  some : union ≠ empty
  plain : union.plain.Nodup
  elements : union.elements.Nodup
  readable : ∀ type ∈ union.plain ++ union.elements, type.Readable

/-- The union that is read once this one has been displayed. -/
def reread (union : UnionType) : UnionType :=
  ⟨(union.plain.map TypeName.reread).eraseDups, (union.elements.map TypeName.reread).eraseDups⟩

theorem eq_empty (hp : union.plain = []) (he : union.elements = []) : union = empty := by
  obtain ⟨plain, elements⟩ := union
  cases hp
  cases he
  rfl

theorem add_ne_empty (union : UnionType) (alternative : Alternative) :
    union.add alternative ≠ empty := by
  have hnew : ∀ {items : List TypeName} {item : TypeName}, addNew items item ≠ [] := by
    intro items item hnil
    have hmem := mem_addNew_self items item
    rw [hnil] at hmem
    cases hmem
  unfold add empty
  dsimp only
  split
  · intro h
    exact hnew (congrArg UnionType.elements h)
  · intro h
    exact hnew (congrArg UnionType.plain h)

theorem nodup_add (hp : union.plain.Nodup) (he : union.elements.Nodup) (alternative : Alternative) :
    (union.add alternative).plain.Nodup ∧ (union.add alternative).elements.Nodup := by
  have hoptional : (if alternative.optional then addNew union.plain (.keyword .null)
      else union.plain).Nodup := by
    split
    · exact nodup_addNew hp _
    · exact hp
  unfold add
  dsimp only
  split
  · exact ⟨hoptional, nodup_addNew he _⟩
  · exact ⟨nodup_addNew hoptional _, he⟩

theorem foldl_add_cons (first : Alternative) (rest : List Alternative) (hp : union.plain.Nodup)
    (he : union.elements.Nodup) :
    (first :: rest).foldl add union ≠ empty ∧ ((first :: rest).foldl add union).plain.Nodup ∧
      ((first :: rest).foldl add union).elements.Nodup := by
  induction rest generalizing union first with
  | nil => exact ⟨add_ne_empty union first, nodup_add hp he first⟩
  | cons second rest ih =>
    obtain ⟨hp', he'⟩ := nodup_add hp he first
    exact ih second hp' he'

theorem empty_nodup : empty.plain.Nodup ∧ empty.elements.Nodup := ⟨List.nodup_nil, List.nodup_nil⟩

/-- **What is read from declarations** can be displayed and read again. -/
theorem displayable_of_parse (h : parse declarations = .ok union) : union.Displayable := by
  have hreadable := forall_of_parse (fun _ => trivial)
    (fun _ _ => TypeName.readable_of_parse) h
  obtain ⟨read, -, h⟩ := except_bind_eq_ok.mp h
  cases h
  cases read with
  | nil => exact ⟨by decide, by decide, by decide, hreadable⟩
  | cons first rest =>
    obtain ⟨hsome, hplain, helements⟩ := foldl_add_cons first rest empty_nodup.1 empty_nodup.2
    exact ⟨hsome, hplain, helements, hreadable⟩

theorem foldl_add_plain (types : List TypeName) (union : UnionType) :
    (types.map (Alternative.mk false false)).foldl add union =
      ⟨types.foldl addNew union.plain, union.elements⟩ := by
  induction types generalizing union with
  | nil => rfl
  | cons type rest ih => exact ih _

theorem foldl_add_elements (types : List TypeName) (union : UnionType) :
    (types.map (Alternative.mk false true)).foldl add union =
      ⟨union.plain, types.foldl addNew union.elements⟩ := by
  induction types generalizing union with
  | nil => rfl
  | cons type rest ih => exact ih _

/-- The parts between the bars of what is displayed. -/
def parts (union : UnionType) : List String :=
  union.plain.map TypeName.display ++ union.elements.map fun type => type.display ++ "[]"

theorem parts_ne_nil (h : union ≠ empty) : union.parts ≠ [] := by
  intro hnil
  obtain ⟨hplain, helements⟩ := List.append_eq_nil_iff.mp hnil
  exact h (eq_empty (List.map_eq_nil_iff.mp hplain) (List.map_eq_nil_iff.mp helements))

theorem Displayable.bar_not_mem (h : union.Displayable) {part : String} (hpart : part ∈ union.parts) :
    '|' ∉ part.toList := by
  have hname : ∀ type ∈ union.plain ++ union.elements, '|' ∉ type.display.toList := by
    intro type htype hbar
    exact ((h.readable type htype).isName.isNameChar '|' hbar).ne_of_toNat (by decide) rfl
  rcases List.mem_append.mp hpart with hpart | hpart
  · obtain ⟨type, htype, rfl⟩ := List.mem_map.mp hpart
    exact hname type (List.mem_append_left _ htype)
  · obtain ⟨type, htype, rfl⟩ := List.mem_map.mp hpart
    rw [String.toList_append, List.mem_append]
    rintro (hbar | hbar)
    · exact hname type (List.mem_append_right _ htype) hbar
    · exact absurd hbar (by decide)

theorem Displayable.alternatives_display (h : union.Displayable) :
    alternatives [union.display] = union.parts.map fun part => (union.display, part.toList) := by
  have hne := parts_ne_nil h.some
  have hdisplay : union.display = "|".intercalate union.parts := by
    have hnot : ¬union.parts.isEmpty = true := by simpa using hne
    exact if_neg hnot
  have hpieces : pieces '|' union.display.toList = union.parts.map String.toList := by
    rw [hdisplay, String.toList_intercalate]
    apply pieces_intercalate
    · simpa using hne
    · intro text htext
      obtain ⟨part, hpart, rfl⟩ := List.mem_map.mp htext
      exact h.bar_not_mem hpart
  unfold alternatives
  rw [List.flatMap_singleton, hpieces, List.map_map]
  rfl

/-- **A displayed union is read type by type.** -/
theorem Displayable.parse_display (h : union.Displayable) :
    parse [union.display] = .ok union.reread := by
  have hread : (alternatives [union.display]).mapM (fun entry =>
        Alternative.parse entry.1 entry.2) =
      .ok ((union.plain.map TypeName.reread).map (Alternative.mk false false) ++
        (union.elements.map TypeName.reread).map (Alternative.mk false true)) := by
    rw [h.alternatives_display, mapM_eq_ok_iff, parts, List.map_append, List.map_map, List.map_map,
      List.map_map, List.map_map]
    apply List.rel_append
    · rw [List.forall₂_map_left_iff, List.forall₂_map_right_iff, List.forall₂_same]
      intro type htype
      exact Alternative.parse_display (h.readable type (List.mem_append_left _ htype))
    · rw [List.forall₂_map_left_iff, List.forall₂_map_right_iff, List.forall₂_same]
      intro type htype
      exact Alternative.parse_display_list (h.readable type (List.mem_append_right _ htype))
  have hnot : ((union.plain.map TypeName.reread).map (Alternative.mk false false) ++
      (union.elements.map TypeName.reread).map (Alternative.mk false true)).isEmpty = false := by
    have hne := parts_ne_nil h.some
    simpa [parts] using hne
  unfold parse
  rw [hread]
  show Except.ok _ = _
  rw [hnot, if_neg Bool.false_ne_true, List.foldl_append, foldl_add_plain, foldl_add_elements]
  simp only [empty, foldl_addNew_eq_eraseDups]
  rfl

/-- A union is read as itself if none of its classes is called like a keyword, and only then: what
is read from a display holds no such class. -/
theorem Displayable.reread_eq_self_iff (h : union.Displayable) :
    union.reread = union ↔
      ∀ className ∈ union.classNames, ¬TypeName.SpellsKeyword className.toList := by
  constructor
  · intro heq className hclass
    rw [← heq] at hclass
    obtain ⟨type, htype, hname⟩ := List.mem_filterMap.mp hclass
    have hreread : ∃ original : TypeName, original.reread = type := by
      rcases List.mem_append.mp htype with htype | htype
      · obtain ⟨original, -, heq⟩ := List.mem_map.mp (List.mem_eraseDups.mp htype)
        exact ⟨original, heq⟩
      · obtain ⟨original, -, heq⟩ := List.mem_map.mp (List.mem_eraseDups.mp htype)
        exact ⟨original, heq⟩
    obtain ⟨original, hreread⟩ := hreread
    cases type with
    | keyword k => cases hname
    | named name =>
      cases hname
      exact TypeName.not_spellsKeyword_of_reread hreread
  · intro hclasses
    have hsame : ∀ type ∈ union.plain ++ union.elements, type.reread = type := by
      intro type htype
      apply TypeName.reread_eq_self
      intro className hname
      exact hclasses className (List.mem_filterMap.mpr ⟨type, htype, hname⟩)
    have hmap : ∀ types : List TypeName, (∀ type ∈ types, type.reread = type) →
        types.map TypeName.reread = types := by
      intro types hall
      exact (List.map_congr_left hall).trans (List.map_id types)
    have hplain := hmap union.plain fun type htype => hsame type (List.mem_append_left _ htype)
    have helements := hmap union.elements fun type htype =>
      hsame type (List.mem_append_right _ htype)
    unfold reread
    rw [hplain, helements, eraseDups_of_nodup h.plain, eraseDups_of_nodup h.elements]

/-- **Display is a canonical form.**  What is read from declarations holds some type and none twice.
Once displayed, it can be read again, and it is read as itself if and only if none of its classes is
called like a keyword. -/
theorem display_canonical (h : parse declarations = .ok union) :
    (union.plain ≠ [] ∨ union.elements ≠ []) ∧ union.plain.Nodup ∧ union.elements.Nodup ∧
      ∃ again, parse [union.display] = .ok again ∧
        (again = union ↔
          ∀ className ∈ union.classNames, ¬TypeName.SpellsKeyword className.toList) := by
  have hunion := displayable_of_parse h
  refine ⟨?_, hunion.plain, hunion.elements, union.reread, hunion.parse_display,
    hunion.reread_eq_self_iff⟩
  by_contra hnone
  rw [not_or, not_not, not_not] at hnone
  exact hunion.some (eq_empty hnone.1 hnone.2)

/-- A class called `Int` has to be declared with a backslash in front, and is displayed without. -/
theorem display_canonical_int : ∃ union again,
    parse ["?string|\\Int", "Port[]|float[][]"] = .ok union ∧
      union.display = "null|string|Int|Port[]|array[]" ∧
      parse [union.display] = .ok again ∧ again ≠ union := by
  have hread : parse ["?string|\\Int", "Port[]|float[][]"] =
      .ok ⟨[.keyword .null, .keyword .string, .named "Int"],
        [.named "Port", .keyword .array]⟩ := by decide
  obtain ⟨-, -, -, again, hagain, hiff⟩ := display_canonical hread
  refine ⟨_, again, hread, by decide, hagain, fun heq => ?_⟩
  exact hiff.mp heq "Int" (by decide) ⟨("int", .int), by decide, by decide⟩

end UnionType

end TypedRecords
