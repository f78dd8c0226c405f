import TypedRecords.Proofs.Lists
import TypedRecords.Proofs.Texts
import TypedRecords.Typing.UnionType

/-!
# How alternatives are grouped

A type may be declared by one text with bars in it or by a list of texts, and each of these may have
bars of its own.  All that counts is the flat list of alternatives: joining the declarations with
bars keeps their texts (`UnionType.alternatives_joined`), and an alternative is read without regard
to the declaration that it stands in, which only an error about a missing type tells of
(`Alternative.parse_within`).

* `UnionType.parse_eq_error_iff`: reading fails at the first alternative that is refused.
* `UnionType.parse_joined`: **declarations and the one declaration that joins them are read alike**,
  with the same union or with the same error at the same alternative.
-/

namespace TypedRecords

open Text

/-! ## Alternatives of another declaration -/

/-- The same error, told of an alternative of another declaration. -/
def TypeSyntaxError.within (declaration : String) : TypeSyntaxError → TypeSyntaxError
  | emptyAlternative _ => emptyAlternative declaration
  | invalidIdentifier text => invalidIdentifier text

namespace Alternative

variable {text : List Char}

theorem typeName_parse_within (declaration : String) (text : List Char) :
    (TypeName.parse text).mapError (.within declaration) = TypeName.parse text := by
  unfold TypeName.parse
  dsimp only
  split
  · rfl
  · split <;> rfl

theorem parseElement_within (declaration other : String) (element : List Char) :
    parseElement other element = (parseElement declaration element).mapError (.within other) := by
  unfold parseElement
  split
  · rfl
  · split
    · rfl
    · rw [typeName_parse_within]

/-- **The declaration that an alternative stands in does not matter**, but for what an error calls
it. -/
theorem parse_within (declaration other : String) (text : List Char) :
    parse other text = (parse declaration text).mapError (.within other) := by
  unfold parse
  generalize splitOptional (trim text) = split
  obtain ⟨optional, rest⟩ := split
  dsimp only
  split
  · rfl
  · cases dropEnding? listMark rest with
    | some element =>
      dsimp only
      rw [parseElement_within declaration other, except_mapError_bind]
      rfl
    | none =>
      dsimp only
      rw [except_mapError_bind, typeName_parse_within]
      rfl

end Alternative

/-! ## Unions -/

namespace UnionType

/-- Reading the declarations comes to an end at the alternative in this place: those before it are
read, and this one is refused. -/
structure RefusedAt (declarations : List String) (index : Nat) (text : List Char)
    (error : TypeSyntaxError) : Prop where
  refused : ∃ declaration, (alternatives declarations)[index]? = some (declaration, text) ∧
    Alternative.parse declaration text = .error error
  read : ∀ entry ∈ (alternatives declarations).take index,
    ∃ alternative, Alternative.parse entry.1 entry.2 = .ok alternative

variable {declarations : List String} {error : TypeSyntaxError}

/-- **Reading fails at the first alternative that is refused**, with its error. -/
theorem parse_eq_error_iff : parse declarations = .error error ↔
    ∃ index text, RefusedAt declarations index text error := by
  have hparse : parse declarations = .error error ↔
      (alternatives declarations).mapM (fun entry =>
        Alternative.parse entry.1 entry.2) = .error error := by
    unfold parse
    rw [except_bind_eq_error]
    apply or_iff_left
    rintro ⟨read, -, h⟩
    cases h
  rw [hparse, mapM_eq_error_iff]
  constructor
  · rintro ⟨index, ⟨declaration, text⟩, hentry, he, hread⟩
    exact ⟨index, text, ⟨declaration, hentry, he⟩, hread⟩
  · rintro ⟨index, text, ⟨declaration, hentry, he⟩, hread⟩
    exact ⟨index, (declaration, text), hentry, he, hread⟩

theorem alternatives_joined (hne : declarations ≠ []) :
    alternatives ["|".intercalate declarations] =
      (alternatives declarations).map fun entry => ("|".intercalate declarations, entry.2) := by
  have htexts : pieces '|' ("|".intercalate declarations).toList =
      (declarations.map String.toList).flatMap (pieces '|') := by
    rw [String.toList_intercalate]
    apply pieces_joined
    simpa using hne
  unfold alternatives
  rw [List.flatMap_singleton, htexts, List.flatMap_map, List.map_flatMap, List.map_flatMap]
  simp only [List.map_map]
  rfl

theorem parse_joined_eq (hne : declarations ≠ []) :
    parse ["|".intercalate declarations] =
      (parse declarations).mapError (.within ("|".intercalate declarations)) := by
  have hsteps : (alternatives ["|".intercalate declarations]).mapM
        (fun entry => Alternative.parse entry.1 entry.2) =
      ((alternatives declarations).mapM fun entry =>
        Alternative.parse entry.1 entry.2).mapError (.within ("|".intercalate declarations)) := by
    rw [alternatives_joined hne, List.mapM_map, ← mapM_mapError]
    apply congrArg (fun step => List.mapM step (alternatives declarations))
    funext entry
    exact Alternative.parse_within entry.1 _ entry.2
  unfold parse
  rw [hsteps, except_mapError_bind]
  rfl

theorem RefusedAt.joined {index : Nat} {text : List Char}
    (h : RefusedAt declarations index text error) (hne : declarations ≠ []) :
    RefusedAt ["|".intercalate declarations] index text
      (error.within ("|".intercalate declarations)) := by
  obtain ⟨⟨declaration, hentry, he⟩, hread⟩ := h
  constructor
  · refine ⟨"|".intercalate declarations, ?_, ?_⟩
    · rw [alternatives_joined hne, List.getElem?_map, hentry]
      rfl
    · rw [Alternative.parse_within declaration, he]
      rfl
  · intro entry hmem
    rw [alternatives_joined hne, ← List.map_take] at hmem
    obtain ⟨original, horiginal, rfl⟩ := List.mem_map.mp hmem
    obtain ⟨alternative, halternative⟩ := hread original horiginal
    refine ⟨alternative, ?_⟩
    rw [Alternative.parse_within original.1, halternative]
    rfl

/-- **How alternatives are grouped does not matter.**  Declarations and the one declaration that
joins them with bars are read as the same union, or neither is read: then it is the same alternative
that is refused, with the same error but for the declaration that it names. -/
theorem parse_joined (hne : declarations ≠ []) :
    parse ["|".intercalate declarations] =
        (parse declarations).mapError (.within ("|".intercalate declarations)) ∧
      ∀ error, parse declarations = .error error → ∃ index text,
        RefusedAt declarations index text error ∧
          RefusedAt ["|".intercalate declarations] index text
            (error.within ("|".intercalate declarations)) := by
  refine ⟨parse_joined_eq hne, fun error herror => ?_⟩
  obtain ⟨index, text, hrefused⟩ := parse_eq_error_iff.mp herror
  exact ⟨index, text, hrefused, hrefused.joined hne⟩

/-- Three declarations, the second of which lacks a type behind its question mark. -/
theorem parse_joined_missing :
    parse ["int|?City", "float[] |?", "9"] = .error (.emptyAlternative "float[] |?") ∧
      parse ["int|?City|float[] |?|9"] = .error (.emptyAlternative "int|?City|float[] |?|9") ∧
      ∃ index text, RefusedAt ["int|?City", "float[] |?", "9"] index text
          (.emptyAlternative "float[] |?") ∧
        RefusedAt ["int|?City|float[] |?|9"] index text
          (.emptyAlternative "int|?City|float[] |?|9") := by
  have hfirst : parse ["int|?City", "float[] |?", "9"] =
      .error (.emptyAlternative "float[] |?") := by decide
  obtain ⟨hjoined, hplace⟩ := parse_joined (List.cons_ne_nil "int|?City" ["float[] |?", "9"])
  rw [hfirst] at hjoined
  exact ⟨hfirst, hjoined, hplace _ hfirst⟩

end UnionType

end TypedRecords
