import TypedRecords.Proofs.Owners
import TypedRecords.Proofs.Texts

/-!
# Definedness along a dotted path

A property of a nested instance is named by the names that lead to it, with dots between them.  To
ask whether it is defined is to walk there from the outermost instance, each step through a declared
property that holds the next instance; `Instance.Nests` is that walk.  It ends at the last name, or
before it where it cannot go on, and the answer is the one that is given there.

* `IsSegment`: names that can be told apart in a dotted path.  `pieces_dotted`: they are what the
  path is cut into, and `foldr_joinPath`: an error tells the path in the same form.
* `Instance.Settles`: what is answered for a declared name.  `Instance.definedAlong_eq_ok`: **the
  answer is given where the walk ends.**
* `Instance.isDefined_dotted`: every outcome of a dotted path, and when it comes about.
-/

namespace TypedRecords

variable {κ : Type}

/-! ## Dotted paths -/

/-- The name can be told apart in a dotted path: it is not empty and holds no dot. -/
def IsSegment (name : String) : Prop := name ≠ "" ∧ '.' ∉ name.toList

instance (name : String) : Decidable (IsSegment name) :=
  inferInstanceAs (Decidable (name ≠ "" ∧ '.' ∉ name.toList))

theorem pieces_dotted {segments : List String} (hne : segments ≠ [])
    (hs : ∀ segment ∈ segments, IsSegment segment) :
    (Text.pieces '.' (".".intercalate segments).toList).map String.ofList = segments := by
  have htexts : ∀ text ∈ segments.map String.toList, '.' ∉ text := by
    intro text ht
    obtain ⟨segment, hmem, rfl⟩ := List.mem_map.mp ht
    exact (hs segment hmem).2
  have hpieces : Text.pieces '.' (".".intercalate segments).toList =
      segments.map String.toList := by
    rw [String.toList_intercalate]
    exact Text.pieces_intercalate (by simpa using hne) htexts
  rw [hpieces, List.map_map]
  simp

theorem foldr_joinPath {last : String} (hlast : last ≠ "") (walked : List String) :
    walked.foldr joinPath last = ".".intercalate (walked ++ [last]) ∧
      ".".intercalate (walked ++ [last]) ≠ "" := by
  induction walked with
  | nil => exact ⟨by simp, by simpa using hlast⟩
  | cons head rest ih =>
    obtain ⟨hpath, hrest⟩ := ih
    have hcons : ".".intercalate (head :: rest ++ [last]) =
        head ++ "." ++ ".".intercalate (rest ++ [last]) := by
      cases rest <;> exact String.intercalate_cons_cons
    refine ⟨?_, ?_⟩
    · rw [List.foldr_cons, hpath, joinPath, if_neg hrest, hcons]
    · rw [hcons]
      simp

namespace Instance

/-! ## Where the walk ends -/

/-- The answer for a declared name of the instance that the walk has led to, with the names that come
behind it. -/
inductive Settles (inner : Instance κ) (name : String) : List String → Bool → Prop
  | undefined {others : List String} : inner.stored? name = none → Settles inner name others false
  | blocked {others : List String} {value : Value κ} : others ≠ [] →
      inner.stored? name = some value → value.record? = none → Settles inner name others false
  | defined {value : Value κ} : inner.stored? name = some value → Settles inner name [] true

variable {record inner : Instance κ} {head name : String} {others rest : List String}
  {answer : Bool}

theorem settles_true_iff :
    inner.Settles name others true ↔ others = [] ∧ (inner.stored? name).isSome = true := by
  constructor
  · intro h
    cases h with
    | defined hs => exact ⟨rfl, by rw [hs]; rfl⟩
  · rintro ⟨rfl, hs⟩
    obtain ⟨value, hs⟩ := Option.isSome_iff_exists.mp hs
    exact .defined hs

theorem settles_false_iff : inner.Settles name others false ↔ inner.stored? name = none ∨
    others ≠ [] ∧ ∃ value, inner.stored? name = some value ∧ value.record? = none := by
  constructor
  · intro h
    cases h with
    | undefined hs => exact .inl hs
    | blocked ho hs hv => exact .inr ⟨ho, _, hs, hv⟩
  · rintro (hs | ⟨ho, value, hs, hv⟩)
    · exact .undefined hs
    · exact .blocked ho hs hv

theorem definedAlong_nil_eq_ok : record.definedAlong head [] = .ok answer ↔
    record.metadata.declares head = true ∧ record.Settles head [] answer := by
  rw [definedAlong]
  cases record.metadata.declares head with
  | false => simp
  | true =>
    rw [if_pos rfl]
    cases answer with
    | true => simp [settles_true_iff]
    | false => simp [settles_false_iff]

theorem definedAlong_cons_eq_ok {next : String} :
    record.definedAlong head (next :: rest) = .ok answer ↔
      record.metadata.declares head = true ∧ (record.Settles head (next :: rest) answer ∨
        ∃ origin nested, record.stored? head = some (.record origin nested) ∧
          nested.definedAlong next rest = .ok answer) := by
  rw [definedAlong]
  cases record.metadata.declares head with
  | false => simp
  | true =>
    rw [if_pos rfl]
    cases hs : record.stored? head with
    | none => cases answer <;> simp [settles_true_iff, settles_false_iff, hs]
    | some value =>
      cases value with
      | record origin nested =>
        change (nested.definedAlong next rest).mapError (Error.prefixed head) = .ok answer ↔ _
        rw [except_mapError_eq_ok]
        cases answer <;> simp [settles_true_iff, settles_false_iff, hs, Value.record?]
      | _ => cases answer <;> simp [settles_true_iff, settles_false_iff, hs, Value.record?]

/-- **The answer is given where the walk ends**, for a name that is declared there. -/
theorem definedAlong_eq_ok : record.definedAlong head rest = .ok answer ↔
    ∃ walked name others inner, head :: rest = walked ++ name :: others ∧
      record.Nests walked inner ∧ inner.metadata.declares name = true ∧
      inner.Settles name others answer := by
  induction rest generalizing record head with
  | nil =>
    rw [definedAlong_nil_eq_ok]
    constructor
    · rintro ⟨hd, ha⟩
      exact ⟨[], head, [], record, rfl, .here, hd, ha⟩
    · rintro ⟨walked, name, others, inner, hpath, hn, hd, ha⟩
      cases hn with
      | here =>
        cases hpath
        exact ⟨hd, ha⟩
      | step =>
        rw [List.cons_append, List.cons.injEq] at hpath
        exact absurd hpath.2.symm (by simp)
  | cons next rest ih =>
    rw [definedAlong_cons_eq_ok]
    constructor
    · rintro ⟨hd, ha | ⟨origin, nested, hs, ha⟩⟩
      · exact ⟨[], head, next :: rest, record, rfl, .here, hd, ha⟩
      · obtain ⟨walked, name, others, inner, hpath, hn, hname, ha⟩ := ih.mp ha
        exact ⟨head :: walked, name, others, inner, by rw [hpath, List.cons_append],
          .step hd hs hn, hname, ha⟩
    · rintro ⟨walked, name, others, inner, hpath, hn, hname, ha⟩
      cases hn with
      | here =>
        cases hpath
        exact ⟨hname, .inl ha⟩
      | step hd hs hn =>
        rw [List.cons_append, List.cons.injEq] at hpath
        obtain ⟨rfl, hpath⟩ := hpath
        exact ⟨hd, .inr ⟨_, _, hs, ih.mpr ⟨_, _, _, _, hpath, hn, hname, ha⟩⟩⟩

/-! ## Asking along a dotted path -/

variable {segments : List String}

theorem isDefined_eq_ok (hne : segments ≠ []) (hs : ∀ segment ∈ segments, IsSegment segment) :
    record.isDefined (".".intercalate segments) = .ok answer ↔
      ∃ walked name others inner, segments = walked ++ name :: others ∧
        record.Nests walked inner ∧ inner.metadata.declares name = true ∧
        inner.Settles name others answer := by
  rw [isDefined, pieces_dotted hne hs]
  cases segments with
  | nil => exact absurd rfl hne
  | cons head rest => exact definedAlong_eq_ok

/-- **Definedness along a dotted path.**  The walk leads from instance to instance.  It fails at the
first name that the instance it has come to does not declare, and tells the path up to there.  It
answers no at the first property that is undefined, and at one that others follow although it holds
no instance.  It answers yes if it gets to the last property and this is defined. -/
theorem isDefined_dotted (record : Instance κ) (hne : segments ≠ [])
    (hs : ∀ segment ∈ segments, IsSegment segment) :
    (∀ error, record.isDefined (".".intercalate segments) = .error error ↔
      ∃ walked name others inner, segments = walked ++ name :: others ∧
        record.Nests walked inner ∧ inner.metadata.declares name = false ∧
        error = .unknownProperties inner.className [".".intercalate (walked ++ [name])]) ∧
    (record.isDefined (".".intercalate segments) = .ok false ↔
      ∃ walked name others inner, segments = walked ++ name :: others ∧
        record.Nests walked inner ∧ inner.metadata.declares name = true ∧
        (inner.stored? name = none ∨
          others ≠ [] ∧ ∃ value, inner.stored? name = some value ∧ value.record? = none)) ∧
    (record.isDefined (".".intercalate segments) = .ok true ↔
      ∃ walked name inner, segments = walked ++ [name] ∧ record.Nests walked inner ∧
        inner.metadata.declares name = true ∧ (inner.stored? name).isSome = true) := by
  refine ⟨fun error => ?_, ?_, ?_⟩
  · rw [isDefined_eq_error, pieces_dotted hne hs]
    refine exists_congr fun walked => exists_congr fun name => exists_congr fun others =>
      exists_congr fun inner => and_congr_right fun hpath => ?_
    have hname : name ≠ "" := (hs name (by simp [hpath])).1
    rw [(foldr_joinPath hname walked).1]
  · rw [isDefined_eq_ok hne hs]
    simp only [settles_false_iff]
  · rw [isDefined_eq_ok hne hs]
    simp only [settles_true_iff]
    constructor
    · rintro ⟨walked, name, others, inner, hpath, hn, hd, rfl, hstored⟩
      exact ⟨walked, name, inner, hpath, hn, hd, hstored⟩
    · rintro ⟨walked, name, inner, hpath, hn, hd, hstored⟩
      exact ⟨walked, name, [], inner, hpath, hn, hd, rfl, hstored⟩

end Instance

/-- The capital of a country has a name and no river, and its towns are no instance. -/
theorem Atlas.france_asked : ∃ record, (engine.make "Country" france .none).1 = .ok record ∧
    record.isDefined "capital.name" = .ok true ∧ record.isDefined "towns.name" = .ok false ∧
    record.isDefined "capital.river.mouth" =
      .error (.unknownProperties "City" ["capital.river"]) := by
  obtain ⟨record, origin, capital, towns, hrecord, hcapital, htowns, hdeclared, hname, hriver, hcity,
      hdefined⟩ : ∃ record origin capital towns,
      (engine.make "Country" france .none).1 = .ok record ∧
        record.stored? "capital" = some (.record origin capital) ∧
        record.stored? "towns" = some (.list towns) ∧
        (record.metadata.declares "capital" = true ∧ record.metadata.declares "towns" = true) ∧
        capital.metadata.declares "name" = true ∧ capital.metadata.declares "river" = false ∧
        capital.className = "City" ∧ (capital.stored? "name").isSome = true :=
    ⟨_, _, _, _, rfl, rfl, rfl, ⟨rfl, rfl⟩, rfl, rfl, rfl, rfl⟩
  have hcapitals : record.Nests ["capital"] capital := .step hdeclared.1 hcapital .here
  refine ⟨record, hrecord, ?_, ?_, ?_⟩
  · have hpath : "capital.name" = ".".intercalate ["capital", "name"] := by decide +kernel
    rw [hpath]
    exact (record.isDefined_dotted (by decide) (by decide +kernel)).2.2.mpr
      ⟨["capital"], "name", capital, rfl, hcapitals, hname, hdefined⟩
  · have hpath : "towns.name" = ".".intercalate ["towns", "name"] := by decide +kernel
    rw [hpath]
    exact (record.isDefined_dotted (by decide) (by decide +kernel)).2.1.mpr
      ⟨[], "towns", ["name"], record, rfl, .here, hdeclared.2, .inr ⟨by decide, _, htowns, rfl⟩⟩
  · have hpath : "capital.river.mouth" = ".".intercalate ["capital", "river", "mouth"] := by
      decide +kernel
    have hfound : "capital.river" = ".".intercalate ["capital", "river"] := by decide +kernel
    rw [hpath, hfound, ← hcity]
    exact ((record.isDefined_dotted (by decide) (by decide +kernel)).1 _).mpr
      ⟨["capital"], "river", ["mouth"], capital, rfl, hcapitals, hriver, rfl⟩

end TypedRecords
