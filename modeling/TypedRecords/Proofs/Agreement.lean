import TypedRecords.Proofs.NormalForm

/-!
# Outcomes that agree

Two computations agree if both succeed, with results that are related, or if both fail and tell of
the same failures.  Of fatal errors there is only the first, so which one it is does not matter; of
what is reported, the order does not matter.

* `Error.Alike`: two errors tell of the same failures.
* `Agree`: two outcomes agree; `Build.agree_bind` and its companions carry it through a computation.
* `Build.agree_collect_of_forall₂`, `Build.agree_collect_of_perm`: **steps that agree one by one agree
  together, in whatever order they are taken.**
-/

namespace TypedRecords

variable {κ α α' β β' : Type}

/-! ## Errors -/

namespace Error

/-- Two errors tell of the same failures: both are fatal, or both report the same invalid values, as
often, and the same unknown and undefined paths. -/
inductive Alike : Error → Error → Prop
  | fatal {error other : Error} : error.isFatal = true → other.isFatal = true → Alike error other
  | report {error other : Error} : error.isMergeable = true → other.isMergeable = true →
      error.invalidTypes.Perm other.invalidTypes →
      (∀ path, path ∈ error.unknownPaths ↔ path ∈ other.unknownPaths) →
      (∀ path, path ∈ error.undefinedPaths ↔ path ∈ other.undefinedPaths) → Alike error other

/-- Two lists of errors, taken together, tell of the same failures. -/
structure AlikeAll (errors others : List Error) : Prop where
  mergeable : (∀ e ∈ errors, e.isMergeable = true) ↔ ∀ e ∈ others, e.isMergeable = true
  invalid : (errors.flatMap invalidTypes).Perm (others.flatMap invalidTypes)
  unknown : ∀ path, path ∈ errors.flatMap unknownPaths ↔ path ∈ others.flatMap unknownPaths
  undefined : ∀ path, path ∈ errors.flatMap undefinedPaths ↔ path ∈ others.flatMap undefinedPaths

variable {error other : Error}

theorem not_isMergeable_of_isFatal (h : error.isFatal = true) : error.isMergeable = false := by
  have hself : error.leaves = [error] := by
    refine leaves_eq_singleton fun errors he => ?_
    rw [he] at h
    cases h
  simp [isMergeable, hself, h]

theorem Alike.refl_of_isMergeable (h : error.isMergeable = true) : error.Alike error :=
  .report h h (.refl _) (fun _ => Iff.rfl) fun _ => Iff.rfl

theorem IsPart.isMergeable {owner : String} (h : error.IsPart owner) :
    error.isMergeable = true := by
  cases h <;> rfl

theorem IsNormal.alike_self {owner : String} (h : error.IsNormal owner) : error.Alike error := by
  cases h with
  | fatal hf => exact .fatal hf hf
  | single hp => exact .refl_of_isMergeable hp.isMergeable
  | @several errors _ hparts _ =>
    refine .refl_of_isMergeable (List.all_eq_true.mpr fun leaf hleaf => ?_)
    have hleaf : leaf ∈ leavesAll errors := hleaf
    rw [leavesAll_eq_flatMap] at hleaf
    obtain ⟨part, hpart, hleaf⟩ := List.mem_flatMap.mp hleaf
    exact List.all_eq_true.mp (hparts part hpart).isMergeable leaf hleaf

theorem Alike.prefixed (h : error.Alike other) (head : String) :
    (error.prefixed head).Alike (other.prefixed head) := by
  cases h with
  | fatal he ho => exact .fatal ((isFatal_prefixed head _).trans he) ((isFatal_prefixed head _).trans ho)
  | report he ho hi hu hd =>
    refine .report ((isMergeable_prefixed head _).trans he) ((isMergeable_prefixed head _).trans ho)
      ?_ (fun path => ?_) fun path => ?_
    · rw [invalidTypes_prefixed, invalidTypes_prefixed]
      exact hi.map _
    · simp only [unknownPaths_prefixed, List.mem_map, hu]
    · simp only [undefinedPaths_prefixed, List.mem_map, hd]

/-! ## Lists of errors -/

variable {errors others further : List Error}

theorem AlikeAll.trans (h : AlikeAll errors others) (h' : AlikeAll others further) :
    AlikeAll errors further where
  mergeable := h.mergeable.trans h'.mergeable
  invalid := h.invalid.trans h'.invalid
  unknown := fun path => (h.unknown path).trans (h'.unknown path)
  undefined := fun path => (h.undefined path).trans (h'.undefined path)

theorem alikeAll_of_perm (h : errors.Perm others) : AlikeAll errors others where
  mergeable := ⟨fun hm e he => hm e (h.mem_iff.mpr he), fun hm e he => hm e (h.mem_iff.mp he)⟩
  invalid := h.flatMap_right _
  unknown := fun _ => (h.flatMap_right _).mem_iff
  undefined := fun _ => (h.flatMap_right _).mem_iff

/-- A fatal error reports nothing, so what two errors that are alike report is the same anyway. -/
theorem Alike.alikeAll (h : error.Alike other) : AlikeAll [error] [other] := by
  cases h with
  | fatal he ho =>
    obtain ⟨hei, heu, hed⟩ := Build.invalidTypes_of_isFatal he
    obtain ⟨hoi, hou, hod⟩ := Build.invalidTypes_of_isFatal ho
    refine ⟨?_, ?_, ?_, ?_⟩
    · simp [not_isMergeable_of_isFatal he, not_isMergeable_of_isFatal ho]
    · simp [hei, hoi]
    · simp [heu, hou]
    · simp [hed, hod]
  | report he ho hi hu hd =>
    exact ⟨by simp [he, ho], by simpa using hi, by simpa using hu, by simpa using hd⟩

theorem AlikeAll.append {errors' others' : List Error} (h : AlikeAll errors others)
    (h' : AlikeAll errors' others') : AlikeAll (errors ++ errors') (others ++ others') where
  mergeable := by
    simp only [List.forall_mem_append]
    exact and_congr h.mergeable h'.mergeable
  invalid := by
    rw [List.flatMap_append, List.flatMap_append]
    exact h.invalid.append h'.invalid
  unknown := fun path => by
    rw [List.flatMap_append, List.flatMap_append, List.mem_append, List.mem_append, h.unknown,
      h'.unknown]
  undefined := fun path => by
    rw [List.flatMap_append, List.flatMap_append, List.mem_append, List.mem_append, h.undefined,
      h'.undefined]

theorem alikeAll_of_forall₂ (h : List.Forall₂ Alike errors others) : AlikeAll errors others := by
  induction h with
  | nil => exact alikeAll_of_perm (.refl _)
  | cons hfirst _ ih => exact hfirst.alikeAll.append ih

end Error

/-- Collectors that hold the same, in whatever order, report the same, or nothing. -/
theorem Collector.rel_toError? {report other : Collector} (hi : report.invalid.Perm other.invalid)
    (hu : ∀ path, path ∈ report.unknown ↔ path ∈ other.unknown)
    (hd : ∀ path, path ∈ report.undefined ↔ path ∈ other.undefined) :
    Option.Rel Error.Alike report.toError? other.toError? := by
  have hnone : report.toError? = none ↔ other.toError? = none := by
    rw [toError?_eq_none_iff, toError?_eq_none_iff, ← List.length_eq_zero_iff, hi.length_eq,
      List.length_eq_zero_iff]
    simp only [List.eq_nil_iff_forall_not_mem, hu, hd]
  cases hr : report.toError? with
  | none =>
    rw [hnone.mp hr]
    exact .none
  | some error =>
    cases ho : other.toError? with
    | none =>
      rw [hnone.mpr ho] at hr
      cases hr
    | some error' =>
      obtain ⟨hri, hru, hrd, hrm⟩ := toError?_eq_some hr
      obtain ⟨hoi, hou, hod, hom⟩ := toError?_eq_some ho
      exact .some (.report hrm hom (by rwa [hri, hoi]) (by rwa [hru, hou]) (by rwa [hrd, hod]))

/-! ## Outcomes -/

/-- Two outcomes agree: both are results, which are related, or both are errors, which are alike. -/
inductive Agree (R : α → β → Prop) : Except Error α → Except Error β → Prop
  | ok {a : α} {b : β} : R a b → Agree R (.ok a) (.ok b)
  | error {e e' : Error} : e.Alike e' → Agree R (.error e) (.error e')

namespace Build

variable {R : α → β → Prop} {S : α' → β' → Prop}

/-- Computations that agree are continued by computations that agree on what they give. -/
theorem agree_bind {build : Build κ α} {build' : Build κ β} {next : α → Build κ α'}
    {next' : β → Build κ β'} (h : Agree R build.result build'.result)
    (hnext : ∀ a b, build.result = .ok a → build'.result = .ok b → R a b →
      Agree S (next a).result (next' b).result) :
    Agree S (build >>= next).result (build' >>= next').result := by
  rw [result_bind, result_bind]
  generalize build.result = x at h hnext
  generalize build'.result = y at h hnext
  cases h with
  | ok hr => exact hnext _ _ rfl rfl hr
  | error he => exact .error he

theorem agree_prefixed {build : Build κ α} {build' : Build κ β}
    (h : Agree R build.result build'.result) (head : String) :
    Agree R (Build.prefixed head build).result (Build.prefixed head build').result := by
  rw [result_prefixed, result_prefixed]
  generalize build.result = x at h
  generalize build'.result = y at h
  cases h with
  | ok hr => exact .ok hr
  | error he => exact .error (he.prefixed head)

/-! ## Steps whose failures are collected -/

/-- Steps with errors that are alike, taken together, fail alike or succeed together. -/
theorem agree_settleWith {owner : String} {errors others : List Error} {made : List α}
    {made' : List β} {T : List α → List β → Prop} (h : Error.AlikeAll errors others)
    (hm : T made made') :
    Agree T (settleWith { owner } errors made) (settleWith { owner } others made') := by
  have hnone : (Error.leavesAll errors).find? (·.isFatal) = none ↔
      (Error.leavesAll others).find? (·.isFatal) = none := by
    rw [find?_leavesAll_eq_none_iff, find?_leavesAll_eq_none_iff, h.mergeable]
  unfold settleWith
  cases hf : (Error.leavesAll errors).find? (·.isFatal) with
  | some fatal =>
    cases hf' : (Error.leavesAll others).find? (·.isFatal) with
    | some fatal' => exact .error (.fatal (List.find?_some hf) (List.find?_some hf'))
    | none =>
      rw [hnone.mpr hf'] at hf
      cases hf
  | none =>
    rw [hnone.mp hf]
    have hrel : Option.Rel Error.Alike (Collector.merge { owner } errors).toError?
        (Collector.merge { owner } others).toError? := by
      rw [Collector.merge_empty, Collector.merge_empty]
      refine Collector.rel_toError? (h.invalid.map _) (fun path => ?_) fun path => ?_
      · rw [List.mem_eraseDups, List.mem_eraseDups, h.unknown]
      · rw [List.mem_eraseDups, List.mem_eraseDups, h.undefined]
    dsimp only
    generalize (Collector.merge { owner } errors).toError? = x at hrel
    generalize (Collector.merge { owner } others).toError? = y at hrel
    cases hrel with
    | none => exact .ok hm
    | some he => exact .error he

variable {step : α → Build κ α'} {step' : β → Build κ β'} {items : List α} {items' : List β}

theorem forall₂_errorsOf
    (h : List.Forall₂ (fun a b => Agree S (step a).result (step' b).result) items items') :
    List.Forall₂ Error.Alike (errorsOf step items) (errorsOf step' items') := by
  refine List.rel_filterMap (fun a b hab => ?_) h
  unfold errorOf?
  generalize (step a).result = x at hab
  generalize (step' b).result = y at hab
  cases hab with
  | ok _ => exact .none
  | error he => exact .some he

theorem forall₂_madeOf
    (h : List.Forall₂ (fun a b => Agree S (step a).result (step' b).result) items items') :
    List.Forall₂ S (madeOf step items) (madeOf step' items') := by
  refine List.rel_filterMap (fun a b hab => ?_) h
  generalize (step a).result = x at hab
  generalize (step' b).result = y at hab
  cases hab with
  | ok hs => exact .some hs
  | error _ => exact .none

/-- **Steps that agree one by one agree together.** -/
theorem agree_collect_of_forall₂ (owner : String)
    (h : List.Forall₂ (fun a b => Agree S (step a).result (step' b).result) items items') :
    Agree (List.Forall₂ S) (collect owner step items).result
      (collect owner step' items').result := by
  rw [result_collect, result_collect]
  exact agree_settleWith (Error.alikeAll_of_forall₂ (forall₂_errorsOf h)) (forall₂_madeOf h)

theorem agree_collect_zipIdx (owner : String) {step : α × Nat → Build κ α'}
    {step' : β × Nat → Build κ β'}
    (hstep : ∀ a b index, R a b → Agree S (step (a, index)).result (step' (b, index)).result)
    (h : List.Forall₂ R items items') :
    Agree (List.Forall₂ S) (collect owner step items.zipIdx).result
      (collect owner step' items'.zipIdx).result := by
  refine agree_collect_of_forall₂ owner ?_
  generalize 0 = first
  induction h generalizing first with
  | nil => exact .nil
  | cons hr _ ih =>
    rw [List.zipIdx_cons, List.zipIdx_cons]
    exact .cons (hstep _ _ first hr) (ih (first + 1))

/-- **Steps agree together in whatever order they are taken.**  What they make is another matter. -/
theorem agree_collect_of_perm (owner : String) {middle : List α} (hp : items.Perm middle)
    (h : List.Forall₂ (fun a b => Agree S (step a).result (step' b).result) middle items') :
    Agree (fun _ _ => True) (collect owner step items).result
      (collect owner step' items').result := by
  rw [result_collect, result_collect]
  exact agree_settleWith ((Error.alikeAll_of_perm (hp.filterMap _)).trans
    (Error.alikeAll_of_forall₂ (forall₂_errorsOf h))) trivial

end Build

end TypedRecords
