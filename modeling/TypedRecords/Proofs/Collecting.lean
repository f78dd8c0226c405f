import Mathlib.Data.List.Forall2
import Mathlib.Data.List.TakeWhile
import TypedRecords.Construction.Build
import TypedRecords.Proofs.Absorption

/-!
# Steps whose failures are collected

`Build.collect` takes one step for each item and reports all failures together.  This file says
what comes of it, whatever the steps are: `Build.result_collect` gives the result in terms of the
errors of the steps that fail (`Build.errorsOf`) and of what the others give (`Build.madeOf`).

* `Build.collect_reports`: without a fatal leaf, **every failure is reported**, in order.
* `Build.mem_invalidTypes_of_collect` and its companions: nothing else is reported.
* `Build.collect_eq_ok_iff`: it succeeds iff every step does, as long as no step fails with an error
  that a collector takes in without a trace (`Error.IsSilent`).
-/

namespace TypedRecords

/-- A collector takes the error in without a trace. -/
def Error.IsSilent (error : Error) : Prop :=
  error.isMergeable = true ∧ error.invalidTypes = [] ∧ error.unknownPaths = [] ∧
    error.undefinedPaths = []

namespace Build

variable {κ α β : Type}

/-! ## Sequences -/

theorem ext {build build' : Build κ α} (hc : build.consulted = build'.consulted)
    (hr : build.result = build'.result) : build = build' := by
  cases build
  cases build'
  exact congr (congrArg mk hc) hr

instance : LawfulMonad (Build κ) := LawfulMonad.mk' (Build κ)
  (fun build => by
    show (build >>= fun a => pure a) = build
    apply ext
    · rw [consulted_bind]
      cases build.result <;> exact List.append_nil _
    · rw [result_bind]
      cases build.result <;> rfl)
  (fun _ _ => rfl)
  (fun build next last => by
    apply ext
    · simp only [consulted_bind, result_bind]
      cases build.result with
      | error error => simp [Except.bind]
      | ok a => exact List.append_assoc _ _ _
    · simp only [result_bind]
      cases build.result <;> rfl)

/-- What comes after a computation matters only for what the computation gives. -/
theorem bind_congr_of_result {build : Build κ α} {next next' : α → Build κ β}
    (h : ∀ a, build.result = .ok a → next a = next' a) : build >>= next = build >>= next' := by
  apply ext
  · rw [consulted_bind, consulted_bind]
    cases hr : build.result with
    | error error => rfl
    | ok a => simp only [h a hr]
  · rw [result_bind, result_bind]
    cases hr : build.result with
    | error error => rfl
    | ok a => simp only [Except.bind, h a hr]

theorem bind_eq_ok {build : Build κ α} {next : α → Build κ β} {b : β} :
    (build >>= next).result = .ok b ↔ ∃ a, build.result = .ok a ∧ (next a).result = .ok b := by
  rw [result_bind]
  cases build.result with
  | error error => simp [Except.bind]
  | ok a => simp [Except.bind]

theorem bind_eq_error {build : Build κ α} {next : α → Build κ β} {error : Error} :
    (build >>= next).result = .error error ↔
      build.result = .error error ∨
        ∃ a, build.result = .ok a ∧ (next a).result = .error error := by
  rw [result_bind]
  cases build.result with
  | error error' => simp [Except.bind]
  | ok a => simp [Except.bind]

theorem prefixed_eq_ok {head : String} {build : Build κ α} {a : α} :
    (Build.prefixed head build).result = .ok a ↔ build.result = .ok a := by
  rw [result_prefixed]
  cases build.result <;> simp [Except.mapError]

theorem prefixed_eq_error {head : String} {build : Build κ α} {error : Error} :
    (Build.prefixed head build).result = .error error ↔
      ∃ inner, build.result = .error inner ∧ inner.prefixed head = error := by
  rw [result_prefixed]
  cases build.result <;> simp [Except.mapError]

theorem mem_consulted_bind {build : Build κ α} {next : α → Build κ β} {m : Metadata κ}
    (h : m ∈ (build >>= next).consulted) :
    m ∈ build.consulted ∨ ∃ a, build.result = .ok a ∧ m ∈ (next a).consulted := by
  rw [consulted_bind] at h
  rcases List.mem_append.mp h with h | h
  · exact .inl h
  · cases hr : build.result with
    | error error => simp [hr] at h
    | ok a => exact .inr ⟨a, rfl, by simpa [hr] using h⟩

/-! ## Errors and outcomes of the steps -/

/-- The error of a step, if it fails. -/
def errorOf? (build : Build κ α) : Option Error :=
  match build.result with
  | .error error => some error
  | .ok _ => none

/-- The errors of the steps that fail, in order. -/
def errorsOf (step : α → Build κ β) (items : List α) : List Error :=
  items.filterMap fun item => (step item).errorOf?

/-- What the steps that succeed give, in order. -/
def madeOf (step : α → Build κ β) (items : List α) : List β :=
  items.filterMap fun item => (step item).result.toOption

theorem errorOf?_eq_some {build : Build κ α} {error : Error} :
    build.errorOf? = some error ↔ build.result = .error error := by
  unfold errorOf?
  cases build.result <;> simp

theorem mem_errorsOf {step : α → Build κ β} {items : List α} {error : Error} :
    error ∈ errorsOf step items ↔ ∃ item ∈ items, (step item).result = .error error := by
  simp [errorsOf, List.mem_filterMap, errorOf?_eq_some]

theorem mem_madeOf {step : α → Build κ β} {items : List α} {b : β} :
    b ∈ madeOf step items ↔ ∃ item ∈ items, (step item).result = .ok b := by
  simp only [madeOf, List.mem_filterMap]
  refine exists_congr fun item => and_congr_right fun _ => ?_
  cases (step item).result <;> simp [Except.toOption]

theorem errorsOf_cons_error {step : α → Build κ β} {item : α} {error : Error}
    (h : (step item).result = .error error) (rest : List α) :
    errorsOf step (item :: rest) = error :: errorsOf step rest :=
  List.filterMap_cons_some (errorOf?_eq_some.mpr h)

theorem errorsOf_cons_ok {step : α → Build κ β} {item : α} {b : β}
    (h : (step item).result = .ok b) (rest : List α) :
    errorsOf step (item :: rest) = errorsOf step rest :=
  List.filterMap_cons_none (by simp [errorOf?, h])

theorem madeOf_cons_error {step : α → Build κ β} {item : α} {error : Error}
    (h : (step item).result = .error error) (rest : List α) :
    madeOf step (item :: rest) = madeOf step rest :=
  List.filterMap_cons_none (by simp [Except.toOption, h])

theorem madeOf_cons_ok {step : α → Build κ β} {item : α} {b : β}
    (h : (step item).result = .ok b) (rest : List α) :
    madeOf step (item :: rest) = b :: madeOf step rest :=
  List.filterMap_cons_some (by simp [Except.toOption, h])

/-! ## The result -/

/-- What comes of steps with the errors `errors` and the outcomes `made`: the first fatal leaf, or
else all that `report` holds then, or else the outcomes. -/
def settleWith (report : Collector) (errors : List Error) (made : List β) : Except Error (List β) :=
  match (Error.leavesAll errors).find? (·.isFatal) with
  | some fatal => .error fatal
  | none =>
    match (report.merge errors).toError? with
    | some error => .error error
    | none => .ok made

theorem result_collectWith (step : α → Build κ β) (report : Collector) (items : List α) :
    (collectWith step report items).result =
      settleWith report (errorsOf step items) (madeOf step items) := by
  induction items generalizing report with
  | nil =>
    rw [collectWith, result_bind]
    show (report.finish.bind fun _ => .ok []) = _
    unfold Collector.finish settleWith
    simp only [errorsOf, madeOf, List.filterMap_nil, Error.leavesAll, List.find?_nil,
      Collector.merge_nil]
    cases report.toError? <;> rfl
  | cons item rest ih =>
    rw [collectWith, result_bind, result_attempt]
    cases hs : (step item).result with
    | ok b =>
      rw [errorsOf_cons_ok hs, madeOf_cons_ok hs]
      show (collectWith step report rest >>= fun made => pure (b :: made)).result = _
      rw [result_bind, ih report]
      unfold settleWith
      cases (Error.leavesAll (errorsOf step rest)).find? (·.isFatal) with
      | some fatal => rfl
      | none => cases (report.merge (errorsOf step rest)).toError? <;> rfl
    | error error =>
      rw [errorsOf_cons_error hs, madeOf_cons_error hs]
      dsimp only [Except.bind]
      rw [Collector.absorb_eq]
      unfold settleWith
      rw [Error.leavesAll, List.find?_append]
      cases hf : error.leaves.find? (·.isFatal) with
      | some fatal => rfl
      | none =>
        have hall : error.leaves.takeWhile (!·.isFatal) = error.leaves :=
          List.takeWhile_eq_self_iff.mpr fun leaf h => by
            simpa using List.find?_eq_none.mp hf leaf h
        have hone : report.merge error.leaves = report.merge [error] := by
          simpa [Error.leavesAll] using report.merge_leavesAll [error]
        show (collectWith step (report.merge (error.leaves.takeWhile (!·.isFatal))) rest).result = _
        rw [hall, hone, ih]
        unfold settleWith
        rw [← Collector.merge_append, List.singleton_append, Option.none_or]

theorem result_collect (owner : String) (step : α → Build κ β) (items : List α) :
    (collect owner step items).result =
      settleWith { owner } (errorsOf step items) (madeOf step items) :=
  result_collectWith step _ items

/-! ## Failure -/

theorem find?_leavesAll_eq_none_iff {errors : List Error} :
    (Error.leavesAll errors).find? (·.isFatal) = none ↔ ∀ e ∈ errors, e.isMergeable = true := by
  rw [Error.leavesAll_eq_flatMap, List.find?_eq_none]
  constructor
  · intro h error he
    refine List.all_eq_true.mpr fun leaf hleaf => ?_
    simpa using h leaf (List.mem_flatMap.mpr ⟨error, he, hleaf⟩)
  · intro h leaf hleaf
    obtain ⟨error, he, hleaf⟩ := List.mem_flatMap.mp hleaf
    simpa using List.all_eq_true.mp (h error he) leaf hleaf

/-- **Every failure is reported.**  If no error has a fatal leaf and some error reports something,
then the steps fail with an error that reports, in order, what the single errors do. -/
theorem collect_reports (owner : String) {step : α → Build κ β} {items : List α}
    (hm : ∀ e ∈ errorsOf step items, e.isMergeable = true)
    (hs : ∃ e ∈ errorsOf step items, ¬ e.IsSilent) :
    ∃ error, (collect owner step items).result = .error error ∧
      error.invalidTypes =
        ((errorsOf step items).flatMap Error.invalidTypes).map (·.withOwner owner) ∧
      error.unknownPaths = ((errorsOf step items).flatMap Error.unknownPaths).eraseDups ∧
      error.undefinedPaths = ((errorsOf step items).flatMap Error.undefinedPaths).eraseDups := by
  rw [result_collect, settleWith, find?_leavesAll_eq_none_iff.mpr hm]
  cases hr : (Collector.merge { owner } (errorsOf step items)).toError? with
  | some error =>
    rw [Collector.merge_empty] at hr
    obtain ⟨hi, hu, hd, -⟩ := Collector.toError?_eq_some hr
    exact ⟨error, rfl, hi, hu, hd⟩
  | none =>
    obtain ⟨e, he, hsilent⟩ := hs
    exact absurd ⟨hm e he, Collector.toError?_merge_empty_eq_none_iff.mp hr e he⟩ hsilent

theorem collect_of_invalidTypes {owner : String} {step : α → Build κ β} {items : List α}
    {failures : List Failure} (hne : failures ≠ [])
    (howner : ∀ failure ∈ failures, failure.owner = owner)
    (h : errorsOf step items = failures.map fun failure => .invalidType [failure]) :
    (collect owner step items).result = .error (.invalidType failures) := by
  have hm : ∀ e ∈ errorsOf step items, e.isMergeable = true := by
    intro e he
    rw [h] at he
    obtain ⟨failure, -, rfl⟩ := List.mem_map.mp he
    rfl
  have hinvalid : ((errorsOf step items).flatMap Error.invalidTypes).map (·.withOwner owner) =
      failures := by
    rw [h, List.flatMap_map]
    simp only [Error.invalidTypes, List.flatMap_singleton']
    refine (List.map_congr_left fun failure hf => ?_).trans (List.map_id failures)
    rw [← howner failure hf]
    rfl
  have hunknown : (errorsOf step items).flatMap Error.unknownPaths = [] := by
    simp [h, Error.unknownPaths, List.flatMap_map]
  have hundefined : (errorsOf step items).flatMap Error.undefinedPaths = [] := by
    simp [h, Error.undefinedPaths, List.flatMap_map]
  rw [result_collect, settleWith, find?_leavesAll_eq_none_iff.mpr hm]
  simp only [Collector.merge_empty, hinvalid, hunknown, hundefined, List.eraseDups_nil]
  cases failures with
  | nil => exact absurd rfl hne
  | cons failure rest => rfl

/-- The steps fail with the first fatal leaf of their errors, or there is none. -/
theorem find?_leavesAll_of_collect {owner : String} {step : α → Build κ β} {items : List α}
    {error : Error} (h : (collect owner step items).result = .error error) :
    (Error.leavesAll (errorsOf step items)).find? (·.isFatal) = some error ∨
      (Error.leavesAll (errorsOf step items)).find? (·.isFatal) = none := by
  rw [result_collect, settleWith] at h
  split at h
  · next fatal hf =>
    cases h
    exact .inl hf
  · next hf => exact .inr hf

/-- What the steps fail with: a fatal leaf of one of their errors, or a report without fatal leaf on
what the errors hold. -/
theorem collect_eq_error {owner : String} {step : α → Build κ β} {items : List α} {error : Error}
    (h : (collect owner step items).result = .error error) :
    (error.isFatal = true ∧ ∃ e ∈ errorsOf step items, error ∈ e.leaves) ∨
      (error.isMergeable = true ∧ ¬ error.IsSilent ∧
        error.invalidTypes =
          ((errorsOf step items).flatMap Error.invalidTypes).map (·.withOwner owner) ∧
        error.unknownPaths = ((errorsOf step items).flatMap Error.unknownPaths).eraseDups ∧
        error.undefinedPaths = ((errorsOf step items).flatMap Error.undefinedPaths).eraseDups) := by
  rcases find?_leavesAll_of_collect h with hf | hnone
  · have hmem := List.mem_of_find?_eq_some hf
    rw [Error.leavesAll_eq_flatMap] at hmem
    exact .inl ⟨by simpa using List.find?_some hf, List.mem_flatMap.mp hmem⟩
  · rw [result_collect, settleWith, hnone] at h
    dsimp only at h
    split at h
    · next e hr =>
      cases h
      have hr' := hr
      rw [Collector.merge_empty] at hr'
      obtain ⟨hi, hu, hd, hm⟩ := Collector.toError?_eq_some hr'
      refine .inr ⟨hm, ?_, hi, hu, hd⟩
      rintro ⟨-, hi', hu', hd'⟩
      rw [Collector.toError?_eq_none_iff.mpr
        ⟨hi.symm.trans hi', hu.symm.trans hu', hd.symm.trans hd'⟩] at hr'
      cases hr'
    · cases h

theorem invalidTypes_of_isFatal {error : Error} (h : error.isFatal = true) :
    error.invalidTypes = [] ∧ error.unknownPaths = [] ∧ error.undefinedPaths = [] := by
  cases error <;> first | exact ⟨rfl, rfl, rfl⟩ | simp [Error.isFatal, Error.isAggregatable] at h

/-- The steps never fail without a trace. -/
theorem not_isSilent_of_collect {owner : String} {step : α → Build κ β} {items : List α}
    {error : Error} (h : (collect owner step items).result = .error error) : ¬ error.IsSilent := by
  rcases collect_eq_error h with ⟨hf, e, -, hleaf⟩ | ⟨-, hs, -⟩
  · rintro ⟨hm, -⟩
    have hself : error.leaves = [error] :=
      Error.leaves_eq_singleton fun errors =>
        Error.ne_aggregate_of_mem_leaves errors e hleaf
    simp [Error.isMergeable, hself, hf] at hm
  · exact hs

/-! ## Nothing but the failures of the steps -/

variable {owner : String} {step : α → Build κ β} {items : List α} {item : α} {error : Error}

theorem mem_invalidTypes_of_collect (h : (collect owner step items).result = .error error)
    {failure : Failure} (hf : failure ∈ error.invalidTypes) :
    ∃ item ∈ items, ∃ e, (step item).result = .error e ∧
      ∃ original ∈ e.invalidTypes, failure = original.withOwner owner := by
  rcases collect_eq_error h with ⟨hfatal, -⟩ | ⟨-, -, hi, -⟩
  · rw [(invalidTypes_of_isFatal hfatal).1] at hf; cases hf
  · rw [hi] at hf
    obtain ⟨original, ho, rfl⟩ := List.mem_map.mp hf
    obtain ⟨e, he, ho⟩ := List.mem_flatMap.mp ho
    obtain ⟨item, hitem, hstep⟩ := mem_errorsOf.mp he
    exact ⟨item, hitem, e, hstep, original, ho, rfl⟩

theorem mem_unknownPaths_of_collect (h : (collect owner step items).result = .error error)
    {path : String} (hp : path ∈ error.unknownPaths) :
    ∃ item ∈ items, ∃ e, (step item).result = .error e ∧ path ∈ e.unknownPaths := by
  rcases collect_eq_error h with ⟨hfatal, -⟩ | ⟨-, -, -, hu, -⟩
  · rw [(invalidTypes_of_isFatal hfatal).2.1] at hp; cases hp
  · rw [hu, List.mem_eraseDups] at hp
    obtain ⟨e, he, hp⟩ := List.mem_flatMap.mp hp
    obtain ⟨item, hitem, hstep⟩ := mem_errorsOf.mp he
    exact ⟨item, hitem, e, hstep, hp⟩

theorem mem_undefinedPaths_of_collect (h : (collect owner step items).result = .error error)
    {path : String} (hp : path ∈ error.undefinedPaths) :
    ∃ item ∈ items, ∃ e, (step item).result = .error e ∧ path ∈ e.undefinedPaths := by
  rcases collect_eq_error h with ⟨hfatal, -⟩ | ⟨-, -, -, -, hd⟩
  · rw [(invalidTypes_of_isFatal hfatal).2.2] at hp; cases hp
  · rw [hd, List.mem_eraseDups] at hp
    obtain ⟨e, he, hp⟩ := List.mem_flatMap.mp hp
    obtain ⟨item, hitem, hstep⟩ := mem_errorsOf.mp he
    exact ⟨item, hitem, e, hstep, hp⟩

/-! ## Success -/

theorem eq_madeOf_of_collect {made : List β}
    (h : (collect owner step items).result = .ok made) : made = madeOf step items := by
  rw [result_collect, settleWith] at h
  split at h
  · cases h
  · split at h <;> cases h
    rfl

theorem mem_of_collect {made : List β} (h : (collect owner step items).result = .ok made) {b : β}
    (hb : b ∈ made) : ∃ item ∈ items, (step item).result = .ok b := by
  rw [eq_madeOf_of_collect h] at hb
  exact mem_madeOf.mp hb

theorem collect_of_forall₂ {made : List β}
    (h : List.Forall₂ (fun item b => (step item).result = .ok b) items made) :
    (collect owner step items).result = .ok made := by
  have both : errorsOf step items = [] ∧ madeOf step items = made := by
    induction h with
    | nil => exact ⟨rfl, rfl⟩
    | cons hb _ ih => rw [errorsOf_cons_ok hb, madeOf_cons_ok hb, ih.1, ih.2]; exact ⟨rfl, rfl⟩
  rw [result_collect, both.1, both.2]
  rfl

/-- Steps none of which fails succeed together. -/
theorem collect_of_errorsOf_eq_nil (owner : String) (h : errorsOf step items = []) :
    (collect owner step items).result = .ok (madeOf step items) := by
  rw [result_collect, h]
  rfl

/-- If the steps succeed together, a step that fails does so without a trace. -/
theorem isSilent_of_collect {made : List β} (h : (collect owner step items).result = .ok made)
    (hitem : item ∈ items) (hstep : (step item).result = .error error) : error.IsSilent := by
  rw [result_collect, settleWith] at h
  split at h
  · cases h
  · next hf =>
    have he := mem_errorsOf.mpr ⟨item, hitem, hstep⟩
    have hm := find?_leavesAll_eq_none_iff.mp hf
    by_contra hs
    obtain ⟨reported, hreported, -⟩ := collect_reports owner hm ⟨error, he, hs⟩
    rw [result_collect, settleWith, hf] at hreported
    rw [hreported] at h
    cases h

/-- **Success.**  If no step fails without a trace, all steps together succeed just if every one
does, and then give what the steps give. -/
theorem collect_eq_ok_iff {made : List β}
    (hs : ∀ item ∈ items, ∀ e, (step item).result = .error e → ¬ e.IsSilent) :
    (collect owner step items).result = .ok made ↔
      List.Forall₂ (fun item b => (step item).result = .ok b) items made := by
  refine ⟨fun h => ?_, collect_of_forall₂⟩
  have hnone : errorsOf step items = [] := by
    rw [List.eq_nil_iff_forall_not_mem]
    intro e he
    obtain ⟨item, hitem, hstep⟩ := mem_errorsOf.mp he
    exact hs item hitem e hstep (isSilent_of_collect h hitem hstep)
  rw [eq_madeOf_of_collect h]
  clear h hs
  induction items with
  | nil => exact .nil
  | cons item rest ih =>
    cases hr : (step item).result with
    | error e => rw [errorsOf_cons_error hr] at hnone; exact absurd hnone (List.cons_ne_nil _ _)
    | ok b =>
      rw [errorsOf_cons_ok hr] at hnone
      rw [madeOf_cons_ok hr]
      exact .cons hr (ih hnone)

/-! ## Steps that are the same -/

theorem collectWith_congr {γ : Type} {step : α → Build κ γ} {step' : β → Build κ γ}
    {items : List α} {items' : List β} (h : items.map step = items'.map step')
    (report : Collector) : collectWith step report items = collectWith step' report items' := by
  induction items generalizing items' report with
  | nil =>
    cases items' with
    | nil => rfl
    | cons => cases h
  | cons item rest ih =>
    cases items' with
    | nil => cases h
    | cons item' rest' =>
      obtain ⟨hfirst, hrest⟩ := List.cons.inj h
      rw [collectWith, collectWith, hfirst]
      simp only [ih hrest]

/-- A step that gives nothing may be left out. -/
theorem collectWith_skip {γ : Type} {step : α → Build κ (Option β)}
    (hitem : step item = pure none) (before after : List α) (report : Collector)
    (next : List β → Build κ γ) :
    (collectWith step report (before ++ item :: after) >>= fun made => next (made.filterMap id)) =
      collectWith step report (before ++ after) >>= fun made => next (made.filterMap id) := by
  induction before generalizing report next with
  | nil =>
    rw [List.nil_append, List.nil_append, collectWith, hitem]
    show (collectWith step report after >>= fun made => pure (none :: made)) >>= _ = _
    rw [bind_assoc]
    rfl
  | cons first rest ih =>
    rw [List.cons_append, List.cons_append, collectWith, collectWith, bind_assoc, bind_assoc]
    apply congrArg
    funext result
    cases result with
    | error error =>
      dsimp only
      rcases report.absorb error with ⟨report', fatal⟩
      cases fatal with
      | none => exact ih report' next
      | some fatal => rfl
    | ok made =>
      simp only [bind_assoc, pure_bind, List.filterMap_cons, id]
      cases made with
      | none => exact ih report next
      | some b => exact ih report fun made => next (b :: made)

theorem collect_replace {owner : String} {step : α × Nat → Build κ β} {a b : α}
    (h : ∀ index, step (b, index) = step (a, index)) (before after : List α) :
    collect owner step (before ++ b :: after).zipIdx =
      collect owner step (before ++ a :: after).zipIdx := by
  apply collectWith_congr
  simp only [List.zipIdx_append, List.zipIdx_cons, List.map_append, List.map_cons, h]

/-! ## Notes -/

theorem mem_consulted_collectWith {report : Collector} {m : Metadata κ}
    (h : m ∈ (collectWith step report items).consulted) :
    ∃ item ∈ items, m ∈ (step item).consulted := by
  induction items generalizing report with
  | nil =>
    rcases mem_consulted_bind h with h | ⟨_, -, h⟩ <;> exact absurd h List.not_mem_nil
  | cons item rest ih =>
    have later : ∀ {report : Collector}, m ∈ (collectWith step report rest).consulted →
        ∃ item' ∈ item :: rest, m ∈ (step item').consulted := fun h =>
      let ⟨item', hitem, hm⟩ := ih h
      ⟨item', List.mem_cons_of_mem _ hitem, hm⟩
    rcases mem_consulted_bind h with h | ⟨result, -, h⟩
    · exact ⟨item, List.mem_cons_self, h⟩
    cases result with
    | ok b =>
      change m ∈ (collectWith step report rest >>= fun made => pure (b :: made)).consulted at h
      rcases mem_consulted_bind h with h | ⟨_, -, h⟩
      · exact later h
      · exact absurd h List.not_mem_nil
    | error e =>
      dsimp only at h
      split at h
      · exact later h
      · exact absurd h List.not_mem_nil

end Build

end TypedRecords
