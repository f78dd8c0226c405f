import TypedRecords.Proofs.Native

/-!
# The normal form of errors

Errors cross any number of constructions and custom casts on their way out, and a custom cast may
fail with any error at all: with empty or nested aggregates, in the name of another class, with the
same path twice.  Every construction that passes them on brings them into one form.

* `Error.IsNormal`: a fatal error, or a report with one part for each kind of failure.
* `Collector.isNormal_of_toError?`: what a collector reports is normal, whatever it has taken in.
* `Construction.isNormal_of_carryOut`: **a construction fails with normal errors only**, at every
  level.
-/

namespace TypedRecords

variable {κ : Type}

/-! ## Normal errors -/

namespace Error

/-- The place of a kind of error in a report: invalid values, unknown properties, undefined
properties. -/
def rank : Error → Nat
  | invalidType _ => 0
  | unknownProperties .. => 1
  | undefinedProperties .. => 2
  | _ => 3

/-- A part of a report by `owner`: failures of one kind, at least one, and no path twice. -/
inductive IsPart (owner : String) : Error → Prop
  | invalid {failures : List Failure} : failures ≠ [] →
      (∀ failure ∈ failures, failure.owner = owner) → IsPart owner (invalidType failures)
  | unknown {paths : List String} : paths ≠ [] → paths.Nodup →
      IsPart owner (unknownProperties owner paths)
  | undefined {paths : List String} : paths ≠ [] → paths.Nodup →
      IsPart owner (undefinedProperties owner paths)

/-- A fatal error, or a report by `owner`: a single part, or an aggregate of several parts, at most
one of each kind, in order. -/
inductive IsNormal (owner : String) : Error → Prop
  | fatal {error : Error} : error.isFatal = true → IsNormal owner error
  | single {error : Error} : error.IsPart owner → IsNormal owner error
  | several {errors : List Error} : 2 ≤ errors.length → (∀ e ∈ errors, e.IsPart owner) →
      errors.Pairwise (fun a b => a.rank < b.rank) → IsNormal owner (aggregate errors)

end Error

/-! ## Reports -/

namespace Collector

/-- What a collector holds at any time: failures of its own, and no path twice. -/
structure Tidy (report : Collector) : Prop where
  invalid : ∀ failure ∈ report.invalid, failure.owner = report.owner
  unknown : report.unknown.Nodup
  undefined : report.undefined.Nodup

theorem tidy_merge_empty (owner : String) (errors : List Error) : (merge { owner } errors).Tidy := by
  rw [merge_empty]
  refine ⟨fun failure hf => ?_, nodup_eraseDups _, nodup_eraseDups _⟩
  obtain ⟨original, -, rfl⟩ := List.mem_map.mp hf
  rfl

variable {report : Collector}

theorem isPart_of_mem_errors (h : report.Tidy) {error : Error} (he : error ∈ report.errors) :
    error.IsPart report.owner := by
  have hpart : ∀ {α : Type} {items : List α} {part : Error},
      error ∈ (if items.isEmpty then [] else [part]) → items ≠ [] ∧ error = part := by
    intro α items part hm
    cases items with
    | nil => cases hm
    | cons item rest => exact ⟨List.cons_ne_nil _ _, List.mem_singleton.mp hm⟩
  rcases List.mem_append.mp he with he | he
  · rcases List.mem_append.mp he with he | he
    · obtain ⟨hne, rfl⟩ := hpart he
      exact .invalid hne h.invalid
    · obtain ⟨hne, rfl⟩ := hpart he
      exact .unknown hne h.unknown
  · obtain ⟨hne, rfl⟩ := hpart he
    exact .undefined hne h.undefined

theorem pairwise_errors (report : Collector) :
    report.errors.Pairwise fun a b => a.rank < b.rank := by
  obtain ⟨owner, invalid, unknown, undefined⟩ := report
  cases invalid <;> cases unknown <;> cases undefined <;> simp [errors, Error.rank]

/-- **What a collector reports is normal.** -/
theorem isNormal_of_toError? (h : report.Tidy) {error : Error} (he : report.toError? = some error) :
    error.IsNormal report.owner := by
  have hparts : ∀ e ∈ report.errors, e.IsPart report.owner := fun _ => isPart_of_mem_errors h
  have hsorted := report.pairwise_errors
  unfold toError? at he
  cases hlist : report.errors with
  | nil => rw [hlist] at he; cases he
  | cons head rest =>
    rw [hlist] at he hparts hsorted
    cases rest with
    | nil =>
      cases he
      exact .single (hparts _ List.mem_cons_self)
    | cons second rest =>
      cases he
      exact .several (by simp) hparts hsorted

end Collector

/-- Steps whose failures are collected fail with normal errors only, whatever the steps fail
with. -/
theorem Build.isNormal_of_collect {α β : Type} {owner : String} {step : α → Build κ β}
    {items : List α} {error : Error}
    (h : (collect owner step items).result = .error error) : error.IsNormal owner := by
  rw [result_collect, settleWith] at h
  split at h
  · next fatal hf =>
    cases h
    exact .fatal (List.find?_some hf)
  · split at h
    · next e hr =>
      cases h
      exact Collector.isNormal_of_toError? (Collector.tidy_merge_empty owner _) hr
    · cases h

/-! ## Constructions -/

/-- The metadata of a plan is well-formed and bears the name it is asked for by, and a class that
does not resolve is reported under that name. -/
structure Plan.Regular (plan : Plan κ) : Prop where
  wellFormed : ∀ className m, plan.metadata className = .ok m → m.WellFormed
  name : ∀ className m, plan.metadata className = .ok m →
    m.name = normalName (normalName className)
  normal : ∀ className error, plan.metadata className = .error error →
    error.IsNormal (normalName (normalName className))

theorem Metadata.isNormal_of_resolve {casting : Casting κ} {registry : Registry κ} {casts : List κ}
    {generation : Nat} {key : String} {error : Error}
    (h : resolve casting registry casts generation key = .error error) :
    error.IsNormal (normalName key) := by
  rcases resolve_eq_error h with hf | ⟨failure, rfl, ho⟩
  · exact .fatal hf
  · refine .single (.invalid (List.cons_ne_nil _ _) fun other hother => ?_)
    rw [List.mem_singleton.mp hother]
    exact ho

/-- **An engine plans regularly**, whatever casts it has and whatever it keeps. -/
theorem Engine.Reachable.regular {D : ClassDeclaration κ → Prop} {engine : Engine κ}
    (hr : Reachable D engine) : engine.plan.Regular where
  wellFormed := fun _ _ hm => hr.wellFormed hm
  name := fun _ _ hm => by
    obtain ⟨_, _, -, h⟩ := hr.metadata hm
    obtain ⟨_, _, -, -, -, hname, -⟩ := Metadata.resolve_eq_ok h
    exact hname
  normal := fun className error h => by
    have h : engine.metadata className = .error error := h
    unfold Engine.metadata at h
    dsimp only at h
    split at h
    · cases h
    · exact Metadata.isNormal_of_resolve h

namespace Construction

variable {bench : Workbench κ} {m : Metadata κ} {site : Site} {flags : Flags}
  {input supplied : Table (Value κ)} {error : Error}

theorem nodup_unknownKeys (hi : Table.Distinct input) : (unknownKeys m input).Nodup :=
  List.Nodup.filter _ hi

theorem nodup_unsettled (hm : m.names.Nodup) : (unsettled m flags supplied).Nodup :=
  hm.sublist (List.filter_sublist.map Property.name)

theorem isNormal_of_construct (hm : m.WellFormed) (hi : Table.Distinct input)
    (h : (construct bench m site input flags).result = .error error) : error.IsNormal m.name := by
  rcases construct_eq_error.mp h with ⟨hunknown, rfl⟩ | ⟨-, h | ⟨cast, -, hundefined, rfl⟩⟩
  · exact .single (.unknown (fun hnil => hunknown (.inl hnil)) (nodup_unknownKeys hi))
  · exact Build.isNormal_of_collect h
  · exact .single (.undefined (fun hnil => hundefined (.inl hnil)) (nodup_unsettled hm.distinct))

/-- **A construction fails with normal errors only**, in the name of its class.  Nothing is asked of
what is nested in it. -/
theorem isNormal_of_carryOut {plan : Plan κ} (hp : plan.Regular) {call levels : Nat}
    (order : Order κ) (hi : Table.Distinct order.input)
    (h : (carryOut plan call levels order).result = .error error) :
    error.IsNormal (normalName (normalName order.className)) := by
  cases levels with
  | zero => cases h; exact .fatal rfl
  | succ levels =>
    rcases Build.bind_eq_error.mp h with h | ⟨m, hm, h⟩
    · exact hp.normal _ _ h
    · rw [← hp.name _ m hm]
      exact isNormal_of_construct (hp.wellFormed _ m hm) hi h

end Construction

/-- **Errors are in normal form.**  Whatever casts there are and whatever they fail with, an
instance that cannot be made fails with a fatal error or with a report in the name of its class: one
part for each kind of failure, in order, none of them empty, and no path twice. -/
theorem Engine.Reachable.normal_error {D : ClassDeclaration κ → Prop} {engine : Engine κ}
    (hr : Reachable D engine) {className : String} {input : Table (Value κ)} {flags : Flags}
    (hi : Table.Distinct input) {error : Error}
    (h : (engine.make className input flags).1 = .error error) :
    error.IsNormal (normalName (normalName className)) :=
  Construction.isNormal_of_carryOut hr.regular (Construction.outerOrder className input flags) hi h

namespace Atlas

/-- What a clumsy cast fails with: empty and nested aggregates, and paths that it repeats. -/
def clutter : Error :=
  .aggregate [.aggregate [], .unknownProperties "Street" ["river", "lane"],
    .aggregate [.invalidType [⟨"Street", "", "int", "3", "int"⟩],
      .unknownProperties "Lane" ["river", "river"]]]

/-- An engine for cities with a cast that is for everything and always fails. -/
def clumsyEngine : Engine Unit :=
  ({ casting := fun _ =>
      { label := "clumsy"
        accepts := fun _ _ => true
        claims := fun _ => true
        convert := fun _ _ => .done (.error clutter)
        restore := fun _ _ => .pass }
     casts := [()] } : Engine Unit).register
    ((ClassDeclaration.named "City").withProperty "name" ["string"])

theorem clutter_sorted :
    (clumsyEngine.make "\\City" [("name", .null)] .none).1 =
        .error (.aggregate [.invalidType [⟨"City", "name", "int", "3", "int"⟩],
          .unknownProperties "City" ["name.river", "name.lane"]]) ∧
      (Error.aggregate [.invalidType [⟨"City", "name", "int", "3", "int"⟩],
        .unknownProperties "City" ["name.river", "name.lane"]]).IsNormal "City" := by
  have herror : (clumsyEngine.make "\\City" [("name", .null)] .none).1 =
      .error (.aggregate [.invalidType [⟨"City", "name", "int", "3", "int"⟩],
        .unknownProperties "City" ["name.river", "name.lane"]]) := rfl
  have hnew : Engine.Reachable (fun _ => True) clumsyEngine :=
    .after (.register _) (.new rfl rfl) fun _ _ => trivial
  have hdistinct : Table.Distinct [("name", (.null : Value Unit))] := List.nodup_singleton "name"
  have hname : normalName (normalName "\\City") = "City" := by decide +kernel
  exact ⟨herror, hname ▸ hnew.normal_error hdistinct herror⟩

end Atlas

end TypedRecords
