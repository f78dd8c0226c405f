import TypedRecords.Proofs.Cache
import TypedRecords.Proofs.ExactOutcome
import TypedRecords.Proofs.Invariant
import TypedRecords.Proofs.NormalForm
import TypedRecords.Proofs.Resubmission
import TypedRecords.Proofs.Twins

/-!
# Writing and making

A value may come to a property in two ways: it is written, or it is part of the input that an
instance is made from.  It is coerced and validated alike, but what may go wrong goes out by
different routes.  An error of a write is tagged with the class as it is; an error of the input
is taken in by a collector, which records what its leaves report and puts an error together anew.

These two give the same.  The built-in casts fail with errors in normal form only, and a collector
that takes in such an error, and nothing else, gives it back with its own tag.

* `Error.IsNormal.settleWith_eq`: **a single error in normal form goes through a collector
  unchanged but for its tag.**
* `Property.isNormal_of_castValue`: the built-in casts fail with errors in normal form.
* `Engine.InUse`: instances in use, with the name that their class was asked for by.
* `Engine.InUse.write_agrees`: **a write and a construction agree**, on errors and on values.
-/

namespace TypedRecords

variable {κ : Type}

/-! ## Reports and their parts -/

namespace Collector

variable {report : Collector}

theorem eq_nil_of_rank_lt {rank : Nat} (h : ∀ part ∈ report.errors, rank < part.rank) :
    report.invalid = [] ∧ (1 ≤ rank → report.unknown = []) ∧
      (2 ≤ rank → report.undefined = []) := by
  refine ⟨?_, fun hrank => ?_, fun hrank => ?_⟩
  · by_contra hne
    have hlt : rank < 0 := h (.invalidType report.invalid) (by simp [errors, hne])
    omega
  · by_contra hne
    have hlt : rank < 1 :=
      h (.unknownProperties report.owner report.unknown) (by simp [errors, hne])
    omega
  · by_contra hne
    have hlt : rank < 2 :=
      h (.undefinedProperties report.owner report.undefined) (by simp [errors, hne])
    omega

/-- Parts of a report, at most one of each kind and in order, are those of some collector. -/
theorem exists_of_isPart {owner : String} {errors : List Error}
    (hparts : ∀ e ∈ errors, e.IsPart owner)
    (hsorted : errors.Pairwise fun a b => a.rank < b.rank) :
    ∃ report : Collector, report.Tidy ∧ report.owner = owner ∧ report.errors = errors := by
  induction errors with
  | nil => exact ⟨{ owner }, ⟨nofun, List.nodup_nil, List.nodup_nil⟩, rfl, rfl⟩
  | cons error rest ih =>
    obtain ⟨habove, hsorted⟩ := List.pairwise_cons.mp hsorted
    obtain ⟨report, htidy, rfl, rfl⟩ :=
      ih (fun e he => hparts e (List.mem_cons_of_mem _ he)) hsorted
    -- what comes behind is of later kinds only
    obtain ⟨hinvalid, hunknown, hundefined⟩ := eq_nil_of_rank_lt habove
    cases hparts error List.mem_cons_self with
    | @invalid failures hne howner =>
      refine ⟨{ report with invalid := failures },
        ⟨howner, htidy.unknown, htidy.undefined⟩, rfl, ?_⟩
      simp [errors, hne, hinvalid]
    | @unknown paths hne hnodup =>
      have hunknown : report.unknown = [] := hunknown le_rfl
      refine ⟨{ report with unknown := paths },
        ⟨htidy.invalid, hnodup, htidy.undefined⟩, rfl, ?_⟩
      simp [errors, hne, hinvalid, hunknown]
    | @undefined paths hne hnodup =>
      have hunknown : report.unknown = [] := hunknown (show 1 ≤ 2 by decide)
      have hundefined : report.undefined = [] := hundefined le_rfl
      refine ⟨{ report with undefined := paths },
        ⟨htidy.invalid, htidy.unknown, hnodup⟩, rfl, ?_⟩
      simp [errors, hne, hinvalid, hunknown, hundefined]

/-- A collector with the failures of another, all of them its own now. -/
def withOwner (report : Collector) (owner : String) : Collector :=
  { report with owner, invalid := report.invalid.map (·.withOwner owner) }

theorem toError?_withOwner (report : Collector) (owner : String) :
    (report.withOwner owner).toError? = report.toError?.map (·.withOwner owner) := by
  obtain ⟨owner', invalid, unknown, undefined⟩ := report
  cases invalid <;> cases unknown <;> cases undefined <;> rfl

/-- A collector that takes in what another one reports holds the same. -/
theorem merge_toError? (h : report.Tidy) {error : Error} (he : report.toError? = some error)
    (owner : String) : merge { owner } [error] = report.withOwner owner := by
  obtain ⟨hi, hu, hd, -⟩ := toError?_eq_some he
  rw [merge_empty, List.flatMap_singleton, List.flatMap_singleton, List.flatMap_singleton, hi, hu,
    hd, eraseDups_of_nodup h.unknown, eraseDups_of_nodup h.undefined]
  rfl

end Collector

namespace Error

variable {error : Error} {owner : String}

theorem withOwner_of_isFatal (h : error.isFatal = true) (owner : String) :
    error.withOwner owner = error := by
  cases error <;> first | rfl | simp [isFatal, isAggregatable] at h

/-- An error in normal form is fatal, or some collector reports it. -/
theorem IsNormal.exists_report (h : error.IsNormal owner) :
    error.isFatal = true ∨ ∃ report : Collector, report.Tidy ∧ report.toError? = some error := by
  cases h with
  | fatal hf => exact .inl hf
  | @single error hpart =>
    have hparts : ∀ e ∈ [error], e.IsPart owner := fun e he => List.mem_singleton.mp he ▸ hpart
    obtain ⟨report, htidy, -, herrors⟩ :=
      Collector.exists_of_isPart hparts (List.pairwise_singleton _ _)
    exact .inr ⟨report, htidy, by unfold Collector.toError?; rw [herrors]⟩
  | @several errors hlength hparts hsorted =>
    obtain ⟨report, htidy, -, herrors⟩ := Collector.exists_of_isPart hparts hsorted
    refine .inr ⟨report, htidy, ?_⟩
    unfold Collector.toError?
    rw [herrors]
    match errors, hlength with
    | _ :: _ :: _, _ => rfl

/-- **A single error in normal form goes through a collector unchanged but for its tag.** -/
theorem IsNormal.settleWith_eq {β : Type} (h : error.IsNormal owner) (owner' : String)
    (made : List β) :
    Build.settleWith { owner := owner' } [error] made = .error (error.withOwner owner') := by
  rcases h.exists_report with hf | ⟨report, htidy, he⟩
  · have hleaves : leavesAll [error] = [error] := by
      have hself : error.leaves = [error] :=
        leaves_eq_singleton fun errors => by rintro rfl; cases hf
      rw [leavesAll, hself]
      rfl
    unfold Build.settleWith
    rw [hleaves, List.find?_cons_of_pos hf, withOwner_of_isFatal hf]
  · have hm : error.isMergeable = true := (Collector.toError?_eq_some he).2.2.2
    have hnone : (leavesAll [error]).find? (·.isFatal) = none :=
      Build.find?_leavesAll_eq_none_iff.mpr fun e he => List.mem_singleton.mp he ▸ hm
    unfold Build.settleWith
    rw [hnone]
    dsimp only
    rw [Collector.merge_toError? htidy he, Collector.toError?_withOwner, he]
    rfl

end Error

/-! ## Errors from further out -/

namespace Error

variable {error : Error} {owner : String}

theorem IsPart.prefixed (h : error.IsPart owner) (head : String) :
    (error.prefixed head).IsPart owner := by
  cases h with
  | @invalid failures hne howner =>
    refine .invalid (mt List.map_eq_nil_iff.mp hne) fun failure hf => ?_
    obtain ⟨original, ho, rfl⟩ := List.mem_map.mp hf
    exact howner original ho
  | unknown hne hnodup =>
    exact .unknown (mt List.map_eq_nil_iff.mp hne) (hnodup.map (joinPath_injective head))
  | undefined hne hnodup =>
    exact .undefined (mt List.map_eq_nil_iff.mp hne) (hnodup.map (joinPath_injective head))

theorem rank_prefixed (head : String) (error : Error) :
    (error.prefixed head).rank = error.rank := by
  cases error <;> rfl

theorem IsNormal.prefixed (h : error.IsNormal owner) (head : String) :
    (error.prefixed head).IsNormal owner := by
  cases h with
  | fatal hf => exact .fatal (by rwa [isFatal_prefixed])
  | single hpart => exact .single (hpart.prefixed head)
  | @several errors hlength hparts hsorted =>
    show (aggregate (prefixedAll head errors)).IsNormal owner
    rw [prefixedAll_eq_map]
    refine .several (by rwa [List.length_map]) (fun e he => ?_) (List.pairwise_map.mpr ?_)
    · obtain ⟨original, ho, rfl⟩ := List.mem_map.mp he
      exact (hparts original ho).prefixed head
    · simpa only [rank_prefixed] using hsorted

theorem isNormal_invalidType (failure : Failure) : (invalidType [failure]).IsNormal failure.owner :=
  .single (.invalid (List.cons_ne_nil _ _) fun other ho => by rw [List.mem_singleton.mp ho])

end Error

/-! ## What the built-in casts fail with -/

namespace Cast

variable {bench : Workbench κ} {request : CastRequest} {cast : Cast κ} {value : Value κ}
  {error : Error}

theorem isNormal_of_convert (hb : cast.isBuiltIn = true)
    (hnested : ∀ order, Table.Distinct order.input → ∀ e, (bench.carryOut order).result = .error e →
      ∃ owner, e.IsNormal owner)
    (hv : ∀ input, value = .map input → Table.Distinct input)
    (h : (cast.convert bench request value).result = .error error) :
    ∃ owner, error.IsNormal owner := by
  cases cast with
  | custom handle => cases hb
  | instances =>
    have h : (convertInstance bench request value).result = .error error := h
    unfold convertInstance at h
    split at h
    · cases h
      exact ⟨"", .fatal rfl⟩
    · cases value with
      | map input =>
        rcases Build.bind_eq_error.mp h with h | ⟨_, -, h⟩
        · exact hnested ⟨_, _, input, _⟩ (hv input rfl) error h
        · cases h
      | _ =>
        cases h
        exact ⟨_, Error.isNormal_invalidType _⟩
  | collections =>
    have h : (convertCollection bench request value).result = .error error := h
    unfold convertCollection at h
    split at h
    · cases h
      exact ⟨"", .fatal rfl⟩
    · split at h
      · rcases Build.bind_eq_error.mp h with h | ⟨_, -, h⟩
        · exact ⟨_, Build.isNormal_of_collect h⟩
        · cases h
      · cases h
        exact ⟨_, Error.isNormal_invalidType _⟩

end Cast

namespace Property

variable {bench : Workbench κ} {property : Property κ} {site : Site} {flags : Flags}
  {value : Value κ} {error : Error}

/-- **The built-in casts fail with errors in normal form**, and so does validation. -/
theorem isNormal_of_castValue (hb : property.IsBuiltIn)
    (hnested : ∀ order, Table.Distinct order.input → ∀ e, (bench.carryOut order).result = .error e →
      ∃ owner, e.IsNormal owner)
    (hv : ∀ input, value = .map input → Table.Distinct input)
    (h : (property.castValue bench site flags value).result = .error error) :
    ∃ owner, error.IsNormal owner := by
  rcases Build.bind_eq_error.mp h with h | ⟨coerced, -, h⟩
  · obtain ⟨inner, hinner, rfl⟩ := Build.prefixed_eq_error.mp h
    have hnormal : ∃ owner, inner.IsNormal owner := by
      rcases coerce_cases bench property (site.child (.property property.name))
        flags.withoutTransient value with ⟨items, rfl, -, hcoerce, -⟩ | ⟨-, hcoerce, -⟩
      · rw [hcoerce] at hinner
        rcases Build.bind_eq_error.mp hinner with hinner | ⟨_, -, hinner⟩
        · exact ⟨_, Build.isNormal_of_collect hinner⟩
        · cases hinner
      · rw [hcoerce] at hinner
        unfold coerceWhole at hinner
        split at hinner
        · next type cast hclaim =>
          have hcast := hb.casts _ (List.mem_of_find?_eq_some hclaim)
          exact Cast.isNormal_of_convert hcast hnested hv hinner
        · split at hinner <;> cases hinner
    obtain ⟨owner, hnormal⟩ := hnormal
    exact ⟨owner, hnormal.prefixed _⟩
  · split at h
    · cases h
    · cases h
      exact ⟨_, Error.isNormal_invalidType _⟩

end Property

/-! ## One class under two names -/

/-- Metadata depends on the key by the name of the class, and notes the key besides. -/
theorem Metadata.resolve_congr {casting : Casting κ} {registry : Registry κ} {casts : List κ}
    {generation : Nat} {key other : String} (h : normalName key = normalName other)
    {m : Metadata κ} (hm : resolve casting registry casts generation other = .ok m) :
    resolve casting registry casts generation key = .ok { m with key } := by
  unfold resolve at hm ⊢
  dsimp only at hm ⊢
  rw [h]
  obtain ⟨chain, hchain, hm⟩ := except_bind_eq_ok.mp hm
  obtain ⟨flat, hflat, hm⟩ := except_bind_eq_ok.mp hm
  obtain ⟨properties, hproperties, hm⟩ := except_bind_eq_ok.mp hm
  cases hm
  refine except_bind_eq_ok.mpr ⟨chain, hchain, ?_⟩
  refine except_bind_eq_ok.mpr ⟨flat, hflat, ?_⟩
  exact except_bind_eq_ok.mpr ⟨properties, hproperties, rfl⟩

/-! ## Instances in use -/

namespace Engine

variable {engine : Engine κ} {record : Instance κ} {asked : String}

/-- An instance in use on an engine without custom casts, whose class has been asked for by the name
`asked`.  Since it was built, by itself or within another, nothing has been declared or dropped. -/
inductive InUse : Engine κ → String → Instance κ → Prop
  | built {engine : Engine κ} {levels : Nat} {order : Order κ} {record : Instance κ} :
    Reachable ClassDeclaration.WithoutCasts engine → engine.casts = [] →
      (Construction.carryOut engine.plan engine.calls levels order).result = .ok record →
        InUse engine order.className record
  | used {engine : Engine κ} {asked : String} {record : Instance κ} (operation : Operation κ) :
    InUse engine asked record → operation.isUse = true → InUse (engine.after operation) asked record
  | written {engine : Engine κ} {asked : String} {record written : Instance κ} {name : String}
    {value : Value κ} : InUse engine asked record → (engine.set record name value).1 = .ok written →
      InUse (engine.set record name value).2 asked written

/-- What is known of an instance in use. -/
structure Serves (engine : Engine κ) (asked : String) (record : Instance κ) : Prop where
  reachable : Reachable ClassDeclaration.WithoutCasts engine
  casts : engine.casts = []
  metadata : engine.metadata asked = .ok record.metadata
  wellFormed : record.WellFormed
  flags : record.flags.withoutTransient = record.flags

theorem Serves.grows (h : engine.Serves asked record) {later : Engine κ} (hg : engine.Grows later)
    (hr : Reachable ClassDeclaration.WithoutCasts later) : later.Serves asked record where
  reachable := hr
  casts := by rw [hg.eq]; exact h.casts
  metadata := by
    have hplan := h.reachable.plan_grows hg
    exact (congrFun (congrArg PlanIn.metadata hplan) asked).trans h.metadata
  wellFormed := h.wellFormed
  flags := h.flags

theorem InUse.serves (h : InUse engine asked record) : engine.Serves asked record := by
  induction h with
  | @built engine levels order record hr hcasts hmade =>
    have hp : engine.plan.Native := hr.native (fun _ hd => hd) hcasts
    obtain ⟨hwellFormed, hflags⟩ := Construction.wellFormed_of_makeWithin hp.wellFormed order hmade
    obtain ⟨levels', m, -, hm, hmade⟩ := Construction.makeWithin_eq_ok.mp hmade
    obtain ⟨-, cast, -, -, rfl⟩ := Construction.construct_eq_ok.mp hmade
    exact ⟨hr, hcasts, hm, hwellFormed, Flags.withoutTransient_idem _⟩
  | used operation _ hu ih =>
    refine ih.grows (grows_after hu) (ih.reachable.after operation ?_)
    rintro declaration rfl
    cases hu
  | @written engine asked record written name value _ hset ih =>
    have hgrows : engine.Grows (engine.after (.set record name value)) := grows_after rfl
    have hlater := ih.grows hgrows (ih.reachable.after (.set record name value) nofun)
    obtain ⟨hwellFormed, hsame⟩ := set_step ih.wellFormed hset
    refine ⟨hlater.reachable, hlater.casts, ?_, hwellFormed, ?_⟩
    · rw [hsame.metadata]
      exact hlater.metadata
    · rw [hsame.flags]
      exact ih.flags

/-- The class of an instance, which has been asked for by `asked`, may be asked for by `className`
as well: the two are the same but for one backslash, or nothing that is kept is out of date and they
name the same class. -/
def AlsoNamed (engine : Engine κ) (asked className : String) : Prop :=
  normalName className = normalName asked ∨
    engine.Fresh ∧ normalName (normalName className) = normalName (normalName asked)

/-- The class is the same under both names, but for the key. -/
theorem Serves.metadata_of_alsoNamed (h : engine.Serves asked record) {className : String}
    (hn : engine.AlsoNamed asked className) :
    ∃ key, engine.metadata className = .ok { record.metadata with key } := by
  rcases hn with hn | ⟨hf, hn⟩
  · have hsame : engine.metadata className = .ok record.metadata :=
      (metadata_congr hn).trans h.metadata
    refine ⟨record.metadata.key, hsame.trans ?_⟩
    cases record.metadata
    rfl
  · have hmetadata := h.metadata
    rw [hf.metadata] at hmetadata ⊢
    exact ⟨_, Metadata.resolve_congr hn hmetadata⟩

/-! ## The outcome of a write -/

variable {name : String} {value : Value κ} {property : Property κ} {className : String}
  {m : Metadata κ} {flags : Flags}

theorem set_eq_error (hmutable : record.flags.contains .mutable = true)
    (hp : record.metadata.property? name = some property) {error : Error}
    (h : (engine.set record name value).1 = .error error) :
    ∃ inner, (engine.castValue property value record.flags).1 = .error inner ∧
      error = inner.withOwner record.className := by
  unfold set at h
  rw [hmutable, hp] at h
  dsimp only at h
  cases hcast : (engine.castValue property value record.flags).1 with
  | error inner =>
    rw [hcast] at h
    cases h
    exact ⟨inner, rfl, rfl⟩
  | ok w =>
    rw [hcast] at h
    cases h

section Single

variable (hm : engine.metadata className = .ok m) (hflags : flags.withoutTransient = flags)
  (hp : m.property? name = some property)

include hm hflags hp

/-- Input with a single entry that cannot be cast is refused with the error of the cast. -/
theorem make_single_of_error {inner : Error} {owner : String} (hnormal : inner.IsNormal owner)
    (hcast : (engine.castValue property value flags).1 = .error inner) :
    (engine.make className [(name, value)] flags).1 = .error (inner.withOwner m.name) := by
  have hdeclared : m.declares name = true := by
    rw [← Bool.not_eq_false, ← Metadata.property?_eq_none_iff, hp]
    exact Option.some_ne_none _
  have hentry : (Construction.castEntry (Construction.outerBench engine.plan engine.calls) m
      ⟨0, engine.calls, []⟩ flags (name, value)).result = .error inner := by
    unfold Construction.castEntry
    rw [hp]
    exact Build.bind_eq_error.mpr (.inl hcast)
  rw [result_make hm, hflags]
  refine Construction.construct_eq_error.mpr (.inr ⟨.inl ?_, .inl ?_⟩)
  · exact Construction.unknownKeys_eq_nil_iff.mpr fun key hkey =>
      List.mem_singleton.mp hkey ▸ hdeclared
  · rw [Build.result_collect, Build.errorsOf_cons_error hentry]
    exact hnormal.settleWith_eq m.name _

variable (hr : Reachable ClassDeclaration.WithoutCasts engine) (hcasts : engine.casts = [])

include hr hcasts

theorem stored?_of_make {w : Value κ} (hcast : (engine.castValue property value flags).1 = .ok w)
    {input : Table (Value κ)} (hi : Table.Distinct input)
    (hget : Table.get? input name = some value) {made : Instance κ}
    (h : (engine.make className input flags).1 = .ok made) :
    made.stored? name = some w := by
  obtain ⟨-, hyields⟩ := hr.yields hcasts hm hi h
  obtain ⟨w', hw', hstored⟩ := hyields.supplied _ (Table.mem_of_get? hget) property hp
  rw [hflags, hcast] at hw'
  cases hw'
  exact hstored

theorem make_single_of_ok {w : Value κ} (hcast : (engine.castValue property value flags).1 = .ok w)
    {error : Error} (h : (engine.make className [(name, value)] flags).1 = .error error) :
    error = .undefinedProperties m.name (Construction.lacking m flags [(name, value)]) ∧
      Construction.lacking m flags [(name, value)] ≠ [] := by
  have hentry : engine.CastsAll m [(name, value)] flags := by
    intro entry he declared hd
    obtain rfl := List.mem_singleton.mp he
    rw [hp] at hd
    cases hd
    exact ⟨w, by rw [hflags]; exact hcast⟩
  have hknown : Tolerates m [(name, value)] flags := by
    refine .inl fun key hkey => ?_
    rw [List.mem_singleton.mp hkey, ← Bool.not_eq_false, ← Metadata.property?_eq_none_iff, hp]
    exact Option.some_ne_none _
  cases hr.refuses hcasts hm h with
  | unknown hnot => exact absurd hknown hnot
  | fatal _ hfirst =>
    rw [entryErrors_eq_nil_iff.mpr hentry] at hfirst
    cases hfirst
  | invalid _ hne => exact absurd (entryErrors_eq_nil_iff.mpr hentry) hne
  | undefined _ _ hincomplete =>
    refine ⟨rfl, fun hnil => hincomplete ?_⟩
    exact .inr (Construction.lacking_eq_nil_iff.mp hnil)

end Single

/-! ## Writes and constructions at different times -/

theorem InUse.afterAll (h : InUse engine asked record) {operations : List (Operation κ)}
    (hu : ∀ operation ∈ operations, operation.isUse = true) :
    InUse (engine.afterAll operations) asked record := by
  induction operations generalizing engine with
  | nil => exact h
  | cons operation rest ih =>
    exact ih (h.used operation (hu operation List.mem_cons_self)) fun other ho =>
      hu other (List.mem_cons_of_mem _ ho)

theorem Reachable.plan_afterAll {D : ClassDeclaration κ → Prop} (hr : Reachable D engine)
    {operations : List (Operation κ)} (hu : ∀ operation ∈ operations, operation.isUse = true) :
    (engine.afterAll operations).plan = engine.plan := by
  induction operations generalizing engine with
  | nil => rfl
  | cons operation rest ih =>
    have hfirst := hu operation List.mem_cons_self
    have hafter : Reachable D (engine.after operation) := by
      refine hr.after operation ?_
      rintro declaration rfl
      cases hfirst
    exact (ih hafter fun other ho => hu other (List.mem_cons_of_mem _ ho)).trans
      (hr.plan_grows (grows_after hfirst))

theorem matches_castValue {other : Engine κ} (hplan : other.plan = engine.plan)
    (hp : engine.plan.Native) (hb : property.IsBuiltIn) (value : Value κ) (flags : Flags) :
    Matches Value.Twin (engine.castValue property value flags).1
      (other.castValue property value flags).1 := by
  have hbench := Construction.twin_benchOf (fun className m hm declared hd =>
    (hp.properties className m hm declared hd).isBuiltIn) engine.calls other.calls
    engine.plan.maxDepth
  show Matches _ (Construction.castValue engine.plan engine.calls property flags value).result
    (Construction.castValue other.plan other.calls property flags value).result
  rw [hplan]
  exact Property.matches_castValue hbench hb _ _ flags value

/-- The outcome of a cast depends on the plan and on the calls made so far, and on nothing else. -/
theorem castValue_eq_of_calls_eq {other : Engine κ} (hplan : other.plan = engine.plan)
    (hcalls : other.calls = engine.calls) (value : Value κ) (flags : Flags) :
    (other.castValue property value flags).1 = (engine.castValue property value flags).1 := by
  show (Construction.castValue other.plan other.calls property flags value).result =
    (Construction.castValue engine.plan engine.calls property flags value).result
  rw [hplan, hcalls]

theorem Reachable.isNormal_of_castValue {D : ClassDeclaration κ → Prop} (hr : Reachable D engine)
    (hb : property.IsBuiltIn) (hv : value.KeysDistinct) {error : Error}
    (h : (engine.castValue property value flags).1 = .error error) :
    ∃ owner, error.IsNormal owner := by
  refine Property.isNormal_of_castValue hb (fun order hi e he => ?_) (fun input hinput => ?_) h
  · exact ⟨_, Construction.isNormal_of_carryOut hr.regular order hi he⟩
  · subst hinput
    exact hv [] input .here

/-- **A write and a construction agree.**  Let an instance be in use that is mutable.  Let one of
its properties be written, and let instances of its class be made under its flags, at any time from
now on, in any order, with nothing declared or dropped meanwhile.  If the write fails, then making
an instance from this entry alone fails with the same error.  If it succeeds, then whatever is made
of input with this entry holds what the write stores, and from this entry alone an instance is made
unless other properties are missing. -/
theorem InUse.write_agrees (h : InUse engine asked record)
    (hmutable : record.flags.contains .mutable = true) {uses uses' : List (Operation κ)}
    (hu : ∀ operation ∈ uses, operation.isUse = true)
    (hu' : ∀ operation ∈ uses', operation.isUse = true) (hn : engine.AlsoNamed asked className)
    (hd : record.metadata.declares name = true) (hv : value.KeysDistinct) :
    let writing := engine.afterAll uses
    let making := engine.afterAll uses'
    (∀ error, (writing.set record name value).1 = .error error →
      (making.make className [(name, value)] record.flags).1 = .error error) ∧
    ∀ written, (writing.set record name value).1 = .ok written →
      ∃ w, written.stored? name = some w ∧
        (∀ input made, Table.Distinct input → Table.get? input name = some value →
          (making.make className input record.flags).1 = .ok made →
            ∃ w', made.stored? name = some w' ∧ w.Twin w' ∧
              (making.calls = writing.calls → w' = w)) ∧
        ∀ error, (making.make className [(name, value)] record.flags).1 = .error error →
          error = .undefinedProperties record.className
            (Construction.lacking record.metadata record.flags [(name, value)]) ∧
          Construction.lacking record.metadata record.flags [(name, value)] ≠ [] := by
  intro writing making
  have hserves := h.serves
  have hmaking : making.Serves asked record := (h.afterAll hu').serves
  have hplan : writing.plan = engine.plan := hserves.reachable.plan_afterAll hu
  have hplan' : making.plan = engine.plan := hserves.reachable.plan_afterAll hu'
  obtain ⟨property, hp⟩ : ∃ property, record.metadata.property? name = some property := by
    rw [← Option.ne_none_iff_exists', Ne, Metadata.property?_eq_none_iff, hd, Bool.true_eq_false]
    exact not_false
  have hnative : making.plan.Native := hmaking.reachable.native (fun _ hd => hd) hmaking.casts
  have hbuiltIn : property.IsBuiltIn :=
    (hnative.properties _ _ hmaking.metadata property (Metadata.property?_eq_some hp).1).isBuiltIn
  obtain ⟨key, hm⟩ := hserves.metadata_of_alsoNamed hn
  have hm : making.metadata className = .ok { record.metadata with key } :=
    (congrFun (congrArg PlanIn.metadata hplan') className).trans hm
  have htwins : Matches Value.Twin (writing.castValue property value record.flags).1
      (making.castValue property value record.flags).1 :=
    matches_castValue (hplan'.trans hplan.symm) (hplan.trans hplan'.symm ▸ hnative) hbuiltIn value _
  refine ⟨fun error herror => ?_, fun written hwritten => ?_⟩
  · obtain ⟨inner, hinner, rfl⟩ := set_eq_error hmutable hp herror
    rw [hinner] at htwins
    generalize hcast : (making.castValue property value record.flags).1 = outcome at htwins
    cases htwins
    obtain ⟨owner, hnormal⟩ := hmaking.reachable.isNormal_of_castValue hbuiltIn hv hcast
    exact make_single_of_error hm h.serves.flags hp hnormal hcast
  · obtain ⟨found, w, hfound, hw, rfl⟩ := set_eq_ok hwritten
    obtain rfl : found = property := Option.some.inj (hfound.symm.trans hp)
    rw [hw] at htwins
    generalize hcast : (making.castValue found value record.flags).1 = outcome at htwins
    cases htwins with
    | @ok _ w' htwin =>
    refine ⟨w, ?_, fun input made hi hget hmade => ⟨w', ?_, htwin, fun hcalls => ?_⟩,
      fun error herror => ?_⟩
    · rw [Instance.stored?_put hserves.wellFormed hp, if_pos rfl]
    · exact stored?_of_make hm hserves.flags hp hmaking.reachable hmaking.casts hcast hi hget hmade
    · have hsame : (making.castValue found value record.flags).1 =
          (writing.castValue found value record.flags).1 :=
        castValue_eq_of_calls_eq (hplan'.trans hplan.symm) hcalls value _
      rw [hcast, hw] at hsame
      cases hsame
      rfl
    · exact make_single_of_ok hm hserves.flags hp hmaking.reachable hmaking.casts hcast herror

end Engine

namespace Atlas

/-- A capital with a river, which cities do not have. -/
def riverside : Value Empty := .map [("name", .text "Paris"), ("river", .text "Seine")]

/-- Towns for a country. -/
def towns : Value Empty := .list [.map [("name", .text "Lyon"), ("people", .int 522250)]]

/-- What an outcome reports of unknown properties, if it is an error. -/
def unknowns {α : Type} : Except Error α → Option (List String)
  | .error error => some error.unknownPaths
  | .ok _ => none

theorem unknowns_eq_some {α : Type} {outcome : Except Error α} {paths : List String}
    (h : unknowns outcome = some paths) :
    ∃ error, outcome = .error error ∧ error.unknownPaths = paths := by
  cases outcome with
  | error error => exact ⟨error, rfl, Option.some.inj h⟩
  | ok a => cases h

theorem unknowns_eq_none {α : Type} {outcome : Except Error α} (h : unknowns outcome = none) :
    ∃ a, outcome = .ok a := by
  cases outcome with
  | error error => cases h
  | ok a => exact ⟨a, rfl⟩

/-- A country is written.  A capital with a river is refused as it is in input, later on and under
another spelling of the class, and towns are stored as they are from input. -/
theorem france_written : ∃ record error written w made w',
    (engine.make "Country" france .mutable).1 = .ok record ∧
      (engine.set record "capital" riverside).1 = .error error ∧
      error.unknownPaths = ["capital.river"] ∧
      ((engine.set record "capital" riverside).2.make "\\Country" [("capital", riverside)]
        record.flags).1 = .error error ∧
      (engine.set record "towns" towns).1 = .ok written ∧ written.stored? "towns" = some w ∧
      ((engine.set record "capital" riverside).2.make "\\Country" france record.flags).1 =
        .ok made ∧
      made.stored? "towns" = some w' ∧ w.Twin w' := by
  obtain ⟨record, hrecord, hmutable, hcapital, htowns, written, hwritten⟩ :
      ∃ record, (engine.make "Country" france .mutable).1 = .ok record ∧
        record.flags.contains .mutable = true ∧ record.metadata.declares "capital" = true ∧
        record.metadata.declares "towns" = true ∧
        ∃ written, (engine.set record "towns" towns).1 = .ok written :=
    ⟨_, rfl, rfl, rfl, rfl, _, rfl⟩
  have hrefused : ((engine.make "Country" france .mutable).1.toOption.map fun record =>
      unknowns (engine.set record "capital" riverside).1) = some (some ["capital.river"]) := by
    decide +kernel
  have hgoes : ((engine.make "Country" france .mutable).1.toOption.map fun record =>
      unknowns ((engine.set record "capital" riverside).2.make "\\Country" france
        record.flags).1) = some none := by
    decide +kernel
  rw [hrecord] at hrefused hgoes
  obtain ⟨error, herror, hpaths⟩ := unknowns_eq_some (Option.some.inj hrefused)
  obtain ⟨made, hmade⟩ := unknowns_eq_none (Option.some.inj hgoes)
  have hbuilt : (Construction.carryOut engine.plan engine.calls (engine.plan.maxDepth + 1)
      (Construction.outerOrder "Country" france .mutable)).result = .ok record := hrecord
  have huse : Engine.InUse engine "Country" record :=
    .built (reachable ⟨rfl, rfl⟩ ⟨rfl, rfl⟩) rfl hbuilt
  have hnone : ∀ operation ∈ ([] : List (Operation Empty)), operation.isUse = true := nofun
  have hset : ∀ operation ∈ [Operation.set record "capital" riverside], operation.isUse = true :=
    fun operation ho => List.mem_singleton.mp ho ▸ rfl
  have hname : engine.AlsoNamed "Country" "\\Country" := .inl (by decide +kernel)
  have htext : ∀ s : String, (.text s : Value Empty).KeysDistinct :=
    fun _ => Value.keysDistinct_of_isScalar rfl
  have hint : ∀ n : Int64, (.int n : Value Empty).KeysDistinct :=
    fun _ => Value.keysDistinct_of_isScalar rfl
  have hriverside : riverside.KeysDistinct := by
    simp [riverside, Table.Distinct, Table.keys, htext]
  have hdistinct : towns.KeysDistinct := by
    simp [towns, Table.Distinct, Table.keys, htext, hint]
  have hfrance : Table.Distinct france := by simp [france, Table.Distinct, Table.keys]
  obtain ⟨hfails, -⟩ := huse.write_agrees hmutable hnone hset hname hcapital hriverside
  obtain ⟨-, hstores⟩ := huse.write_agrees hmutable hnone hset hname htowns hdistinct
  obtain ⟨w, hw, hall, -⟩ := hstores written hwritten
  obtain ⟨w', hw', htwin, -⟩ := hall france made hfrance rfl hmade
  exact ⟨record, error, written, w, made, w', hrecord, herror, hpaths, hfails _ herror, hwritten,
    hw, hmade, hw', htwin⟩

end Atlas

end TypedRecords
