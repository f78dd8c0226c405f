import TypedRecords.Engine.Run
import TypedRecords.Proofs.Usage

/-!
# Sharing in the course of a call

A call may consult the metadata of many classes, and of one class many times, on its way down to
nested instances.  Step by step it finds what it has kept before; but it may also be carried out
with the metadata as it was at its start, which is noted and kept in the end.  Both come to the same,
also if the call fails halfway: what a class comes to is not changed by keeping it.

* `Engine.Follows`: steps that are taken with the engine at hand follow a `Build`.
* `Engine.Reachable.follows_makeIn`: **making an instance step by step follows making it from notes**,
  at any depth.
* `Engine.Reachable.perform_eq_live`: **calls step by step** come to the same and leave the same
  engine behind.
-/

namespace TypedRecords

variable {κ α β : Type}

namespace Engine

variable {D : ClassDeclaration κ → Prop} {engine later : Engine κ}

/-! ## Steps that follow a build -/

/-- The build notes what the engine gives.  The steps, taken with the engine at hand however much of
that it has kept before, end as the build does and keep what it notes. -/
structure Follows (engine : Engine κ) (run : Run κ α) (build : Build κ α) : Prop where
  given : ∀ m ∈ build.consulted, ∃ className, engine.metadata className = .ok m
  runs : ∀ later, engine.Grows later → run later = (build.result, build.consulted.foldl keep later)

theorem Grows.foldl_keep (h : engine.Grows later) {more : List (Metadata κ)}
    (hmore : ∀ m ∈ more, ∃ className, engine.metadata className = .ok m) :
    engine.Grows (more.foldl keep later) := by
  obtain ⟨kept, calls, hkept, rfl⟩ := h
  refine ⟨kept ++ more, calls, fun m hm => ?_, List.foldl_append.symm⟩
  rcases List.mem_append.mp hm with hm | hm
  · exact hkept m hm
  · exact hmore m hm

theorem follows_pure (a : α) : engine.Follows (pure a) (pure a) :=
  ⟨fun _ hm => absurd hm List.not_mem_nil, fun _ _ => rfl⟩

theorem Follows.mapResult {run : Run κ α} {build : Build κ α} (h : engine.Follows run build)
    (change : Except Error α → Except Error β) :
    engine.Follows (Fallible.mapResult change run) (Fallible.mapResult change build) := by
  refine ⟨h.given, fun later hl => ?_⟩
  show (change (run later).1, (run later).2) = _
  rw [h.runs later hl]
  rfl

theorem Follows.bind {run : Run κ α} {build : Build κ α} {next : α → Run κ β}
    {next' : α → Build κ β} (h : engine.Follows run build)
    (hnext : ∀ a, engine.Follows (next a) (next' a)) :
    engine.Follows (run >>= next) (build >>= next') := by
  obtain ⟨consulted, result⟩ := build
  cases result with
  | error error =>
    exact ⟨h.given, fun later hl => Run.bind_of_error (h.runs later hl) next⟩
  | ok a =>
    refine ⟨fun m hm => ?_, fun later hl => ?_⟩
    · rcases List.mem_append.mp hm with hm | hm
      · exact h.given m hm
      · exact (hnext a).given m hm
    · calc (run >>= next) later = next a (consulted.foldl keep later) :=
            Run.bind_of_ok (h.runs later hl) next
        _ = ((next' a).result, (next' a).consulted.foldl keep (consulted.foldl keep later)) :=
            (hnext a).runs _ (hl.foldl_keep h.given)
        _ = _ := congrArg _ List.foldl_append.symm

theorem follows_fail (error : Error) :
    engine.Follows (Build.fail error : Run κ α) (Build.fail error) :=
  (follows_pure ()).mapResult _

theorem follows_ofResult (result : Except Error α) :
    engine.Follows (Build.ofResult result : Run κ α) (Build.ofResult result) :=
  (follows_pure ()).mapResult _

theorem follows_collect {step : α → Run κ β} {step' : α → Build κ β}
    (h : ∀ item, engine.Follows (step item) (step' item)) (owner : String) (items : List α) :
    engine.Follows (Build.collect owner step items) (Build.collect owner step' items) := by
  -- The two collect the same on the way, so they stop at the same item if they stop.
  suffices hwith : ∀ report, engine.Follows (Build.collectWith step report items)
      (Build.collectWith step' report items) from hwith { owner }
  induction items with
  | nil => exact fun report => (follows_ofResult report.finish).bind fun _ => follows_pure []
  | cons item rest ih =>
    intro report
    refine ((h item).mapResult .ok).bind fun made => ?_
    cases made with
    | ok made => exact (ih report).bind fun others => follows_pure (made :: others)
    | error error =>
      dsimp only
      rcases report.absorb error with ⟨report', _ | fatal⟩
      · exact ih report'
      · exact follows_fail fatal

/-! ## Conversions -/

/-- Nested instances that are made step by step follow others. -/
def FollowsNested (engine : Engine κ) (nested : NestedIn (Run κ) κ) (nested' : Nested κ) : Prop :=
  ∀ place className input flags, engine.Follows (nested place className input flags)
    (nested' place className input flags)

section Conversions

variable {nested : NestedIn (Run κ) κ} {nested' : Nested κ} {casting : Casting κ}
  {registry : Registry κ}

theorem FollowsNested.convertInstance (h : engine.FollowsNested nested nested')
    (request : CastRequest) (value : Value κ) :
    engine.Follows (Cast.convertInstance ⟨casting, registry, nested⟩ request value)
      (Cast.convertInstance ⟨casting, registry, nested'⟩ request value) := by
  unfold Cast.convertInstance
  cases request.type.className? with
  | none => exact follows_fail _
  | some className =>
    cases value with
    | map input => exact (h _ _ _ _).bind fun made => follows_pure _
    | _ => exact follows_fail _

theorem FollowsNested.convertItem (h : engine.FollowsNested nested nested')
    (request : CastRequest) (itemClass : String) (element : Value κ × Nat) :
    engine.Follows (Cast.convertItem ⟨casting, registry, nested⟩ request itemClass element)
      (Cast.convertItem ⟨casting, registry, nested'⟩ request itemClass element) := by
  obtain ⟨value, index⟩ := element
  unfold Cast.convertItem
  cases value with
  | map input => exact ((h _ _ _ _).bind fun made => follows_pure _).mapResult _
  | record origin r =>
    dsimp only
    split
    · exact follows_pure _
    · exact follows_fail _
  | _ => exact follows_fail _

theorem FollowsNested.convertCollection (h : engine.FollowsNested nested nested')
    (request : CastRequest) (value : Value κ) :
    engine.Follows (Cast.convertCollection ⟨casting, registry, nested⟩ request value)
      (Cast.convertCollection ⟨casting, registry, nested'⟩ request value) := by
  unfold Cast.convertCollection
  dsimp only
  cases request.type.className?.bind registry.collection? with
  | none => exact follows_fail _
  | some declaration =>
    cases value with
    | list elements =>
      refine Follows.bind (follows_collect (fun element => ?_) _ _) fun items => follows_pure _
      exact h.convertItem request declaration.itemClass element
    | _ => exact follows_fail _

theorem FollowsNested.runProgram (h : engine.FollowsNested nested nested') (request : CastRequest)
    (count : Nat) (program : CastProgram κ) :
    engine.Follows (Cast.runProgram ⟨casting, registry, nested⟩ request count program)
      (Cast.runProgram ⟨casting, registry, nested'⟩ request count program) := by
  induction program generalizing count with
  | done result => exact follows_ofResult result
  | make className input next ih =>
    exact ((h _ _ _ _).mapResult .ok).bind fun made => ih made _
  | castInstance value next ih =>
    exact ((h.convertInstance _ value).mapResult .ok).bind fun made => ih made _
  | castCollection value next ih =>
    exact ((h.convertCollection _ value).mapResult .ok).bind fun made => ih made _

theorem FollowsNested.convert (h : engine.FollowsNested nested nested') (request : CastRequest)
    (value : Value κ) (cast : Cast κ) :
    engine.Follows (cast.convert ⟨casting, registry, nested⟩ request value)
      (cast.convert ⟨casting, registry, nested'⟩ request value) := by
  cases cast with
  | instances => exact h.convertInstance request value
  | collections => exact h.convertCollection request value
  | custom handle => exact h.runProgram request 0 _

variable {property : Property κ} {site : Site} {flags : Flags}

theorem FollowsNested.castElement (h : engine.FollowsNested nested nested')
    (element : Value κ × Nat) :
    engine.Follows (property.castElement ⟨casting, registry, nested⟩ site flags element)
      (property.castElement ⟨casting, registry, nested'⟩ site flags element) := by
  obtain ⟨item, index⟩ := element
  unfold Property.castElement Property.claim?
  dsimp only
  cases property.elementCasts.find? fun entry => entry.2.claims casting item with
  | some entry => exact (h.convert _ item entry.2).mapResult _
  | none =>
    dsimp only
    split
    · exact follows_pure item
    · exact follows_fail _

theorem FollowsNested.coerceWhole (h : engine.FollowsNested nested nested') (value : Value κ) :
    engine.Follows (property.coerceWhole ⟨casting, registry, nested⟩ site flags value)
      (property.coerceWhole ⟨casting, registry, nested'⟩ site flags value) := by
  unfold Property.coerceWhole Property.claim?
  dsimp only
  cases property.casts.find? fun entry => entry.2.claims casting value with
  | some entry => exact h.convert _ value entry.2
  | none =>
    dsimp only
    cases property.readInteger? value with
    | some n => exact follows_pure _
    | none => exact follows_pure _

theorem FollowsNested.coerce (h : engine.FollowsNested nested nested') (value : Value κ) :
    engine.Follows (property.coerce ⟨casting, registry, nested⟩ site flags value)
      (property.coerce ⟨casting, registry, nested'⟩ site flags value) := by
  cases value with
  | list items =>
    -- Which way a list goes is for the casting to say, which is the same.
    have hroute : property.castsElements ⟨casting, registry, nested⟩ items =
        property.castsElements ⟨casting, registry, nested'⟩ items := rfl
    unfold Property.coerce
    dsimp only
    rw [hroute]
    split
    · exact (follows_collect h.castElement _ _).bind fun made => follows_pure _
    · exact h.coerceWhole _
  | _ => exact h.coerceWhole _

theorem FollowsNested.castValue (h : engine.FollowsNested nested nested') (value : Value κ) :
    engine.Follows (property.castValue ⟨casting, registry, nested⟩ site flags value)
      (property.castValue ⟨casting, registry, nested'⟩ site flags value) := by
  refine ((h.coerce value).mapResult _).bind fun coerced => ?_
  split
  · exact follows_pure coerced
  · exact follows_fail _

/-! ## Constructions -/

theorem FollowsNested.castEntry (h : engine.FollowsNested nested nested') (m : Metadata κ)
    (entry : String × Value κ) :
    engine.Follows (Construction.castEntry ⟨casting, registry, nested⟩ m site flags entry)
      (Construction.castEntry ⟨casting, registry, nested'⟩ m site flags entry) := by
  unfold Construction.castEntry
  cases m.property? entry.1 with
  | none => exact follows_pure none
  | some property => exact (h.castValue entry.2).bind fun value => follows_pure _

theorem FollowsNested.construct (h : engine.FollowsNested nested nested') (m : Metadata κ)
    (input : Table (Value κ)) :
    engine.Follows (Construction.construct ⟨casting, registry, nested⟩ m site input flags)
      (Construction.construct ⟨casting, registry, nested'⟩ m site input flags) := by
  unfold Construction.construct
  dsimp only
  split
  · exact follows_fail _
  · refine (follows_collect (h.castEntry m) _ _).bind fun cast => ?_
    split
    · exact follows_fail _
    · exact follows_pure _

end Conversions

theorem Reachable.follows_consult (hr : Reachable D engine) (className : String) :
    engine.Follows (Run.consult className) (Build.consult (engine.metadata className)) := by
  refine ⟨fun m hm => ?_, fun later hl => ?_⟩
  · cases hc : engine.metadata className with
    | error error => rw [hc] at hm; cases hm
    | ok metadata => rw [hc] at hm; exact ⟨className, List.mem_singleton.mp hm ▸ hc⟩
  · -- What has been kept meanwhile is what the class came to anyway.
    have hsame : later.metadata className = engine.metadata className :=
      congrFun (congrArg PlanIn.metadata (hr.plan_grows hl)) className
    unfold Run.consult Build.consult
    rw [hsame]
    cases engine.metadata className <;> rfl

/-- **Making an instance step by step follows making it from notes**, by induction on the levels that
are left for it. -/
theorem Reachable.follows_makeIn (hr : Reachable D engine) (call levels : Nat) :
    engine.FollowsNested (Construction.makeIn engine.livePlan call levels)
      (Construction.makeWithin engine.plan call levels) := by
  induction levels with
  | zero => exact fun _ _ _ _ => follows_fail _
  | succ levels ih =>
    intro place className input flags
    exact (hr.follows_consult className).bind fun m => ih.construct m input

theorem Follows.perform_eq_live {run : Nat → Run κ α} {build : Nat → Build κ α}
    (h : engine.Follows (run engine.calls) (build engine.calls)) :
    engine.perform build = engine.performLive run :=
  (h.runs _ ⟨[], engine.calls + 1, List.forall_mem_nil _, rfl⟩).symm

/-- **Calls step by step come to the same**, whatever has been done with the engine before: the same
result or error, and the same engine afterwards. -/
theorem Reachable.perform_eq_live (hr : Reachable D engine) :
    (∀ className, engine.consult className = engine.performLive fun _ => Run.consult className) ∧
    (∀ className input flags,
      engine.make className input flags = engine.makeLive className input flags) ∧
    ∀ property value flags,
      engine.castValue property value flags = engine.castValueLive property value flags := by
  refine ⟨fun className => ?_, fun className input flags => ?_, fun property value flags => ?_⟩
  · exact Follows.perform_eq_live (hr.follows_consult className)
  · exact Follows.perform_eq_live (hr.follows_makeIn _ _ _ _ _ _)
  · exact Follows.perform_eq_live (FollowsNested.castValue (hr.follows_makeIn _ _) value)

end Engine

/-- What has been consulted on the way to a failure stays known. -/
example : (Atlas.engine.makeLive "Country" Atlas.muddle .none).2.cache.keys = ["Country", "City"] := by
  decide +kernel

end TypedRecords
