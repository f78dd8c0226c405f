import TypedRecords.Proofs.Outcomes
import TypedRecords.Proofs.Prefixes
import TypedRecords.Proofs.Usage

/-!
# No failure is lost

Failures are collected in three places: over the properties of an instance, over the items of a list
and over the members of a collection.  In each of them an item has an error of its own, which does
not depend on the others.  As long as no such error is fatal, the error of the whole reports what
the single errors report: all of it, in order, in the name of the class, and from its own place.

* `Error.Reports`: an error holds what a list of errors holds, in order.
* `Engine.entryErrors`, `Property.itemErrors`, `Cast.memberErrors`: the single errors.
* `Construction.construct_reports`, `Property.castElements_reports`,
  `Cast.convertCollection_reports`: **no failure is lost.**
-/

namespace TypedRecords

variable {κ : Type}

namespace Error

/-- The error reports in the name of `owner` what the errors report, paths without repetition. -/
structure Reports (error : Error) (owner : String) (errors : List Error) : Prop where
  invalidTypes : error.invalidTypes = (errors.flatMap Error.invalidTypes).map (·.withOwner owner)
  unknownPaths : error.unknownPaths = (errors.flatMap Error.unknownPaths).eraseDups
  undefinedPaths : error.undefinedPaths = (errors.flatMap Error.undefinedPaths).eraseDups

/-- No error has a fatal leaf, and some error reports something. -/
structure Collectable (errors : List Error) : Prop where
  mergeable : ∀ error ∈ errors, error.isMergeable = true
  something : ∃ error ∈ errors,
    error.invalidTypes ≠ [] ∨ error.unknownPaths ≠ [] ∨ error.undefinedPaths ≠ []

end Error

namespace Build

variable {α β : Type} {step : α → Build κ β} {items : List α}

theorem reports_of_collect (owner : String) (h : Error.Collectable (errorsOf step items)) :
    ∃ error, (collect owner step items).result = .error error ∧
      error.Reports owner (errorsOf step items) := by
  obtain ⟨e, he, hsome⟩ := h.something
  have hnot : ¬ e.IsSilent := by
    rintro ⟨-, hi, hu, hd⟩
    rcases hsome with hsome | hsome | hsome
    · exact hsome hi
    · exact hsome hu
    · exact hsome hd
  obtain ⟨error, hr, hi, hu, hd⟩ := collect_reports owner h.mergeable ⟨e, he, hnot⟩
  exact ⟨error, hr, hi, hu, hd⟩

theorem errorsOf_eq_filterMap {own : α → Build κ β} {head : α → String}
    (h : ∀ item ∈ items, (step item).result = (Build.prefixed (head item) (own item)).result) :
    errorsOf step items =
      items.filterMap fun item => (own item).errorOf?.map (·.prefixed (head item)) := by
  refine List.filterMap_congr fun item hi => ?_
  unfold errorOf?
  rw [h item hi, result_prefixed]
  cases (own item).result <;> rfl

end Build

/-! ## Items of a list -/

namespace Property

/-- Coerces an item of a list by itself: without its position, which is in `site` already. -/
def castItem (bench : Workbench κ) (property : Property κ) (site : Site) (flags : Flags)
    (item : Value κ) : Build κ (Value κ) :=
  match claim? bench property.elementCasts item with
  | some (type, cast) => cast.convert bench (property.request site flags type) item
  | none =>
    if property.keepsElement item then pure item
    else .fail (.invalidType
      [.ofValue property.owner "" property.union.elementDisplay item])

/-- The errors of the items of a list, each from its position. -/
def itemErrors (bench : Workbench κ) (property : Property κ) (site : Site) (flags : Flags)
    (items : List (Value κ)) : List Error :=
  items.zipIdx.filterMap fun (item, index) =>
    (property.castItem bench (site.child (.element index)) flags item).errorOf?.map
      (·.prefixed (toString index))

variable {bench : Workbench κ} {property : Property κ} {site : Site} {flags : Flags}

theorem result_castElement (element : Value κ × Nat) :
    (property.castElement bench site flags element).result =
      (Build.prefixed (toString element.2)
        (property.castItem bench (site.child (.element element.2)) flags element.1)).result := by
  obtain ⟨item, index⟩ := element
  unfold castElement castItem
  dsimp only
  cases claim? bench property.elementCasts item with
  | some entry => rfl
  | none =>
    dsimp only
    split <;> rfl

/-- **No failure of an item is lost.** -/
theorem castElements_reports {items : List (Value κ)}
    (h : Error.Collectable (property.itemErrors bench site flags items)) :
    ∃ error, (property.castElements bench site flags items).result = .error error ∧
      error.Reports property.owner (property.itemErrors bench site flags items) := by
  have herrors : Build.errorsOf (property.castElement bench site flags) items.zipIdx =
      property.itemErrors bench site flags items :=
    Build.errorsOf_eq_filterMap fun element _ => result_castElement element
  rw [← herrors] at h ⊢
  exact Build.reports_of_collect property.owner h

end Property

/-! ## Members of a collection -/

namespace Cast

/-- The member of a collection that stands for a value by itself. -/
def convertMember (bench : Workbench κ) (request : CastRequest) (itemClass : String) :
    Value κ → Build κ (Origin × Instance κ)
  | .map input => do
    let made ← bench.nested request.place itemClass input request.flags
    return (request.origin, made)
  | .record origin r =>
    if r.isInstanceOf itemClass then pure (origin, r)
    else .fail (.invalidType [.ofValue request.owner "" itemClass (.record origin r)])
  | other => .fail (.invalidType [.ofValue request.owner "" itemClass other])

/-- The errors of the members of a collection, each from its position. -/
def memberErrors (bench : Workbench κ) (request : CastRequest) (itemClass : String)
    (elements : List (Value κ)) : List Error :=
  elements.zipIdx.filterMap fun (element, index) =>
    (convertMember bench (request.child (.element index)) itemClass element).errorOf?.map
      (·.prefixed (toString index))

variable {bench : Workbench κ} {request : CastRequest}

theorem result_convertItem (itemClass : String) (element : Value κ × Nat) :
    (convertItem bench request itemClass element).result =
      (Build.prefixed (toString element.2)
        (convertMember bench (request.child (.element element.2)) itemClass element.1)).result := by
  obtain ⟨value, index⟩ := element
  unfold convertItem convertMember
  cases value with
  | record origin r =>
    dsimp only
    split <;> rfl
  | _ => rfl

/-- **No failure of a member is lost.** -/
theorem convertCollection_reports {declaration : CollectionDeclaration} {elements : List (Value κ)}
    (hd : request.type.className?.bind bench.registry.collection? = some declaration)
    (h : Error.Collectable (memberErrors bench request declaration.itemClass elements)) :
    ∃ error, (convertCollection bench request (.list elements)).result = .error error ∧
      error.Reports request.owner (memberErrors bench request declaration.itemClass elements) := by
  have herrors : Build.errorsOf (convertItem bench request declaration.itemClass) elements.zipIdx =
      memberErrors bench request declaration.itemClass elements :=
    Build.errorsOf_eq_filterMap fun element _ => result_convertItem _ element
  rw [← herrors] at h ⊢
  obtain ⟨error, hr, hreports⟩ := Build.reports_of_collect request.owner h
  refine ⟨error, ?_, hreports⟩
  unfold convertCollection
  rw [hd]
  exact Build.bind_eq_error.mpr (.inl hr)

end Cast

/-! ## Properties of an instance -/

theorem Flags.intersects_lenientUnknown (flags : Flags) :
    flags.withoutTransient.intersects lenientUnknown = flags.intersects lenientUnknown := by
  have hbits : ~~~transient.bits &&& lenientUnknown.bits = lenientUnknown.bits := by decide
  unfold intersects withoutTransient difference
  rw [UInt16.and_assoc, hbits]

namespace Construction

/-- The errors of the supplied properties, each cast by itself, in order of the input. -/
def suppliedErrors (bench : Workbench κ) (m : Metadata κ) (site : Site) (flags : Flags)
    (input : Table (Value κ)) : List Error :=
  input.filterMap fun (name, value) =>
    (m.property? name).bind fun property => (property.castValue bench site flags value).errorOf?

variable {bench : Workbench κ} {m : Metadata κ} {site : Site} {flags : Flags}
  {input : Table (Value κ)}

theorem errorsOf_castEntry : Build.errorsOf (castEntry bench m site flags) input =
    suppliedErrors bench m site flags input := by
  refine List.filterMap_congr fun entry _ => ?_
  obtain ⟨name, value⟩ := entry
  unfold castEntry
  dsimp only
  cases m.property? name with
  | none => rfl
  | some property =>
    unfold Build.errorOf?
    dsimp only
    rw [Build.result_bind, Option.bind_some]
    cases (property.castValue bench site flags value).result <;> rfl

/-- **No failure of a property is lost.** -/
theorem construct_reports
    (hu : unknownKeys m input = [] ∨ flags.intersects .lenientUnknown = true)
    (h : Error.Collectable (suppliedErrors bench m site flags input)) :
    ∃ error, (construct bench m site input flags).result = .error error ∧
      error.Reports m.name (suppliedErrors bench m site flags input) := by
  rw [← errorsOf_castEntry] at h ⊢
  obtain ⟨error, hr, hreports⟩ := Build.reports_of_collect m.name h
  exact ⟨error, construct_eq_error.mpr (.inr ⟨hu, .inl hr⟩), hreports⟩

end Construction

namespace Engine

/-- The errors of the supplied properties, each cast by itself, in order of the input. -/
def entryErrors (engine : Engine κ) (m : Metadata κ) (flags : Flags) (input : Table (Value κ)) :
    List Error :=
  input.filterMap fun (name, value) =>
    (m.property? name).bind fun property =>
      match (engine.castValue property value flags.withoutTransient).1 with
      | .error error => some error
      | .ok _ => none

variable {engine : Engine κ} {m : Metadata κ} {className : String} {flags : Flags}
  {input : Table (Value κ)}

theorem result_make (hm : engine.metadata className = .ok m) :
    (engine.make className input flags).1 =
      (Construction.construct (Construction.outerBench engine.plan engine.calls) m
        ⟨0, engine.calls, []⟩ input flags.withoutTransient).result := by
  have hmade : (engine.make className input flags).1 =
      (Construction.construct (Construction.outerBench engine.plan engine.calls) m
        (Construction.siteOf engine.plan engine.calls engine.plan.maxDepth []) input
        flags.withoutTransient).result := Construction.result_makeWithin hm
  rw [hmade]
  unfold Construction.siteOf
  rw [Nat.sub_self]

theorem entryErrors_eq : engine.entryErrors m flags input =
    Construction.suppliedErrors (Construction.outerBench engine.plan engine.calls) m
      ⟨0, engine.calls, []⟩ flags.withoutTransient input := by
  refine List.filterMap_congr fun entry _ => ?_
  obtain ⟨name, value⟩ := entry
  dsimp only
  refine congrArg (Option.bind (m.property? name)) (funext fun property => ?_)
  unfold Build.errorOf? Engine.castValue Engine.perform Construction.castValue
  dsimp only
  split <;> next hr => rw [hr]

theorem make_reports (hm : engine.metadata className = .ok m)
    (hu : Construction.unknownKeys m input = [] ∨ flags.intersects .lenientUnknown = true)
    (h : Error.Collectable (engine.entryErrors m flags input)) :
    ∃ error, (engine.make className input flags).1 = .error error ∧
      error.Reports m.name (engine.entryErrors m flags input) := by
  rw [entryErrors_eq] at h ⊢
  rw [← Flags.intersects_lenientUnknown] at hu
  rw [result_make hm]
  exact Construction.construct_reports hu h

end Engine

/-- **No failure is lost.**  Over the supplied properties of an instance, over the items of a list
and over the members of a collection: if no single error has a fatal leaf and some error reports
something, then the whole fails with an error that reports what the single errors do, in order. -/
theorem failures_reported :
    (∀ (engine : Engine κ) (className : String) (m : Metadata κ) (input : Table (Value κ))
      (flags : Flags), engine.metadata className = .ok m →
      Construction.unknownKeys m input = [] ∨ flags.intersects .lenientUnknown = true →
      Error.Collectable (engine.entryErrors m flags input) →
      ∃ error, (engine.make className input flags).1 = .error error ∧
        error.Reports m.name (engine.entryErrors m flags input)) ∧
    (∀ (bench : Workbench κ) (property : Property κ) (site : Site) (flags : Flags)
      (items : List (Value κ)),
      Error.Collectable (property.itemErrors bench site flags items) →
      ∃ error, (property.castElements bench site flags items).result = .error error ∧
        error.Reports property.owner (property.itemErrors bench site flags items)) ∧
    (∀ (bench : Workbench κ) (request : CastRequest) (declaration : CollectionDeclaration)
      (elements : List (Value κ)),
      request.type.className?.bind bench.registry.collection? = some declaration →
      Error.Collectable (Cast.memberErrors bench request declaration.itemClass elements) →
      ∃ error, (Cast.convertCollection bench request (.list elements)).result = .error error ∧
        error.Reports request.owner
          (Cast.memberErrors bench request declaration.itemClass elements)) :=
  ⟨fun _ _ _ _ _ hm hu h => Engine.make_reports hm hu h,
    fun _ _ _ _ _ h => Property.castElements_reports h,
    fun _ _ _ _ hd h => Cast.convertCollection_reports hd h⟩

theorem Atlas.muddle_reported : ∃ error, (engine.make "Country" muddle .none).1 = .error error ∧
    error.invalidTypes.map Failure.path = ["name", "ports.0", "ports.1.people"] ∧
    error.unknownPaths = ["capital.river"] ∧ error.undefinedPaths = ["towns.0.people"] := by
  obtain ⟨m, hm⟩ : ∃ m, engine.metadata "Country" = .ok m := ⟨_, rfl⟩
  have hknown : Construction.unknownKeys m muddle = [] := by cases hm; rfl
  have hcollectable : Error.Collectable (engine.entryErrors m .none muddle) := by
    cases hm
    exact ⟨by decide +kernel, by decide +kernel⟩
  obtain ⟨error, herror, hreports⟩ :=
    failures_reported.1 engine "Country" m muddle .none hm (.inl hknown) hcollectable
  refine ⟨error, herror, ?_, ?_, ?_⟩
  · rw [hreports.invalidTypes]
    cases hm
    decide +kernel
  · rw [hreports.unknownPaths]
    cases hm
    decide +kernel
  · rw [hreports.undefinedPaths]
    cases hm
    decide +kernel

end TypedRecords
