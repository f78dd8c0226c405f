import TypedRecords.Proofs.Acceptance
import TypedRecords.Proofs.Conversions
import TypedRecords.Proofs.Usage

/-!
# Lists that are coerced item by item

Of the items of a list, some are converted by casts and the others stay as they are.  An item of the
second kind is tested by itself, before the finished list is validated, so that a failure can tell
its index.  The two tests differ: an item may belong to any element type, while the items of a list
must all belong to the same one.

* `Property.keepsElement_eq_accepts`: the early test of an item is the validation of the list that
  holds nothing else, and `Property.accepts_of_subset` says that a list is accepted only if each
  list of some of its items is.
* `Property.Becomes`: what an item is in the finished list.
* `Property.result_castValue`: what comes of the list if no cast fails.
* `Property.elements_settled`: **the early test is sound.**  It refuses no list that the validation
  would accept.
-/

namespace TypedRecords

variable {κ : Type}

/-! ## Accepted lists -/

namespace Property

variable {property : Property κ} {flags : Flags}

/-- **The early test** of an item is the validation of the list that holds nothing else. -/
theorem keepsElement_eq_accepts (property : Property κ) (flags : Flags) (item : Value κ) :
    property.keepsElement item = property.accepts flags (.list [item]) := by
  rw [Bool.eq_iff_iff, accepts_list_iff]
  simp [keepsElement, or_assoc]

theorem accepts_of_subset {items others : List (Value κ)}
    (h : property.accepts flags (.list items) = true) (hsub : others ⊆ items) :
    property.accepts flags (.list others) = true := by
  rw [accepts_list_iff] at h ⊢
  rcases h with hmixed | harray | ⟨type, ht, hall⟩
  · exact .inl hmixed
  · exact .inr (.inl harray)
  · exact .inr (.inr ⟨type, ht, fun item hitem => hall item (hsub hitem)⟩)

theorem keepsElement_of_accepts {items : List (Value κ)} {item : Value κ}
    (h : property.accepts flags (.list items) = true) (hitem : item ∈ items) :
    property.keepsElement item = true := by
  rw [keepsElement_eq_accepts property flags]
  exact accepts_of_subset h (List.cons_subset.mpr ⟨hitem, List.nil_subset items⟩)

/-! ## The finished list -/

/-- What an item of a list is in the finished list: what the cast that claims it makes of it, or
else what it is. -/
inductive Becomes (bench : Workbench κ) (property : Property κ) (site : Site) (flags : Flags) :
    Value κ × Nat → Value κ → Prop
  | converted {item : Value κ} {index : Nat} {type : TypeName} {cast : Cast κ} {w : Value κ} :
      claim? bench property.elementCasts item = some (type, cast) →
      (cast.convert bench (property.request (site.child (.element index)) flags type) item).result =
        .ok w → Becomes bench property site flags (item, index) w
  | unclaimed {item : Value κ} {index : Nat} :
      claim? bench property.elementCasts item = none →
      Becomes bench property site flags (item, index) item

/-- The failure of an item that no cast claims and that may not stay. -/
def refusal? (bench : Workbench κ) (property : Property κ) : Value κ × Nat → Option Failure
  | (item, index) =>
    if (claim? bench property.elementCasts item).isNone && !property.keepsElement item then
      some (.ofValue property.owner (toString index) property.union.elementDisplay item)
    else none

/-- The failures of the items of a list that are refused one by one, in order. -/
def refusals (bench : Workbench κ) (property : Property κ) (items : List (Value κ)) :
    List Failure :=
  items.zipIdx.filterMap (property.refusal? bench)

variable {bench : Workbench κ} {site : Site}

theorem refusal?_eq_some {item : Value κ} {index : Nat} {failure : Failure} :
    property.refusal? bench (item, index) = some failure ↔
      claim? bench property.elementCasts item = none ∧ property.keepsElement item = false ∧
        .ofValue property.owner (toString index) property.union.elementDisplay item = failure := by
  unfold refusal?
  rw [Option.ite_none_right_eq_some, Bool.and_eq_true, Option.isNone_iff_eq_none,
    Bool.not_eq_true', Option.some.injEq, and_assoc]

theorem exists_becomes {element : Value κ × Nat}
    (h : ∀ conversion ∈ property.elementConversions bench site flags element,
      ∃ w, conversion.outcome bench = .ok w) :
    ∃ w, property.Becomes bench site flags element w := by
  obtain ⟨item, index⟩ := element
  unfold elementConversions at h
  cases hclaim : claim? bench property.elementCasts item with
  | none => exact ⟨item, .unclaimed hclaim⟩
  | some entry =>
    simp only [hclaim] at h
    obtain ⟨w, hw⟩ := h _ List.mem_cons_self
    exact ⟨w, .converted hclaim hw⟩

theorem result_castElement_of_becomes {element : Value κ × Nat} {w : Value κ}
    (h : property.Becomes bench site flags element w) :
    (property.castElement bench site flags element).result =
      match property.refusal? bench element with
      | some failure => .error (.invalidType [failure])
      | none => .ok w := by
  cases h with
  | converted hclaim hw =>
    simp only [castElement, refusal?, hclaim, Option.isNone_some, Bool.false_and]
    exact Build.prefixed_eq_ok.mpr hw
  | unclaimed hclaim =>
    simp only [castElement, refusal?, hclaim, Option.isNone_none, Bool.true_and]
    cases property.keepsElement w with
    | true => rfl
    | false => rfl

theorem accepts_eq_false_of_refusal? {elements : List (Value κ × Nat)} {finished : List (Value κ)}
    (h : List.Forall₂ (property.Becomes bench site flags) elements finished)
    {element : Value κ × Nat} (helement : element ∈ elements) {failure : Failure}
    (hf : property.refusal? bench element = some failure) (kept : Flags) :
    property.accepts kept (.list finished) = false := by
  obtain ⟨item, index⟩ := element
  obtain ⟨hclaim, hk, -⟩ := refusal?_eq_some.mp hf
  obtain ⟨w, hw, hbecomes⟩ := forall₂_mem_right h.flip helement
  have hitem : item ∈ finished := by
    cases hbecomes with
    | converted hsome _ => rw [hclaim] at hsome; cases hsome
    | unclaimed _ => exact hw
  refine Bool.eq_false_iff.mpr fun ha => ?_
  rw [keepsElement_of_accepts ha hitem] at hk
  cases hk

/-! ## What comes of the list -/

variable {items finished : List (Value κ)}

theorem errorsOf_castElement {elements : List (Value κ × Nat)}
    (h : List.Forall₂ (property.Becomes bench site flags) elements finished) :
    Build.errorsOf (property.castElement bench site flags) elements =
      (elements.filterMap (property.refusal? bench)).map fun failure =>
        .invalidType [failure] := by
  rw [List.map_filterMap]
  refine List.filterMap_congr fun element helement => ?_
  obtain ⟨w, -, hbecomes⟩ := forall₂_mem_right h.flip helement
  have hstep := result_castElement_of_becomes hbecomes
  unfold Build.errorOf?
  cases hf : property.refusal? bench element with
  | some failure => rw [hf] at hstep; rw [hstep]; rfl
  | none => rw [hf] at hstep; rw [hstep]; rfl

theorem result_castElements
    (h : List.Forall₂ (property.Becomes bench site flags) items.zipIdx finished) :
    (property.castElements bench site flags items).result =
      if property.refusals bench items = [] then .ok finished
      else .error (.invalidType (property.refusals bench items)) := by
  split
  · next hnone =>
    have hkept := (List.forall₂_and_left _ _).mpr ⟨List.filterMap_eq_nil_iff.mp hnone, h⟩
    refine Build.collect_of_forall₂ (hkept.imp fun element w hboth => ?_)
    rw [result_castElement_of_becomes hboth.2, hboth.1]
  · next hsome =>
    refine Build.collect_of_invalidTypes hsome (fun failure hf => ?_) (errorsOf_castElement h)
    obtain ⟨⟨item, index⟩, -, hf⟩ := List.mem_filterMap.mp hf
    obtain ⟨-, -, rfl⟩ := refusal?_eq_some.mp hf
    rfl

/-- **What comes of a list** that is coerced item by item, if no cast fails: the items that are
refused are reported together; if there are none, the finished list is validated. -/
theorem result_castValue (hroute : property.castsElements bench items = true)
    (h : List.Forall₂ (property.Becomes bench (site.child (.property property.name))
      flags.withoutTransient) items.zipIdx finished) :
    (property.castValue bench site flags (.list items)).result =
      if property.refusals bench items = [] then
        if property.accepts flags (.list finished) then .ok (.list finished)
        else .error (property.invalid (.list finished))
      else .error (.invalidType
        ((property.refusals bench items).map (·.prefixed property.name))) := by
  have hcoerce : (property.coerce bench (site.child (.property property.name))
      flags.withoutTransient (.list items)).result =
        (property.castElements bench (site.child (.property property.name))
          flags.withoutTransient items).result.map Value.list := by
    unfold coerce
    dsimp only
    rw [if_pos hroute, Build.result_bind]
    cases (property.castElements bench _ _ items).result <;> rfl
  unfold castValue
  dsimp only
  rw [Build.result_bind, Build.result_prefixed, hcoerce, result_castElements h]
  by_cases hr : property.refusals bench items = []
  · rw [if_pos hr, if_pos hr]
    show (if property.accepts flags (.list finished) then pure (Value.list finished)
      else Build.fail (property.invalid (.list finished)) : Build κ (Value κ)).result = _
    cases property.accepts flags (.list finished) with
    | true => rfl
    | false => rfl
  · rw [if_neg hr, if_neg hr]
    rfl

theorem accepts_eq_false_of_refusals
    (h : List.Forall₂ (property.Becomes bench site flags) items.zipIdx finished)
    (hr : property.refusals bench items ≠ []) (kept : Flags) :
    property.accepts kept (.list finished) = false := by
  obtain ⟨failure, hf⟩ := List.exists_mem_of_ne_nil _ hr
  obtain ⟨element, helement, hf⟩ := List.mem_filterMap.mp hf
  exact accepts_eq_false_of_refusal? h helement hf kept

/-- **The early test is sound.**  If every cast that claims an item of the list succeeds, then each
item becomes something, and the list is cast just if the finished list is accepted: to this very
list.  Otherwise the finished list is reported, or the items that are refused by themselves. -/
theorem elements_settled (bench : Workbench κ) (property : Property κ) (site : Site)
    (flags : Flags) (items : List (Value κ))
    (hroute : property.castsElements bench items = true)
    (hcasts : ∀ conversion ∈ property.conversions bench site flags (.list items),
      ∃ w, conversion.outcome bench = .ok w) :
    ∃ finished : List (Value κ),
      List.Forall₂ (property.Becomes bench (site.child (.property property.name))
        flags.withoutTransient) items.zipIdx finished ∧
      ((∃ w, (property.castValue bench site flags (.list items)).result = .ok w) ↔
        property.accepts flags (.list finished) = true) ∧
      (∀ w, (property.castValue bench site flags (.list items)).result = .ok w →
        w = .list finished) ∧
      (property.refusals bench items ≠ [] → property.accepts flags (.list finished) = false) ∧
      ∀ error, (property.castValue bench site flags (.list items)).result = .error error →
        (property.refusals bench items = [] ∧ error = property.invalid (.list finished)) ∨
        (property.refusals bench items ≠ [] ∧
          error = .invalidType ((property.refusals bench items).map (·.prefixed property.name))) := by
  have hall : ∀ element ∈ items.zipIdx, ∃ w, property.Becomes bench
      (site.child (.property property.name)) flags.withoutTransient element w := by
    intro element helement
    refine exists_becomes fun conversion hc => hcasts conversion ?_
    show conversion ∈ property.coerceConversions bench _ _ (.list items)
    unfold coerceConversions
    dsimp only
    rw [if_pos hroute]
    exact List.mem_flatMap.mpr ⟨element, helement, hc⟩
  obtain ⟨finished, hfinished⟩ := exists_forall₂_iff.mpr hall
  have hsound := fun hr => accepts_eq_false_of_refusals hfinished hr flags
  refine ⟨finished, hfinished, ?_⟩
  rw [result_castValue hroute hfinished]
  by_cases hr : property.refusals bench items = []
  · rw [if_pos hr]
    cases ha : property.accepts flags (.list finished) with
    | true => simp [hr, eq_comm]
    | false => simp [hr, eq_comm]
  · rw [if_neg hr, hsound hr]
    simp [hr, eq_comm]

end Property

/-! ## Stops of a journey -/

namespace Atlas

/-- A property for lists of cities and for lists of names. -/
def stops : Property Empty where
  owner := "Journey"
  name := "stops"
  union := ⟨[], [.named "City", .keyword .string]⟩
  casts := []
  elementCasts := [(.named "City", .instances)]
  default := none

/-- Input for a city. -/
def lyon : Value Empty := .map [("name", .text "Lyon"), ("people", .int 522250)]

/-- What conversions of the atlas may rely on. -/
def bench : Workbench Empty := Construction.outerBench engine.plan 0

/-- Input for a journey: a city, a name, and what is neither. -/
def tour : List (Value Empty) := [lyon, .text "Brest", .int 3]

/-- The name passes the early test, though a city stands beside it.  The number does not: it is
reported at its index. -/
theorem tour_settled : ∃ finished : List (Value Empty),
    List.Forall₂ (stops.Becomes bench ⟨0, 0, [.property "stops"]⟩ Flags.none.withoutTransient)
      tour.zipIdx finished ∧
    stops.accepts .none (.list finished) = false ∧
    (stops.castValue bench ⟨0, 0, []⟩ .none (.list tour)).result =
      .error (.invalidType [⟨"Journey", "stops.2", "City|string", "3", "int"⟩]) := by
  have hroute : stops.castsElements bench tour = true := rfl
  have hcasts : ∀ conversion ∈ stops.conversions bench ⟨0, 0, []⟩ .none (.list tour),
      ∃ w, conversion.outcome bench = .ok w := by
    intro conversion hc
    rw [List.mem_singleton.mp hc]
    exact ⟨_, rfl⟩
  obtain ⟨finished, hfinished, hok, -, hsound, herror⟩ :=
    stops.elements_settled bench ⟨0, 0, []⟩ .none tour hroute hcasts
  have hrefusals : stops.refusals bench tour = [⟨"Journey", "2", "City|string", "3", "int"⟩] := by
    decide +kernel
  have hrefused : stops.refusals bench tour ≠ [] := hrefusals ▸ List.cons_ne_nil _ _
  have haccepts := hsound hrefused
  refine ⟨finished, hfinished, haccepts, ?_⟩
  cases hresult : (stops.castValue bench ⟨0, 0, []⟩ .none (.list tour)).result with
  | ok w =>
    rw [hok.mp ⟨w, hresult⟩] at haccepts
    cases haccepts
  | error error =>
    rcases herror error hresult with ⟨hnone, -⟩ | ⟨-, rfl⟩
    · exact absurd hnone hrefused
    · rw [hrefusals]
      rfl

end Atlas

end TypedRecords
