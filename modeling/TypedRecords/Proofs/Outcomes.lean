import TypedRecords.Proofs.Orders
import TypedRecords.Proofs.Tables

/-!
# Outcomes

What a step of a conversion or of a construction gives when it succeeds, and how a construction
fails, in terms of the steps that they are made of.

* `Cast.convertInstance_eq_ok`, `Cast.convertItem_eq_ok`: **the built-in casts build nothing but
  what they order.**
* `Property.coerce_cases`: item by item, or as a whole.
* `Property.castValue_eq_ok`: a coerced value that is accepted.
* `Construction.construct_eq_ok`, `Construction.makeWithin_eq_ok`: the instance that is made.
* `Construction.construct_eq_error`: the three ways in which none is made, one after another.
-/

namespace TypedRecords

variable {κ : Type}

/-! ## Casts -/

namespace Cast

variable {bench : Workbench κ} {request : CastRequest} {value w : Value κ}

theorem convertInstance_eq_ok : (convertInstance bench request value).result = .ok w ↔
    ∃ order ∈ instanceOrders request value, ∃ r,
      (bench.carryOut order).result = .ok r ∧ w = .record request.origin r := by
  unfold convertInstance instanceOrders
  cases request.type.className? with
  | none => simp
  | some className =>
    cases value with
    | map input =>
      rw [Build.bind_eq_ok]
      constructor
      · rintro ⟨r, hr, hw⟩
        cases hw
        exact ⟨_, List.mem_singleton_self _, r, hr, rfl⟩
      · rintro ⟨order, ho, r, hr, rfl⟩
        rw [List.mem_singleton.mp ho] at hr
        exact ⟨r, hr, rfl⟩
    | _ => simp

theorem convertItem_eq_ok {itemClass : String} {element : Value κ × Nat}
    {item : Origin × Instance κ} :
    (convertItem bench request itemClass element).result = .ok item ↔
      (∃ order ∈ memberOrders request itemClass element,
        (bench.carryOut order).result = .ok item.2 ∧
          item.1 = (request.child (.element element.2)).origin) ∨
      (element.1 = .record item.1 item.2 ∧ item.2.isInstanceOf itemClass = true) := by
  obtain ⟨value, index⟩ := element
  obtain ⟨origin, r⟩ := item
  cases value with
  | map input =>
    simp only [convertItem, memberOrders, List.mem_singleton, exists_eq_left, reduceCtorEq,
      false_and, or_false]
    rw [Build.prefixed_eq_ok, Build.bind_eq_ok]
    constructor
    · rintro ⟨r', hr, hi⟩
      cases hi
      exact ⟨hr, rfl⟩
    · rintro ⟨hr, rfl⟩
      exact ⟨r, hr, rfl⟩
  | record origin' r' =>
    by_cases hc : r'.isInstanceOf itemClass = true
    · simp only [convertItem, memberOrders, hc, if_true, Build.result_pure, Except.ok.injEq,
        Prod.mk.injEq, List.not_mem_nil, false_and, exists_false, false_or, Value.record.injEq]
      constructor
      · rintro ⟨rfl, rfl⟩
        exact ⟨⟨rfl, rfl⟩, hc⟩
      · rintro ⟨h, -⟩
        exact h
    · simp only [convertItem, memberOrders, hc, List.not_mem_nil, false_and,
        exists_false, false_or, Value.record.injEq]
      constructor
      · nofun
      · rintro ⟨⟨rfl, rfl⟩, h⟩
        exact absurd h hc
  | _ => simp [convertItem, memberOrders]

theorem convertCollection_eq_ok : (convertCollection bench request value).result = .ok w ↔
    ∃ declaration elements items,
      request.type.className?.bind bench.registry.collection? = some declaration ∧
      value = .list elements ∧
      (Build.collect request.owner (convertItem bench request declaration.itemClass)
        elements.zipIdx).result = .ok items ∧
      w = .object request.origin (.collection declaration.name declaration.itemClass items) := by
  unfold convertCollection
  cases request.type.className?.bind bench.registry.collection? with
  | none => simp
  | some declaration =>
    cases value with
    | list elements =>
      rw [Build.bind_eq_ok]
      constructor
      · rintro ⟨items, hi, hw⟩
        cases hw
        exact ⟨_, _, items, rfl, rfl, hi, rfl⟩
      · rintro ⟨_, _, items, hd, hv, hi, rfl⟩
        cases hd
        cases hv
        exact ⟨items, hi, rfl⟩
    | _ => simp

end Cast

/-! ## Properties -/

namespace Property

variable {bench : Workbench κ} {property : Property κ} {site : Site} {flags : Flags}
  {value w : Value κ}

/-- A value is coerced item by item or as a whole. -/
theorem coerce_cases (bench : Workbench κ) (property : Property κ) (site : Site) (flags : Flags)
    (value : Value κ) :
    (∃ items, value = .list items ∧ property.castsElements bench items = true ∧
      property.coerce bench site flags value =
        (do return .list (← property.castElements bench site flags items)) ∧
      property.coerceOrders bench site flags value =
        items.zipIdx.flatMap (property.elementOrders bench site flags)) ∨
    (∀ items, value = .list items → property.castsElements bench items = false) ∧
      property.coerce bench site flags value = property.coerceWhole bench site flags value ∧
      property.coerceOrders bench site flags value =
        property.wholeOrders bench site flags value := by
  cases value with
  | list items =>
    cases he : property.castsElements bench items with
    | true => exact .inl ⟨items, rfl, he, if_pos he, if_pos he⟩
    | false =>
      refine .inr ⟨fun _ h => by cases h; exact he, ?_, ?_⟩
      · exact if_neg (by rw [he]; exact Bool.false_ne_true)
      · exact if_neg (by rw [he]; exact Bool.false_ne_true)
  | _ => exact .inr ⟨nofun, rfl, rfl⟩

theorem castValue_eq_ok : (property.castValue bench site flags value).result = .ok w ↔
    (property.coerce bench (site.child (.property property.name)) flags.withoutTransient
        value).result = .ok w ∧
      property.accepts flags w = true := by
  unfold castValue
  rw [Build.bind_eq_ok]
  constructor
  · rintro ⟨coerced, hc, h⟩
    split at h
    · next ha =>
      cases h
      exact ⟨Build.prefixed_eq_ok.mp hc, ha⟩
    · cases h
  · rintro ⟨hc, ha⟩
    refine ⟨w, Build.prefixed_eq_ok.mpr hc, ?_⟩
    rw [if_pos ha]
    rfl

end Property

/-! ## Instances -/

namespace Construction

variable {bench : Workbench κ} {metadata : Metadata κ} {site : Site} {flags : Flags}
  {input : Table (Value κ)} {r : Instance κ}

/-- An entry that is cast: a declared one that gives a value, or an undeclared one. -/
theorem castEntry_eq_ok {entry : String × Value κ} {cast : Option (String × Value κ)} :
    (castEntry bench metadata site flags entry).result = .ok cast ↔
      (metadata.property? entry.1 = none ∧ cast = none) ∨
      ∃ property w, metadata.property? entry.1 = some property ∧
        (property.castValue bench site flags entry.2).result = .ok w ∧ cast = some (entry.1, w) := by
  unfold castEntry
  cases metadata.property? entry.1 with
  | none => simp [eq_comm]
  | some property =>
    simp only [Build.bind_eq_ok, Build.result_pure, reduceCtorEq, false_and, Option.some.injEq,
      false_or]
    constructor
    · rintro ⟨w, hw, h⟩
      cases h
      exact ⟨property, w, rfl, hw, rfl⟩
    · rintro ⟨_, w, rfl, hw, rfl⟩
      exact ⟨w, hw, rfl⟩

/-- What is made of input of which `supplied` has been cast. -/
def assembled (metadata : Metadata κ) (flags : Flags) (input supplied : Table (Value κ)) :
    Instance κ :=
  { metadata, flags
    stored := settle metadata flags supplied
    tracked := trackedEntries metadata flags input }

/-- The condition under which names are an error. -/
theorem blocks_iff {names : List String} {tolerated : Bool} :
    (!names.isEmpty && !tolerated) = true ↔ ¬ (names = [] ∨ tolerated = true) := by
  cases names <;> cases tolerated <;> simp

theorem construct_eq_ok : (construct bench metadata site input flags).result = .ok r ↔
    (unknownKeys metadata input = [] ∨ flags.intersects .lenientUnknown = true) ∧
    ∃ cast, (Build.collect metadata.name (castEntry bench metadata site flags) input).result
        = .ok cast ∧
      (unsettled metadata flags (cast.filterMap id) = [] ∨ flags.contains .incomplete = true) ∧
      r = assembled metadata flags input (cast.filterMap id) := by
  unfold construct
  dsimp only
  by_cases hu : unknownKeys metadata input = [] ∨ flags.intersects .lenientUnknown = true
  · rw [if_neg fun h => blocks_iff.mp h hu, Build.bind_eq_ok, and_iff_right hu]
    refine exists_congr fun cast => and_congr_right fun _ => ?_
    by_cases hd : unsettled metadata flags (cast.filterMap id) = [] ∨
        flags.contains .incomplete = true
    · rw [if_neg fun h => blocks_iff.mp h hd, and_iff_right hd, Build.result_pure, Except.ok.injEq]
      exact eq_comm
    · rw [if_pos (blocks_iff.mpr hd)]
      exact iff_of_false nofun fun h => hd h.1
  · rw [if_pos (blocks_iff.mpr hu)]
    exact iff_of_false nofun fun h => hu h.1

/-- A construction fails at keys that are not declared, or else at values that cannot be cast, or
else at properties that are left without a value. -/
theorem construct_eq_error {error : Error} :
    (construct bench metadata site input flags).result = .error error ↔
      (¬ (unknownKeys metadata input = [] ∨ flags.intersects .lenientUnknown = true) ∧
        error = .unknownProperties metadata.name (unknownKeys metadata input)) ∨
      (unknownKeys metadata input = [] ∨ flags.intersects .lenientUnknown = true) ∧
        ((Build.collect metadata.name (castEntry bench metadata site flags) input).result
            = .error error ∨
          ∃ cast, (Build.collect metadata.name (castEntry bench metadata site flags) input).result
              = .ok cast ∧
            ¬ (unsettled metadata flags (cast.filterMap id) = [] ∨
              flags.contains .incomplete = true) ∧
            error = .undefinedProperties metadata.name
              (unsettled metadata flags (cast.filterMap id))) := by
  unfold construct
  dsimp only
  by_cases hu : unknownKeys metadata input = [] ∨ flags.intersects .lenientUnknown = true
  · rw [if_neg fun h => blocks_iff.mp h hu, Build.bind_eq_error]
    simp only [hu, not_true_eq_false, false_and, false_or, true_and]
    refine or_congr_right (exists_congr fun cast => and_congr_right fun _ => ?_)
    by_cases hd : unsettled metadata flags (cast.filterMap id) = [] ∨
        flags.contains .incomplete = true
    · rw [if_neg fun h => blocks_iff.mp h hd]
      exact iff_of_false nofun fun h => h.1 hd
    · rw [if_pos (blocks_iff.mpr hd), and_iff_right hd, Build.result_fail, Except.error.injEq]
      exact eq_comm
  · rw [if_pos (blocks_iff.mpr hu), Build.result_fail, Except.error.injEq]
    simp only [hu, not_false_eq_true, true_and, false_and, or_false]
    exact eq_comm

theorem result_makeWithin {plan : Plan κ} {call levels : Nat} {place : List Step}
    {className : String} (hm : plan.metadata className = .ok metadata) :
    (makeWithin plan call (levels + 1) place className input flags).result =
      (construct (benchOf plan call levels) metadata (siteOf plan call levels place) input
        flags.withoutTransient).result := by
  rw [makeWithin_succ, Build.result_bind]
  unfold Build.consult
  rw [hm]
  rfl

theorem makeWithin_eq_ok {plan : Plan κ} {call levels : Nat} {place : List Step}
    {className : String} : (makeWithin plan call levels place className input flags).result = .ok r ↔
      ∃ levels' m, levels = levels' + 1 ∧ plan.metadata className = .ok m ∧
        (construct (benchOf plan call levels') m (siteOf plan call levels' place) input
          flags.withoutTransient).result = .ok r := by
  cases levels with
  | zero => exact iff_of_false nofun nofun
  | succ levels =>
    rw [makeWithin_succ, Build.bind_eq_ok]
    constructor
    · rintro ⟨m, hm, h⟩
      exact ⟨levels, m, rfl, hm, h⟩
    · rintro ⟨_, m, hl, hm, h⟩
      cases hl
      exact ⟨m, hm, h⟩

end Construction

end TypedRecords
