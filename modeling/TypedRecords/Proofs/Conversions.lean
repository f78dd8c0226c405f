import TypedRecords.Proofs.Outcomes
import TypedRecords.Proofs.Prefixes

/-!
# Conversions

A construction asks casts to convert values: those that are supplied for properties, and the items
of lists that are coerced item by item.  A `Conversion` is one such question.  This file lists the
conversions of a construction, as `TypedRecords.Proofs.Orders` lists its orders, and says what
becomes of their errors.

* `Construction.orders_eq`: whatever is ordered, some conversion orders.
* `Conversion.Passes`: the collector goes on as if the cast had not failed.  It does so with an
  error that reports nothing, and with no other: `Construction.passes_of_carryOut` says that **where
  a construction succeeds, all its conversions pass.**
* `Construction.failsSilently_of_castEntry`: an entry is lost only to such an error of a cast.
* `Construction.not_failsSilently_of_isBuiltIn`: the built-in casts have no such errors.
-/

namespace TypedRecords

variable {κ : Type}

/-! ## The conversions of a construction -/

/-- A value that a cast is asked to convert. -/
structure Conversion (κ : Type) where
  cast : Cast κ
  request : CastRequest
  value : Value κ

/-- Whether a cast is one of those that every engine has. -/
def Cast.isBuiltIn : Cast κ → Bool
  | instances | collections => true
  | custom _ => false

namespace Conversion

/-- What comes of a conversion. -/
def outcome (bench : Workbench κ) (conversion : Conversion κ) : Except Error (Value κ) :=
  (conversion.cast.convert bench conversion.request conversion.value).result

/-- What a conversion orders. -/
def orders (bench : Workbench κ) (conversion : Conversion κ) : List (Order κ) :=
  conversion.cast.orders bench conversion.request conversion.value

/-- A collector goes on as if the conversion had not failed. -/
def Passes (bench : Workbench κ) (conversion : Conversion κ) : Prop :=
  ∀ error, conversion.outcome bench = .error error → error.IsSilent

/-- The conversion fails, and a collector takes no notice. -/
def FailsSilently (bench : Workbench κ) (conversion : Conversion κ) : Prop :=
  ∃ error, conversion.outcome bench = .error error ∧ error.IsSilent

end Conversion

namespace Property

/-- The conversion of an item of a list that is coerced item by item. -/
def elementConversions (bench : Workbench κ) (property : Property κ) (site : Site) (flags : Flags) :
    Value κ × Nat → List (Conversion κ)
  | (item, index) =>
    match claim? bench property.elementCasts item with
    | some (type, cast) =>
      [⟨cast, property.request (site.child (.element index)) flags type, item⟩]
    | none => []

/-- The conversion of a value that is coerced as a whole. -/
def wholeConversions (bench : Workbench κ) (property : Property κ) (site : Site) (flags : Flags)
    (value : Value κ) : List (Conversion κ) :=
  match claim? bench property.casts value with
  | some (type, cast) => [⟨cast, property.request site flags type, value⟩]
  | none => []

/-- The conversions for the coercion of a value. -/
def coerceConversions (bench : Workbench κ) (property : Property κ) (site : Site) (flags : Flags)
    (value : Value κ) : List (Conversion κ) :=
  match value with
  | .list items =>
    if property.castsElements bench items then
      items.zipIdx.flatMap (property.elementConversions bench site flags)
    else property.wholeConversions bench site flags value
  | _ => property.wholeConversions bench site flags value

/-- The conversions for a value that is given for the property. -/
def conversions (bench : Workbench κ) (property : Property κ) (site : Site) (flags : Flags)
    (value : Value κ) : List (Conversion κ) :=
  property.coerceConversions bench (site.child (.property property.name)) flags.withoutTransient
    value

end Property

namespace Construction

/-- The conversions for an entry of the input. -/
def entryConversions (bench : Workbench κ) (metadata : Metadata κ) (site : Site) (flags : Flags)
    (entry : String × Value κ) : List (Conversion κ) :=
  match metadata.property? entry.1 with
  | none => []
  | some property => property.conversions bench site flags entry.2

/-- The conversions of a construction, with the given levels below it. -/
def conversions (plan : Plan κ) (call levels : Nat) (order : Order κ) : List (Conversion κ) :=
  match plan.metadata order.className with
  | .error _ => []
  | .ok metadata =>
    order.input.flatMap (entryConversions (benchOf plan call levels) metadata
      (siteOf plan call levels order.place) order.flags.withoutTransient)

end Construction

/-! ## Orders come from conversions -/

namespace Property

variable {bench : Workbench κ} {property : Property κ} {site : Site} {flags : Flags}
  {value : Value κ}

theorem elementOrders_eq (element : Value κ × Nat) :
    property.elementOrders bench site flags element =
      (property.elementConversions bench site flags element).flatMap
        (Conversion.orders bench) := by
  obtain ⟨item, index⟩ := element
  unfold elementOrders elementConversions
  dsimp only
  cases claim? bench property.elementCasts item with
  | none => rfl
  | some entry =>
    obtain ⟨type, cast⟩ := entry
    exact (List.append_nil _).symm

theorem wholeOrders_eq : property.wholeOrders bench site flags value =
    (property.wholeConversions bench site flags value).flatMap (Conversion.orders bench) := by
  unfold wholeOrders wholeConversions
  cases claim? bench property.casts value with
  | none => rfl
  | some entry =>
    obtain ⟨type, cast⟩ := entry
    exact (List.append_nil _).symm

/-- A value is coerced item by item or as a whole, and so are its conversions. -/
theorem conversions_cases (bench : Workbench κ) (property : Property κ) (site : Site)
    (flags : Flags) (value : Value κ) :
    (∃ items, value = .list items ∧ property.castsElements bench items = true ∧
      property.coerce bench site flags value =
        (do return .list (← property.castElements bench site flags items)) ∧
      property.coerceConversions bench site flags value =
        items.zipIdx.flatMap (property.elementConversions bench site flags)) ∨
    (∀ items, value = .list items → property.castsElements bench items = false) ∧
      property.coerce bench site flags value = property.coerceWhole bench site flags value ∧
      property.coerceConversions bench site flags value =
        property.wholeConversions bench site flags value := by
  rcases coerce_cases bench property site flags value with
    ⟨items, rfl, he, hcoerce, -⟩ | ⟨hwhole, hcoerce, -⟩
  · exact .inl ⟨items, rfl, he, hcoerce, if_pos he⟩
  · refine .inr ⟨hwhole, hcoerce, ?_⟩
    cases value with
    | list items => exact if_neg (by rw [hwhole items rfl]; exact Bool.false_ne_true)
    | _ => rfl

theorem coerceOrders_eq : property.coerceOrders bench site flags value =
    (property.coerceConversions bench site flags value).flatMap (Conversion.orders bench) := by
  cases value with
  | list items =>
    unfold coerceOrders coerceConversions
    dsimp only
    split
    · rw [List.flatMap_assoc]
      exact List.flatMap_congr fun element _ => elementOrders_eq element
    · exact wholeOrders_eq
  | _ => exact wholeOrders_eq

end Property

theorem Construction.entryOrders_eq {bench : Workbench κ} {metadata : Metadata κ} {site : Site}
    {flags : Flags} (entry : String × Value κ) :
    entryOrders bench metadata site flags entry =
      (entryConversions bench metadata site flags entry).flatMap (Conversion.orders bench) := by
  unfold entryOrders entryConversions
  cases metadata.property? entry.1 with
  | none => rfl
  | some property => exact Property.coerceOrders_eq

/-- **Whatever is ordered, some conversion orders.** -/
theorem Construction.orders_eq (plan : Plan κ) (call levels : Nat) (order : Order κ) :
    orders plan call levels order =
      (conversions plan call levels order).flatMap
        (Conversion.orders (benchOf plan call levels)) := by
  unfold orders conversions
  cases plan.metadata order.className with
  | error error => rfl
  | ok metadata =>
    dsimp only
    rw [List.flatMap_assoc]
    exact List.flatMap_congr fun entry _ => entryOrders_eq entry

/-! ## Results that pass -/

/-- A collector goes on as if nothing had failed. -/
def Build.Passes {α : Type} (build : Build κ α) : Prop :=
  ∀ error, build.result = .error error → error.IsSilent

namespace Build

variable {α β : Type} {build : Build κ α}

theorem Passes.of_bind {next : α → Build κ β} (h : (build >>= next).Passes) : build.Passes :=
  fun error he => h error (bind_eq_error.mpr (.inl he))

theorem Passes.of_prefixed {head : String} (h : (Build.prefixed head build).Passes) : build.Passes :=
  fun error he => Error.isSilent_prefixed.mp (h _ (prefixed_eq_error.mpr ⟨error, he, rfl⟩))

theorem Passes.exists_eq_ok {owner : String} {step : α → Build κ β} {items : List α}
    (h : (collect owner step items).Passes) :
    ∃ made, (collect owner step items).result = .ok made := by
  cases hr : (collect owner step items).result with
  | error error => exact absurd (h error hr) (not_isSilent_of_collect hr)
  | ok made => exact ⟨made, rfl⟩

theorem passes_of_collect {owner : String} {step : α → Build κ β} {items : List α}
    {made : List β} (h : (collect owner step items).result = .ok made) {item : α}
    (hitem : item ∈ items) : (step item).Passes :=
  fun _ he => isSilent_of_collect h hitem he

end Build

namespace Property

variable {bench : Workbench κ} {property : Property κ} {site : Site} {flags : Flags}
  {value : Value κ} {conversion : Conversion κ}

theorem passes_of_castElement {element : Value κ × Nat}
    (h : (property.castElement bench site flags element).Passes)
    (hc : conversion ∈ property.elementConversions bench site flags element) :
    conversion.Passes bench := by
  obtain ⟨item, index⟩ := element
  unfold castElement at h
  unfold elementConversions at hc
  dsimp only at h hc
  split at hc
  · next type cast hclaim =>
    rw [hclaim] at h
    rw [List.mem_singleton.mp hc]
    exact h.of_prefixed
  · cases hc

theorem passes_of_coerceWhole (h : (property.coerceWhole bench site flags value).Passes)
    (hc : conversion ∈ property.wholeConversions bench site flags value) :
    conversion.Passes bench := by
  unfold coerceWhole at h
  unfold wholeConversions at hc
  split at hc
  · next type cast hclaim =>
    rw [hclaim] at h
    rw [List.mem_singleton.mp hc]
    exact h
  · cases hc

theorem passes_of_castValue (h : (property.castValue bench site flags value).Passes)
    (hc : conversion ∈ property.conversions bench site flags value) :
    conversion.Passes bench := by
  have hcoerce := h.of_bind.of_prefixed
  unfold conversions at hc
  rcases conversions_cases bench property (site.child (.property property.name))
    flags.withoutTransient value with ⟨items, -, -, heq, hconversions⟩ | ⟨-, heq, hconversions⟩
  · rw [hconversions] at hc
    rw [heq] at hcoerce
    obtain ⟨element, he, hc⟩ := List.mem_flatMap.mp hc
    obtain ⟨made, hmade⟩ := hcoerce.of_bind.exists_eq_ok
    exact passes_of_castElement (Build.passes_of_collect hmade he) hc
  · rw [hconversions] at hc
    rw [heq] at hcoerce
    exact passes_of_coerceWhole hcoerce hc

end Property

theorem Construction.passes_of_castEntry {bench : Workbench κ} {m : Metadata κ} {site : Site}
    {flags : Flags} {entry : String × Value κ} {conversion : Conversion κ}
    (h : (castEntry bench m site flags entry).Passes)
    (hc : conversion ∈ entryConversions bench m site flags entry) : conversion.Passes bench := by
  unfold castEntry at h
  unfold entryConversions at hc
  split at hc
  · cases hc
  · next property hp =>
    rw [hp] at h
    exact Property.passes_of_castValue h.of_bind hc

/-- **Where a construction succeeds, all its conversions pass.** -/
theorem Construction.passes_of_carryOut {plan : Plan κ} {call levels : Nat} {order : Order κ}
    {r : Instance κ} (h : (carryOut plan call (levels + 1) order).result = .ok r)
    {conversion : Conversion κ} (hc : conversion ∈ conversions plan call levels order) :
    conversion.Passes (benchOf plan call levels) := by
  obtain ⟨_, m, hl, hm, h⟩ := makeWithin_eq_ok.mp h
  cases hl
  obtain ⟨-, cast, hcollect, -⟩ := construct_eq_ok.mp h
  unfold conversions at hc
  rw [hm] at hc
  obtain ⟨entry, he, hc⟩ := List.mem_flatMap.mp hc
  exact passes_of_castEntry (Build.passes_of_collect hcollect he) hc

/-! ## Silent failures -/

theorem Error.not_isSilent_of_isFatal {error : Error} (h : error.isFatal = true) :
    ¬ error.IsSilent := by
  rintro ⟨hm, -⟩
  have hself : error.leaves = [error] := leaves_eq_singleton fun errors he => by
    subst he
    cases h
  simp [isMergeable, hself, h] at hm

theorem Error.not_isSilent_of_invalidType (failure : Failure) (failures : List Failure) :
    ¬ (invalidType (failure :: failures)).IsSilent :=
  fun hs => List.cons_ne_nil _ _ hs.2.1

namespace Property

variable {bench : Workbench κ} {property : Property κ} {site : Site} {flags : Flags}
  {value : Value κ} {error : Error}

theorem failsSilently_of_coerceWhole
    (h : (property.coerceWhole bench site flags value).result = .error error)
    (hs : error.IsSilent) :
    ∃ conversion ∈ property.wholeConversions bench site flags value,
      conversion.FailsSilently bench := by
  unfold coerceWhole at h
  split at h
  · next type cast hclaim =>
    unfold wholeConversions
    rw [hclaim]
    exact ⟨_, List.mem_singleton_self _, error, h, hs⟩
  · split at h <;> cases h

theorem failsSilently_of_castElement {element : Value κ × Nat}
    (h : (property.castElement bench site flags element).result = .error error)
    (hs : error.IsSilent) :
    ∃ conversion ∈ property.elementConversions bench site flags element,
      conversion.FailsSilently bench := by
  obtain ⟨item, index⟩ := element
  unfold castElement at h
  dsimp only at h
  split at h
  · next type cast hclaim =>
    unfold elementConversions
    dsimp only
    rw [hclaim]
    obtain ⟨inner, hinner, rfl⟩ := Build.prefixed_eq_error.mp h
    exact ⟨_, List.mem_singleton_self _, inner, hinner, Error.isSilent_prefixed.mp hs⟩
  · split at h
    · cases h
    · cases h
      exact absurd hs (Error.not_isSilent_of_invalidType _ _)

theorem failsSilently_of_castValue
    (h : (property.castValue bench site flags value).result = .error error)
    (hs : error.IsSilent) :
    ∃ conversion ∈ property.conversions bench site flags value,
      conversion.FailsSilently bench := by
  rcases Build.bind_eq_error.mp h with h | ⟨coerced, -, h⟩
  · obtain ⟨inner, hinner, rfl⟩ := Build.prefixed_eq_error.mp h
    rw [Error.isSilent_prefixed] at hs
    unfold conversions
    rcases conversions_cases bench property (site.child (.property property.name))
      flags.withoutTransient value with ⟨items, -, -, heq, -⟩ | ⟨-, heq, hconversions⟩
    · rw [heq] at hinner
      rcases Build.bind_eq_error.mp hinner with hinner | ⟨_, -, hinner⟩
      · exact absurd hs (Build.not_isSilent_of_collect hinner)
      · cases hinner
    · rw [heq] at hinner
      rw [hconversions]
      exact failsSilently_of_coerceWhole hinner hs
  · split at h
    · cases h
    · cases h
      exact absurd hs (Error.not_isSilent_of_invalidType _ _)

end Property

/-- **An entry is lost only to a silent failure of a cast.** -/
theorem Construction.failsSilently_of_castEntry {bench : Workbench κ} {m : Metadata κ}
    {site : Site} {flags : Flags} {entry : String × Value κ} {error : Error}
    (h : (castEntry bench m site flags entry).result = .error error) (hs : error.IsSilent) :
    ∃ conversion ∈ entryConversions bench m site flags entry,
      conversion.FailsSilently bench := by
  unfold castEntry at h
  split at h
  · cases h
  · next property hp =>
    unfold entryConversions
    rw [hp]
    rcases Build.bind_eq_error.mp h with h | ⟨_, -, h⟩
    · exact Property.failsSilently_of_castValue h hs
    · cases h

/-! ## The built-in casts -/

namespace Cast

variable {bench : Workbench κ} {request : CastRequest} {cast : Cast κ} {value w : Value κ}

theorem not_isSilent_of_convertItem
    (hnested : ∀ order error, (bench.carryOut order).result = .error error → ¬ error.IsSilent)
    {itemClass : String} {element : Value κ × Nat} {error : Error}
    (h : (convertItem bench request itemClass element).result = .error error) :
    ¬ error.IsSilent := by
  obtain ⟨value, index⟩ := element
  cases value with
  | map input =>
    obtain ⟨inner, hinner, rfl⟩ := Build.prefixed_eq_error.mp h
    rw [Error.isSilent_prefixed]
    rcases Build.bind_eq_error.mp hinner with hinner | ⟨_, -, hinner⟩
    · exact hnested ⟨_, itemClass, input, request.flags⟩ inner hinner
    · cases hinner
  | record origin r =>
    unfold convertItem at h
    dsimp only at h
    split at h
    · cases h
    · cases h
      exact Error.not_isSilent_of_invalidType _ _
  | _ => cases h; exact Error.not_isSilent_of_invalidType _ _

/-- No error of a built-in cast is silent, as long as none of what it orders is. -/
theorem not_isSilent_of_convert (request : CastRequest) (hb : cast.isBuiltIn = true)
    (hnested : ∀ order error, (bench.carryOut order).result = .error error → ¬ error.IsSilent)
    {error : Error} (h : (cast.convert bench request value).result = .error error) :
    ¬ error.IsSilent := by
  cases cast with
  | instances =>
    have h : (convertInstance bench request value).result = .error error := h
    unfold convertInstance at h
    split at h
    · cases h
      exact Error.not_isSilent_of_isFatal rfl
    · next className _ =>
      cases value with
      | map input =>
        rcases Build.bind_eq_error.mp h with h | ⟨_, -, h⟩
        · exact hnested ⟨request.place, className, input, request.flags⟩ error h
        · cases h
      | _ => cases h; exact Error.not_isSilent_of_invalidType _ _
  | collections =>
    have h : (convertCollection bench request value).result = .error error := h
    unfold convertCollection at h
    split at h
    · cases h
      exact Error.not_isSilent_of_isFatal rfl
    · cases value with
      | list elements =>
        rcases Build.bind_eq_error.mp h with h | ⟨_, -, h⟩
        · exact Build.not_isSilent_of_collect h
        · cases h
      | _ => cases h; exact Error.not_isSilent_of_invalidType _ _
  | custom handle => cases hb

/-- A built-in cast that succeeds has got all that it ordered. -/
theorem exists_eq_ok_of_mem_orders (hb : cast.isBuiltIn = true)
    (hnested : ∀ order error, (bench.carryOut order).result = .error error → ¬ error.IsSilent)
    (h : (cast.convert bench request value).result = .ok w) {order : Order κ}
    (ho : order ∈ cast.orders bench request value) :
    ∃ r, (bench.carryOut order).result = .ok r := by
  cases cast with
  | instances =>
    obtain ⟨ordered, hordered, r, hr, -⟩ := convertInstance_eq_ok.mp h
    have ho : order ∈ instanceOrders request value := ho
    unfold instanceOrders at hordered ho
    cases hclass : request.type.className? with
    | none => rw [hclass] at ho; cases ho
    | some className =>
      rw [hclass] at hordered ho
      cases value with
      | map input =>
        rw [List.mem_singleton.mp ho, ← List.mem_singleton.mp hordered]
        exact ⟨r, hr⟩
      | _ => cases ho
  | collections =>
    obtain ⟨declaration, elements, items, hd, rfl, hcollect, -⟩ := convertCollection_eq_ok.mp h
    have ho : order ∈ collectionOrders bench request (.list elements) := ho
    unfold collectionOrders at ho
    rw [hd] at ho
    obtain ⟨element, he, ho⟩ := List.mem_flatMap.mp ho
    have hpasses := Build.passes_of_collect hcollect he
    unfold memberOrders at ho
    split at ho
    · next input index =>
      rw [List.mem_singleton.mp ho]
      cases hitem :
          (convertItem bench request declaration.itemClass (.map input, index)).result with
      | error error =>
        exact absurd (hpasses error hitem) (not_isSilent_of_convertItem hnested hitem)
      | ok item =>
        obtain ⟨r, hr, -⟩ := Build.bind_eq_ok.mp (Build.prefixed_eq_ok.mp hitem)
        exact ⟨r, hr⟩
    · cases ho
  | custom handle => cases hb

end Cast

namespace Construction

variable {plan : Plan κ} {call levels : Nat}

/-- **No construction fails silently**, as long as every class that does not resolve is told of. -/
theorem not_isSilent_of_carryOut
    (hreported : ∀ className e, plan.metadata className = .error e → ¬ e.IsSilent)
    (order : Order κ) {error : Error}
    (h : (carryOut plan call levels order).result = .error error) : ¬ error.IsSilent := by
  cases levels with
  | zero => cases h; exact Error.not_isSilent_of_isFatal rfl
  | succ levels =>
    rcases Build.bind_eq_error.mp h with h | ⟨m, hm, h⟩
    · exact hreported _ _ h
    rcases construct_eq_error.mp h with ⟨hunknown, rfl⟩ | ⟨-, h | ⟨cast, -, hundefined, rfl⟩⟩
    · rintro ⟨-, -, hnil, -⟩
      exact hunknown (.inl hnil)
    · exact Build.not_isSilent_of_collect h
    · rintro ⟨-, -, -, hnil⟩
      exact hundefined (.inl hnil)

theorem not_isSilent_of_benchOf
    (hreported : ∀ className e, plan.metadata className = .error e → ¬ e.IsSilent)
    (call levels : Nat) (order : Order κ) (error : Error)
    (h : ((benchOf plan call levels).carryOut order).result = .error error) : ¬ error.IsSilent :=
  not_isSilent_of_carryOut hreported order h

theorem not_failsSilently_of_isBuiltIn
    (hreported : ∀ className e, plan.metadata className = .error e → ¬ e.IsSilent)
    {conversion : Conversion κ} (hb : conversion.cast.isBuiltIn = true) :
    ¬ conversion.FailsSilently (benchOf plan call levels) := by
  rintro ⟨error, ho, hs⟩
  exact Cast.not_isSilent_of_convert _ hb (not_isSilent_of_benchOf hreported call levels) ho hs

theorem exists_eq_ok_of_isBuiltIn
    (hreported : ∀ className e, plan.metadata className = .error e → ¬ e.IsSilent)
    {conversion : Conversion κ} (hb : conversion.cast.isBuiltIn = true)
    (hpasses : conversion.Passes (benchOf plan call levels)) :
    ∃ w, conversion.outcome (benchOf plan call levels) = .ok w := by
  cases ho : conversion.outcome (benchOf plan call levels) with
  | error error =>
    exact absurd ⟨error, ho, hpasses error ho⟩ (not_failsSilently_of_isBuiltIn hreported hb)
  | ok w => exact ⟨w, rfl⟩

end Construction

end TypedRecords
