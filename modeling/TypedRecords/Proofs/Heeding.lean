import TypedRecords.Proofs.Invariant
import TypedRecords.Proofs.Native
import TypedRecords.Proofs.Settling

/-!
# Conversions are heeded

When a construction succeeds, one would like to know that all conversions did.  They did, but for
one gap: a custom cast may fail with an error that reports nothing, such as an empty aggregate, and
a collector cannot tell that from no error.  Then the value is dropped and the construction goes on.

* `Construction.reached`: a construction with all that it makes by the built-in casts, and so on
  down.  `Construction.exists_eq_ok_of_mem_reached`: if it succeeds, so does all of this.
* `Construction.Heeds`: what a successful construction owes to its conversions.
* `Engine.Reachable.conversions_heeded`: **whatever is reached in a successful call heeds its
  conversions**, so every supplied property is defined and every list keeps its length, unless a
  custom cast fails silently.
-/

namespace TypedRecords

variable {κ : Type}

namespace Construction

/-! ## What the built-in casts reach -/

/-- What a construction orders directly by the built-in casts. -/
def builtInOrders (plan : Plan κ) (call levels : Nat) (order : Order κ) : List (Order κ) :=
  ((conversions plan call levels order).filter (·.cast.isBuiltIn)).flatMap
    (Conversion.orders (benchOf plan call levels))

/-- An order with all that is reached from it by the built-in casts, each with the levels that are
left for it. -/
def reached (plan : Plan κ) (call : Nat) : Nat → Order κ → List (Nat × Order κ)
  | 0, order => [(0, order)]
  | levels + 1, order =>
    (levels + 1, order) :: (builtInOrders plan call levels order).flatMap
      (reached plan call levels)

variable {plan : Plan κ} {call levels : Nat} {order nested : Order κ} {r : Instance κ}

theorem builtInOrders_eq (hp : plan.Native) :
    builtInOrders plan call levels order = orders plan call levels order := by
  unfold builtInOrders
  rw [orders_eq, List.filter_eq_self.mpr fun conversion => isBuiltIn_of_mem_conversions hp]

theorem reached_eq (hp : plan.Native) :
    reached plan call levels order = allOrders plan call levels order := by
  induction levels generalizing order with
  | zero => rfl
  | succ levels ih =>
    unfold reached allOrders
    rw [builtInOrders_eq hp]
    exact congrArg _ (List.flatMap_congr fun nested _ => ih)

theorem exists_eq_ok_of_mem_builtInOrders
    (hreported : ∀ className e, plan.metadata className = .error e → ¬ e.IsSilent)
    (h : (carryOut plan call (levels + 1) order).result = .ok r)
    (hn : nested ∈ builtInOrders plan call levels order) :
    ∃ r, (carryOut plan call levels nested).result = .ok r := by
  obtain ⟨conversion, hc, hn⟩ := List.mem_flatMap.mp hn
  obtain ⟨hc, hb⟩ := List.mem_filter.mp hc
  obtain ⟨w, hw⟩ := exists_eq_ok_of_isBuiltIn hreported hb (passes_of_carryOut h hc)
  exact Cast.exists_eq_ok_of_mem_orders hb (not_isSilent_of_benchOf hreported call levels) hw hn

/-- What is reached by a construction that succeeds does so too. -/
theorem exists_eq_ok_of_mem_reached
    (hreported : ∀ className e, plan.metadata className = .error e → ¬ e.IsSilent)
    (h : (carryOut plan call levels order).result = .ok r) {entry : Nat × Order κ}
    (he : entry ∈ reached plan call levels order) :
    ∃ r, (carryOut plan call entry.1 entry.2).result = .ok r := by
  induction levels generalizing order r with
  | zero => cases h
  | succ levels ih =>
    rcases List.mem_cons.mp he with rfl | he
    · exact ⟨r, h⟩
    · obtain ⟨nested, hn, he⟩ := List.mem_flatMap.mp he
      obtain ⟨made, hmade⟩ := exists_eq_ok_of_mem_builtInOrders hreported h hn
      exact ih hmade he

/-! ## What a construction owes to its conversions -/

/-- Every conversion succeeds, unless a custom cast fails silently.  Where none does so for a
supplied property, the property is defined, and a list that is coerced item by item keeps its
length. -/
structure Heeds (plan : Plan κ) (call levels : Nat) (order : Order κ) (r : Instance κ) : Prop where
  conversions : ∀ conversion ∈ conversions plan call levels order,
    (∃ w, conversion.outcome (benchOf plan call levels) = .ok w) ∨
      (∃ handle, conversion.cast = .custom handle) ∧
        conversion.FailsSilently (benchOf plan call levels)
  supplied : ∀ property ∈ r.metadata.properties, ∀ value,
    Table.get? order.input property.name = some value →
    (∀ conversion ∈ property.conversions (benchOf plan call levels)
        (siteOf plan call levels order.place) order.flags.withoutTransient value,
      ¬ conversion.FailsSilently (benchOf plan call levels)) →
    ∃ w, r.stored? property.name = some w ∧
      ∀ items, value = .list items →
        property.castsElements (benchOf plan call levels) items = true →
          ∃ parts, w = .list parts ∧ parts.length = items.length

variable {bench : Workbench κ} {m : Metadata κ} {site : Site} {flags : Flags}
  {property : Property κ} {v w : Value κ}

theorem exists_eq_ok_or_failsSilently
    (hreported : ∀ className e, plan.metadata className = .error e → ¬ e.IsSilent)
    (h : (carryOut plan call (levels + 1) order).result = .ok r) {conversion : Conversion κ}
    (hc : conversion ∈ Construction.conversions plan call levels order) :
    (∃ w, conversion.outcome (benchOf plan call levels) = .ok w) ∨
      (∃ handle, conversion.cast = .custom handle) ∧
        conversion.FailsSilently (benchOf plan call levels) := by
  have hpasses := passes_of_carryOut h hc
  cases hcast : conversion.cast with
  | custom handle =>
    cases ho : conversion.outcome (benchOf plan call levels) with
    | ok w => exact .inl ⟨w, rfl⟩
    | error error => exact .inr ⟨⟨handle, rfl⟩, error, ho, hpasses error ho⟩
  | _ => exact .inl (exists_eq_ok_of_isBuiltIn hreported (by rw [hcast]; rfl) hpasses)

/-- The first entry under a name is cast to what is then found under the name. -/
theorem get?_madeOf {input : Table (Value κ)} (hp : m.property? property.name = some property)
    (hget : Table.get? input property.name = some v)
    (hw : (property.castValue bench site flags v).result = .ok w) :
    Table.get? ((Build.madeOf (castEntry bench m site flags) input).filterMap id) property.name =
      some w := by
  induction input with
  | nil => cases hget
  | cons entry rest ih =>
    obtain ⟨key, u⟩ := entry
    rw [Table.get?_cons] at hget
    by_cases hname : property.name = key
    · subst hname
      rw [if_pos rfl] at hget
      cases hget
      have hentry : (castEntry bench m site flags (property.name, v)).result =
          .ok (some (property.name, w)) := castEntry_eq_ok.mpr (.inr ⟨property, w, hp, hw, rfl⟩)
      rw [Build.madeOf_cons_ok hentry, List.filterMap_cons_some (f := id) rfl, Table.get?_cons,
        if_pos rfl]
    · rw [if_neg hname] at hget
      have hrest := ih hget
      cases hentry : (castEntry bench m site flags (key, u)).result with
      | error error =>
        rw [Build.madeOf_cons_error hentry]
        exact hrest
      | ok cast =>
        rw [Build.madeOf_cons_ok hentry]
        rcases castEntry_eq_ok.mp hentry with ⟨-, rfl⟩ | ⟨_, other, -, -, rfl⟩
        · rw [List.filterMap_cons_none (f := id) rfl]
          exact hrest
        · rw [List.filterMap_cons_some (f := id) rfl, Table.get?_cons, if_neg hname]
          exact hrest

theorem exists_castValue_eq_ok {input : Table (Value κ)}
    (hcollect : ∃ cast,
      (Build.collect m.name (castEntry bench m site flags) input).result = .ok cast)
    (hp : m.property? property.name = some property)
    (hget : Table.get? input property.name = some v)
    (hloud : ∀ conversion ∈ property.conversions bench site flags v,
      ¬ conversion.FailsSilently bench) :
    ∃ w, (property.castValue bench site flags v).result = .ok w := by
  obtain ⟨cast, hcollect⟩ := hcollect
  cases hv : (property.castValue bench site flags v).result with
  | ok w => exact ⟨w, rfl⟩
  | error error =>
    have hentry : (castEntry bench m site flags (property.name, v)).result = .error error := by
      unfold castEntry
      rw [hp]
      exact Build.bind_eq_error.mpr (.inl hv)
    have hs := Build.isSilent_of_collect hcollect (Table.mem_of_get? hget) hentry
    obtain ⟨conversion, hc, hfails⟩ := Property.failsSilently_of_castValue hv hs
    exact absurd hfails (hloud conversion hc)

theorem length_of_castValue {items : List (Value κ)}
    (h : (property.castValue bench site flags (.list items)).result = .ok w)
    (he : property.castsElements bench items = true)
    (hloud : ∀ conversion ∈ property.conversions bench site flags (.list items),
      ¬ conversion.FailsSilently bench) :
    ∃ parts, w = .list parts ∧ parts.length = items.length := by
  have hcoerce := (Property.castValue_eq_ok.mp h).1
  unfold Property.conversions at hloud
  rcases Property.conversions_cases bench property (site.child (.property property.name))
    flags.withoutTransient (.list items) with ⟨_, hl, -, heq, hconversions⟩ | ⟨hwhole, -, -⟩
  · cases hl
    rw [heq] at hcoerce
    rw [hconversions] at hloud
    obtain ⟨parts, hparts, hw⟩ := Build.bind_eq_ok.mp hcoerce
    cases hw
    refine ⟨parts, rfl, ?_⟩
    have hall := (Build.collect_eq_ok_iff fun element helement error herror hs => by
      obtain ⟨conversion, hc, hfails⟩ := Property.failsSilently_of_castElement herror hs
      exact hloud conversion (List.mem_flatMap.mpr ⟨element, helement, hc⟩) hfails).mp hparts
    rw [← hall.length_eq, List.length_zipIdx]
  · rw [hwhole items rfl] at he
    cases he

theorem metadata_of_carryOut (h : (carryOut plan call levels order).result = .ok r) :
    plan.metadata order.className = .ok r.metadata := by
  obtain ⟨_, m, -, hm, h⟩ := makeWithin_eq_ok.mp h
  obtain ⟨-, cast, -, -, rfl⟩ := construct_eq_ok.mp h
  exact hm

/-- **A construction that succeeds heeds its conversions.** -/
theorem heeds_of_carryOut
    (hreported : ∀ className e, plan.metadata className = .error e → ¬ e.IsSilent)
    (hwell : ∀ className m, plan.metadata className = .ok m → m.WellFormed)
    (h : (carryOut plan call (levels + 1) order).result = .ok r) :
    Heeds plan call levels order r where
  conversions := fun _ hc => exists_eq_ok_or_failsSilently hreported h hc
  supplied := by
    intro property hp v hget hloud
    obtain ⟨_, m, hl, hm, h⟩ := makeWithin_eq_ok.mp h
    cases hl
    obtain ⟨-, cast, hcollect, -, rfl⟩ := construct_eq_ok.mp h
    have hd := (hwell _ _ hm).distinct
    have hproperty : m.property? property.name = some property := Metadata.property?_of_mem hd hp
    obtain ⟨w, hw⟩ := exists_castValue_eq_ok ⟨cast, hcollect⟩ hproperty hget hloud
    refine ⟨w, ?_, ?_⟩
    · rw [stored?_assembled hd hp]
      refine settled?_of_get? ?_
      rw [Build.eq_madeOf_of_collect hcollect]
      exact get?_madeOf hproperty hget hw
    · rintro items rfl he
      exact length_of_castValue hw he hloud

end Construction

/-! ## Engines -/

namespace Engine

variable {engine : Engine κ}

/-- All instances that are made by the built-in casts when an instance is made, the outermost one
included, each with the levels that are left for it. -/
def reached (engine : Engine κ) (className : String) (input : Table (Value κ)) (flags : Flags) :
    List (Nat × Order κ) :=
  Construction.reached engine.plan engine.calls (engine.plan.maxDepth + 1)
    (Construction.outerOrder className input flags)

theorem mem_reached_outer {className : String} {input : Table (Value κ)} {flags : Flags} :
    (engine.plan.maxDepth + 1, Construction.outerOrder className input flags) ∈
      engine.reached className input flags :=
  List.mem_cons_self

theorem builds_outer_iff {className : String} {input : Table (Value κ)} {flags : Flags}
    {r : Instance κ} :
    engine.Builds (engine.plan.maxDepth + 1, Construction.outerOrder className input flags) r ↔
      (engine.make className input flags).1 = .ok r :=
  Iff.rfl

/-- **Conversions are heeded.**  In a call that succeeds, whatever the built-in casts reach is made,
and heeds its conversions. -/
theorem Reachable.conversions_heeded (hr : Reachable (fun _ => True) engine) {className : String}
    {input : Table (Value κ)} {flags : Flags} {record : Instance κ}
    (h : (engine.make className input flags).1 = .ok record) {entry : Nat × Order κ}
    (he : entry ∈ engine.reached className input flags) :
    ∃ levels r, entry.1 = levels + 1 ∧ engine.Builds entry r ∧
      engine.metadata entry.2.className = .ok r.metadata ∧
      Construction.Heeds engine.plan engine.calls levels entry.2 r := by
  have hmade : engine.Builds
      (engine.plan.maxDepth + 1, Construction.outerOrder className input flags) record := h
  obtain ⟨r, hbuilds⟩ := Construction.exists_eq_ok_of_mem_reached engine.reported hmade he
  obtain ⟨levels, nested⟩ := entry
  cases levels with
  | zero => cases hbuilds
  | succ levels =>
    exact ⟨levels, r, rfl, hbuilds, Construction.metadata_of_carryOut hbuilds,
      Construction.heeds_of_carryOut engine.reported (fun _ _ hm => hr.wellFormed hm) hbuilds⟩

end Engine

/-! ## A mute cast -/

namespace Atlas

/-- A cast that takes texts and fails without a reason. -/
def mute : CustomCast Unit where
  label := "mute"
  accepts := fun _ type => type == .keyword .string
  claims := fun value => match value with
    | .text _ => true
    | _ => false
  convert := fun _ _ => .done (.error (.aggregate []))
  restore := fun _ _ => .pass

/-- An engine for cities and countries with that cast. -/
def muteEngine : Engine Unit :=
  (({ casting := fun _ => mute, casts := [()] } : Engine Unit).register
    ((ClassDeclaration.named "City").withProperty "people" ["int"])).register
      (((ClassDeclaration.named "Country").withProperty "name" ["string"]).withProperty "towns"
        ["City[]", "string[]"])

/-- The defined properties of an instance, with the lengths of those that are lists. -/
def lengths (record : Instance Unit) : List (String × Option Nat) :=
  record.stored.map fun entry => match entry.2 with
    | .list items => (entry.1, some items.length)
    | _ => (entry.1, none)

/-- Input for a country with the given towns. -/
def mutedFrance (towns : List (Value Unit)) : Table (Value Unit) :=
  [("name", .text "France"), ("towns", .list towns)]

theorem exists_towns : ∃ m property, muteEngine.metadata "Country" = .ok m ∧
    property ∈ m.properties ∧ property.name = "towns" ∧ ∀ call levels,
      property.castsElements (Construction.benchOf muteEngine.plan call levels)
        [.map [("people", .int 522250)]] = true ∧
      ∀ site flags, ∀ conversion ∈ property.conversions
          (Construction.benchOf muteEngine.plan call levels) site flags
          (.list [.map [("people", .int 522250)]]),
        conversion.cast.isBuiltIn = true :=
  ⟨_, _, rfl, List.mem_cons_of_mem _ List.mem_cons_self, rfl, fun _ _ =>
    ⟨rfl, fun _ _ _ hc => by cases List.mem_singleton.mp hc; rfl⟩⟩

/-- The name is lost on the cast, but the towns are all there. -/
theorem towns_heeded : ∃ record parts,
    (muteEngine.make "Country" (mutedFrance [.map [("people", .int 522250)]]) .incomplete).1 =
        .ok record ∧
      record.stored? "towns" = some (.list parts) ∧ parts.length = 1 := by
  have hmade : (muteEngine.make "Country" (mutedFrance [.map [("people", .int 522250)]])
      .incomplete).1.toOption.isSome = true := by decide +kernel
  cases hresult : (muteEngine.make "Country" (mutedFrance [.map [("people", .int 522250)]])
      .incomplete).1 with
  | error error => rw [hresult] at hmade; cases hmade
  | ok record =>
    have hnew : Engine.Reachable (fun _ => True) muteEngine :=
      .after (.register _) (.after (.register _) (.new rfl rfl) fun _ _ => trivial)
        fun _ _ => trivial
    obtain ⟨levels, r, hl, hbuilds, hm, hheeds⟩ :=
      hnew.conversions_heeded hresult Engine.mem_reached_outer
    cases hl
    cases hresult.symm.trans (Engine.builds_outer_iff.mp hbuilds)
    obtain ⟨m, property, hmeta, hp, hname, htowns⟩ := exists_towns
    cases hm.symm.trans hmeta
    have hget : Table.get? (mutedFrance [.map [("people", .int 522250)]]) property.name =
        some (.list [.map [("people", .int 522250)]]) := by rw [hname]; rfl
    obtain ⟨w, hw, hparts⟩ := hheeds.supplied property hp _ hget fun conversion hc =>
      Construction.not_failsSilently_of_isBuiltIn muteEngine.reported
        ((htowns _ _).2 _ _ conversion hc)
    obtain ⟨parts, rfl, hlength⟩ := hparts _ rfl (htowns _ _).1
    rw [hname] at hw
    exact ⟨record, parts, rfl, hw, hlength⟩

/-- The name and the second town are dropped, though the cast fails for both. -/
theorem france_muted : ∃ record,
    (muteEngine.make "Country" (mutedFrance [.map [("people", .int 522250)], .text "Lyon"])
        .incomplete).1 = .ok record ∧
      lengths record = [("towns", some 1)] ∧
      ∃ conversion ∈ Construction.conversions muteEngine.plan muteEngine.calls 100
          (Construction.outerOrder "Country"
            (mutedFrance [.map [("people", .int 522250)], .text "Lyon"]) .incomplete),
        conversion.value = .text "France" ∧
          conversion.outcome (Construction.benchOf muteEngine.plan muteEngine.calls 100) =
            .error (.aggregate []) := by
  have hmade : (muteEngine.make "Country"
      (mutedFrance [.map [("people", .int 522250)], .text "Lyon"]) .incomplete).1.toOption.map
        lengths = some [("towns", some 1)] := by decide +kernel
  cases hresult : (muteEngine.make "Country"
      (mutedFrance [.map [("people", .int 522250)], .text "Lyon"]) .incomplete).1 with
  | error error => rw [hresult] at hmade; cases hmade
  | ok record =>
    rw [hresult] at hmade
    exact ⟨record, rfl, Option.some.inj hmade, _, List.mem_cons_self, rfl, rfl⟩

end Atlas

end TypedRecords
