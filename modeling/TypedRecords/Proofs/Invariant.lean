import TypedRecords.Proofs.Acceptance
import TypedRecords.Proofs.Outcomes
import TypedRecords.Proofs.Usage

/-!
# The invariant of instances

`Instance.WellFormed` says what holds of every instance that is made, and goes on to hold however
often it is written: its defined properties are declared ones, each once and in order of
declaration, with values that are accepted; its flags are rid of the overrides of nullability; no
property is missing unless it may be; and what is tracked is not declared.

* `Construction.wellFormed_of_construct`: **every construction makes a well-formed instance.**
* `Instance.WellFormed.put`: a value that is accepted can be written.
* `Instance.stored?_put`: **a write changes nothing but the property that it names.**
* `Engine.Holding`: what every write keeps, successful or not.
-/

namespace TypedRecords

variable {κ : Type}

/-! ## Well-formed instances -/

namespace Instance

/-- What holds of every instance. -/
structure WellFormed (record : Instance κ) : Prop where
  metadata : record.metadata.WellFormed
  ordered : record.definedNames.Sublist record.metadata.names
  distinct : record.definedNames.Nodup
  accepted : ∀ entry ∈ record.stored, ∃ property,
    record.metadata.property? entry.1 = some property ∧ property.accepts .none entry.2 = true
  kept : record.flags.contains .nullable = false ∧ record.flags.contains .notNullable = false
  complete : record.flags.contains .incomplete = false →
    ∀ name ∈ record.metadata.names, name ∈ record.definedNames
  undeclared : ∀ entry ∈ record.tracked, record.metadata.declares entry.1 = false
  untracked : record.flags.contains .trackUnknown = false → record.tracked = []

/-- Two instances differ in one property at most. -/
structure SameBut (name : String) (record later : Instance κ) : Prop where
  metadata : later.metadata = record.metadata
  flags : later.flags = record.flags
  tracked : later.tracked = record.tracked
  stored? : ∀ other, other ≠ name → later.stored? other = record.stored? other

variable {record : Instance κ} {name : String} {value : Value κ} {property : Property κ}

theorem stored?_eq_none_of_not_declares (h : record.WellFormed) {other : String}
    (ho : record.metadata.property? other = none) : record.stored? other = none := by
  refine Table.get?_eq_none_iff.mpr fun hmem => ?_
  have hdeclared := Metadata.declares_iff.mpr (h.ordered.subset hmem)
  rw [Metadata.property?_eq_none_iff.mp ho] at hdeclared
  cases hdeclared

/-- **A write changes nothing but the property that it names.** -/
theorem stored?_put (h : record.WellFormed)
    (hp : record.metadata.property? name = some property) (other : String) :
    (record.put name value).stored? other =
      if other = name then some value else record.stored? other := by
  have hget : (record.put name value).stored? other = (record.metadata.property? other).bind
      fun property => if property.name = name then some value else record.stored? property.name :=
    Metadata.get?_tableOf h.metadata.distinct other
  rw [hget]
  by_cases ho : other = name
  · subst ho
    rw [hp, Option.bind_some, if_pos (Metadata.property?_eq_some hp).2, if_pos rfl]
  · rw [if_neg ho]
    cases hq : record.metadata.property? other with
    | none => exact (stored?_eq_none_of_not_declares h hq).symm
    | some declared =>
      have hn := (Metadata.property?_eq_some hq).2
      rw [Option.bind_some, hn, if_neg ho]

/-- **A value that is accepted can be written.** -/
theorem WellFormed.put (h : record.WellFormed)
    (hp : record.metadata.property? name = some property)
    (ha : property.accepts .none value = true) : (record.put name value).WellFormed where
  metadata := h.metadata
  ordered := Metadata.keys_tableOf_sublist
  distinct := Metadata.distinct_tableOf h.metadata.distinct
  accepted := by
    rintro ⟨other, w⟩ he
    obtain ⟨declared, hd, rfl, hw⟩ := Metadata.mem_tableOf.mp he
    refine ⟨declared, Metadata.property?_of_mem h.metadata.distinct hd, ?_⟩
    split at hw
    · next hn =>
      have hdeclared := Metadata.property?_of_mem h.metadata.distinct hd
      rw [hn, hp] at hdeclared
      rw [← Option.some.inj hdeclared, ← Option.some.inj hw]
      exact ha
    · obtain ⟨found, hfound, haccepts⟩ := h.accepted _ (Table.mem_of_get? hw)
      rw [Metadata.property?_of_mem h.metadata.distinct hd] at hfound
      rw [Option.some.inj hfound]
      exact haccepts
  kept := h.kept
  complete := by
    intro hc other ho
    obtain ⟨declared, hd, rfl⟩ := List.mem_map.mp ho
    refine Metadata.mem_keys_tableOf.mpr ⟨declared, hd, rfl, ?_⟩
    split
    · rfl
    · have hdefined := h.complete hc declared.name ho
      rw [Option.isSome_iff_ne_none]
      exact fun hnone => Table.get?_eq_none_iff.mp hnone hdefined
  undeclared := h.undeclared
  untracked := h.untracked

theorem WellFormed.sameBut_put (h : record.WellFormed)
    (hp : record.metadata.property? name = some property) (value : Value κ) :
    SameBut name record (record.put name value) where
  metadata := rfl
  flags := rfl
  tracked := rfl
  stored? := fun other ho => by rw [stored?_put h hp, if_neg ho]

end Instance

/-! ## What constructions make -/

namespace Construction

variable {bench : Workbench κ} {m : Metadata κ} {site : Site} {flags : Flags}
  {input supplied : Table (Value κ)} {r : Instance κ}

theorem accepted_of_collect {cast : List (Option (String × Value κ))}
    (h : (Build.collect m.name (castEntry bench m site flags.withoutTransient) input).result
      = .ok cast) {entry : String × Value κ} (he : entry ∈ cast.filterMap id) :
    ∃ property, m.property? entry.1 = some property ∧ property.accepts .none entry.2 = true := by
  obtain ⟨_, hc, he⟩ := List.mem_filterMap.mp he
  cases he
  obtain ⟨item, -, hitem⟩ := Build.mem_of_collect h hc
  rcases castEntry_eq_ok.mp hitem with ⟨-, hnone⟩ | ⟨property, w, hp, hw, he⟩
  · cases hnone
  · cases he
    have ha := (Property.castValue_eq_ok.mp hw).2
    rw [Property.accepts_withoutTransient] at ha
    exact ⟨property, hp, ha⟩

/-- A settled value is accepted, be it supplied or a default. -/
theorem accepted_of_settled? (hm : m.WellFormed)
    (hs : ∀ entry ∈ supplied, ∃ property, m.property? entry.1 = some property ∧
      property.accepts .none entry.2 = true) {property : Property κ} (hp : property ∈ m.properties)
    {value : Value κ} (h : settled? flags supplied property = some value) :
    property.accepts .none value = true := by
  unfold settled? at h
  split at h
  · next w hg =>
    cases h
    obtain ⟨found, hfound, ha⟩ := hs _ (Table.mem_of_get? hg)
    rw [Metadata.property?_of_mem hm.distinct hp] at hfound
    rw [Option.some.inj hfound]
    exact ha
  · split at h
    · exact Property.accepts_of_default? (hm.defaults property hp) h
    · cases h

theorem unsettled_eq_nil (h : unsettled m flags supplied = []) {property : Property κ}
    (hp : property ∈ m.properties) : (settled? flags supplied property).isSome = true := by
  have hfilter := List.map_eq_nil_iff.mp h
  have hnot := List.filter_eq_nil_iff.mp hfilter property hp
  rw [Option.isSome_iff_ne_none]
  simpa using hnot

/-- **Every construction makes a well-formed instance.** -/
theorem wellFormed_of_construct (hm : m.WellFormed)
    (h : (construct bench m site input flags.withoutTransient).result = .ok r) : r.WellFormed := by
  obtain ⟨-, cast, hc, hd, rfl⟩ := construct_eq_ok.mp h
  refine
    { metadata := hm
      ordered := Metadata.keys_tableOf_sublist
      distinct := Metadata.distinct_tableOf hm.distinct
      accepted := ?_
      kept := ⟨Flags.withoutTransient_contains_nullable flags,
        Flags.withoutTransient_contains_notNullable flags⟩
      complete := ?_
      undeclared := ?_
      untracked := ?_ }
  · rintro ⟨name, value⟩ he
    obtain ⟨property, hp, rfl, hv⟩ := Metadata.mem_tableOf.mp he
    exact ⟨property, Metadata.property?_of_mem hm.distinct hp,
      accepted_of_settled? hm (fun entry he => accepted_of_collect hc he) hp hv⟩
  · intro hcomplete name hn
    obtain ⟨property, hp, rfl⟩ := List.mem_map.mp hn
    have hnone : unsettled m flags.withoutTransient (cast.filterMap id) = [] := by
      rcases hd with hd | hd
      · exact hd
      · exact absurd (hcomplete.symm.trans hd) Bool.false_ne_true
    exact Metadata.mem_keys_tableOf.mpr ⟨property, hp, rfl, unsettled_eq_nil hnone hp⟩
  · intro entry he
    have he : entry ∈ trackedEntries m flags.withoutTransient input := he
    unfold trackedEntries at he
    split at he
    · have hundeclared := (List.mem_filter.mp he).2
      rw [Bool.not_eq_true'] at hundeclared
      exact hundeclared
    · cases he
  · intro ht
    exact if_neg (ht ▸ Bool.false_ne_true)

theorem wellFormed_of_makeWithin {plan : Plan κ}
    (hplan : ∀ className m, plan.metadata className = .ok m → m.WellFormed) {call levels : Nat}
    (order : Order κ) (h : (carryOut plan call levels order).result = .ok r) :
    r.WellFormed ∧ r.flags = order.flags.withoutTransient := by
  obtain ⟨levels', m, -, hm, h⟩ := makeWithin_eq_ok.mp h
  refine ⟨wellFormed_of_construct (hplan _ m hm) h, ?_⟩
  obtain ⟨-, cast, -, -, rfl⟩ := construct_eq_ok.mp h
  rfl

end Construction

/-! ## Instances in use -/

namespace Engine

variable {engine later : Engine κ} {record written : Instance κ} {className name : String}
  {input : Table (Value κ)} {flags : Flags} {value : Value κ}

/-- All instances that are ordered when an instance is made, the outermost one included, each with
the levels that are left for it. -/
def makeOrders (engine : Engine κ) (className : String) (input : Table (Value κ)) (flags : Flags) :
    List (Nat × Order κ) :=
  Construction.allOrders engine.plan engine.calls (engine.plan.maxDepth + 1)
    (Construction.outerOrder className input flags)

/-- All instances that are ordered when a property is written. -/
def setOrders (engine : Engine κ) (record : Instance κ) (name : String) (value : Value κ) :
    List (Nat × Order κ) :=
  match record.metadata.property? name with
  | none => []
  | some property =>
    (property.orders (Construction.outerBench engine.plan engine.calls) ⟨0, engine.calls, []⟩
      record.flags value).flatMap
        (Construction.allOrders engine.plan engine.calls engine.plan.maxDepth)

/-- The instance that comes of an order in the current call. -/
def Builds (engine : Engine κ) (entry : Nat × Order κ) (r : Instance κ) : Prop :=
  (Construction.carryOut engine.plan engine.calls entry.1 entry.2).result = .ok r

/-- An engine and an instance after the instance is written, be it successfully or not. -/
def write (state : Engine κ × Instance κ) (entry : String × Value κ) : Engine κ × Instance κ :=
  let outcome := state.1.set state.2 entry.1 entry.2
  (outcome.2, outcome.1.toOption.getD state.2)

theorem set_eq_ok (h : (engine.set record name value).1 = .ok written) :
    ∃ property w, record.metadata.property? name = some property ∧
      (engine.castValue property value record.flags).1 = .ok w ∧ written = record.put name w := by
  unfold set at h
  split at h
  · cases h
  · split at h
    · cases h
    · next property hp =>
      dsimp only at h
      cases hc : (engine.castValue property value record.flags).1 with
      | error error => rw [hc] at h; cases h
      | ok w =>
        rw [hc] at h
        cases h
        exact ⟨property, w, hp, hc, rfl⟩

theorem Reachable.builds {D : ClassDeclaration κ → Prop} (hr : Reachable D engine)
    {entry : Nat × Order κ} {r : Instance κ} (hb : engine.Builds entry r) :
    r.WellFormed ∧ r.flags = entry.2.flags.withoutTransient :=
  Construction.wellFormed_of_makeWithin (fun _ _ hm => hr.wellFormed hm) entry.2 hb

theorem flags_of_mem_setOrders {entry : Nat × Order κ}
    (h : entry ∈ engine.setOrders record name value) :
    entry.2.flags.withoutTransient = record.flags.withoutTransient := by
  unfold setOrders at h
  split at h
  · cases h
  · obtain ⟨order, ho, h⟩ := List.mem_flatMap.mp h
    rw [Construction.flags_of_mem_allOrders h, Property.flags_of_mem_orders ho,
      Flags.withoutTransient_idem]

theorem Reachable.make {D : ClassDeclaration κ → Prop} (hr : Reachable D engine)
    (className : String) (input : Table (Value κ)) (flags : Flags) :
    Reachable D (engine.make className input flags).2 :=
  hr.after (.make className input flags) nofun

theorem set_step (hw : record.WellFormed) (h : (engine.set record name value).1 = .ok written) :
    written.WellFormed ∧ record.SameBut name written := by
  obtain ⟨property, w, hp, hcast, rfl⟩ := set_eq_ok h
  have ha : property.accepts .none w = true := by
    rw [← Property.accepts_eq_of_kept hw.kept.1 hw.kept.2]
    exact (Property.castValue_eq_ok.mp hcast).2
  exact ⟨hw.put hp ha, hw.sameBut_put hp w⟩

/-- What every write keeps: the engine is in use, and the instance is well-formed, of its class and
with its flags. -/
structure Holding (D : ClassDeclaration κ → Prop) (m : Metadata κ) (flags : Flags)
    (state : Engine κ × Instance κ) : Prop where
  reachable : Reachable D state.1
  wellFormed : state.2.WellFormed
  metadata : state.2.metadata = m
  flags : state.2.flags = flags

theorem Holding.write {D : ClassDeclaration κ → Prop} {m : Metadata κ}
    {state : Engine κ × Instance κ} (h : Holding D m flags state) (entry : String × Value κ) :
    Holding D m flags (Engine.write state entry) := by
  have hafter : Reachable D (state.1.set state.2 entry.1 entry.2).2 :=
    h.reachable.after (.set state.2 entry.1 entry.2) nofun
  unfold Engine.write
  dsimp only
  cases hset : (state.1.set state.2 entry.1 entry.2).1 with
  | error error => exact ⟨hafter, h.wellFormed, h.metadata, h.flags⟩
  | ok written =>
    obtain ⟨hw, hsame⟩ := set_step h.wellFormed hset
    exact ⟨hafter, hw, hsame.metadata.trans h.metadata, hsame.flags.trans h.flags⟩

theorem Holding.writes {D : ClassDeclaration κ → Prop} {m : Metadata κ}
    {state : Engine κ × Instance κ} (h : Holding D m flags state)
    (entries : List (String × Value κ)) : Holding D m flags (entries.foldl Engine.write state) := by
  induction entries generalizing state with
  | nil => exact h
  | cons entry rest ih => exact ih (h.write entry)

/-- **The invariant of instances.**  All that is built while an instance is made is well-formed,
under the flags of the call.  An instance that is made is well-formed after any writes, and so is
all that the next write builds.  The next write changes nothing if it fails, and nothing but the
named property if it succeeds. -/
theorem Reachable.upholds (hr : Reachable (fun _ => True) engine) (className : String)
    (input : Table (Value κ)) (flags : Flags) :
    (∀ entry ∈ engine.makeOrders className input flags, ∀ r, engine.Builds entry r →
      r.WellFormed ∧ r.flags = flags.withoutTransient) ∧
    ∀ record, (engine.make className input flags).1 = .ok record →
      ∀ (writes : List (String × Value κ)) later held,
        writes.foldl Engine.write ((engine.make className input flags).2, record) = (later, held) →
        (held.WellFormed ∧ held.metadata = record.metadata ∧
          held.flags = flags.withoutTransient) ∧
        ∀ name value,
          (∀ entry ∈ later.setOrders held name value, ∀ r, later.Builds entry r →
            r.WellFormed ∧ r.flags = flags.withoutTransient) ∧
          match (later.set held name value).1 with
          | .error _ => (Engine.write (later, held) (name, value)).2 = held
          | .ok written => (Engine.write (later, held) (name, value)).2 = written ∧
              written.WellFormed ∧ held.SameBut name written := by
  constructor
  · intro entry he r hb
    obtain ⟨hw, hf⟩ := hr.builds hb
    exact ⟨hw, hf.trans (Construction.flags_of_mem_allOrders he)⟩
  intro record hm writes later held hstate
  obtain ⟨hw, hf⟩ := Construction.wellFormed_of_makeWithin (fun _ _ hm => hr.wellFormed hm)
    (Construction.outerOrder className input flags) hm
  have hstart : Holding (fun _ => True) record.metadata flags.withoutTransient
      ((engine.make className input flags).2, record) :=
    ⟨hr.make className input flags, hw, rfl, hf⟩
  have hheld := hstart.writes writes
  rw [hstate] at hheld
  refine ⟨⟨hheld.wellFormed, hheld.metadata, hheld.flags⟩, fun name value => ⟨?_, ?_⟩⟩
  · intro entry he r hb
    obtain ⟨hw, hf⟩ := hheld.reachable.builds hb
    refine ⟨hw, hf.trans ?_⟩
    rw [flags_of_mem_setOrders he, hheld.flags, Flags.withoutTransient_idem]
  · cases hset : (later.set held name value).1 with
    | error error =>
      show (later.set held name value).1.toOption.getD held = held
      rw [hset]
      rfl
    | ok written =>
      refine ⟨?_, set_step hheld.wellFormed hset⟩
      show (later.set held name value).1.toOption.getD held = written
      rw [hset]
      rfl

end Engine

/-- A country, written twice: the name cannot be a number, the capital may be null. -/
theorem Atlas.upholds_france : ∃ record later held,
    (engine.make "Country" france .mutable).1 = .ok record ∧
      [("name", .int 3), ("capital", .null)].foldl Engine.write
        ((engine.make "Country" france .mutable).2, record) = (later, held) ∧
      held.WellFormed ∧ held.stored? "capital" = some .null := by
  obtain ⟨record, hrecord⟩ : ∃ record, (engine.make "Country" france .mutable).1 = .ok record :=
    ⟨_, rfl⟩
  obtain ⟨⟨hheld, -⟩, -⟩ := (Engine.Reachable.upholds (reachable trivial trivial) "Country"
    france .mutable).2 record hrecord [("name", .int 3), ("capital", .null)] _ _ rfl
  refine ⟨record, _, _, hrecord, rfl, hheld, ?_⟩
  cases hrecord
  rfl

end TypedRecords
