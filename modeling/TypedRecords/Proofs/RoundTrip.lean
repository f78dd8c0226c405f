import TypedRecords.Proofs.Invariant
import TypedRecords.Proofs.Returns
import TypedRecords.Proofs.Settling
import TypedRecords.Value.Equality

/-!
# Round trips

An instance that is made from plain input by built-in casts has plain data, and an instance that is
made from this data has the same data, in the same order.

* `Construction.resettled`: the settled properties with other values.  What is made of them settles
  on the same properties.
* `Construction.returns_of_carryOut`: **an instance comes back**, at every depth.
* `Engine.Reachable.round_trip`: an engine without custom casts makes it from its own data again.
-/

namespace TypedRecords

variable {κ : Type}

/-! ## Instances come back -/

namespace Construction

variable {plan : Plan κ} {call levels : Nat} {m : Metadata κ} {flags : Flags}
  {input supplied : Table (Value κ)} {r : Instance κ}

/-- The settled properties in order of declaration, each with the given value instead. -/
def resettled (m : Metadata κ) (flags : Flags) (supplied : Table (Value κ))
    (values : Property κ → Value κ) : Table (Value κ) :=
  m.tableOf fun property => (settled? flags supplied property).map fun _ => values property

theorem data_assembled {casting : Casting κ} (hd : m.names.Nodup) {data : Property κ → Value κ}
    (h : ∀ property ∈ m.properties, ∀ w, settled? flags supplied property = some w →
      w.dataFor casting ⟨flags, false⟩ property = .ok (data property)) :
    (assembled m flags input supplied).data casting false =
      .ok (resettled m flags supplied data) := by
  rw [Instance.data_eq (assembled m flags input supplied) data]
  · refine congrArg Except.ok (Metadata.tableOf_congr fun property hp => ?_)
    rw [stored?_assembled hd hp]
  · intro property hp w hw
    rw [stored?_assembled hd hp] at hw
    exact h property hp w hw

variable {again : Property κ → Value κ}

theorem settled?_resettled (hd : m.names.Nodup) {property : Property κ}
    (hp : property ∈ m.properties) :
    settled? flags (resettled m flags supplied again) property =
      (settled? flags supplied property).map fun _ => again property := by
  have hget : Table.get? (resettled m flags supplied again) property.name =
      (settled? flags supplied property).map fun _ => again property := by
    unfold resettled
    rw [Metadata.get?_tableOf hd, Metadata.property?_of_mem hd hp, Option.bind_some]
  cases hs : settled? flags supplied property with
  | some w =>
    rw [hs] at hget
    exact settled?_of_get? hget
  | none =>
    rw [hs] at hget
    exact settled?_eq_none_iff.mpr ⟨hget, (settled?_eq_none_iff.mp hs).2⟩

theorem unsettled_resettled (hd : m.names.Nodup) :
    unsettled m flags (resettled m flags supplied again) = unsettled m flags supplied := by
  unfold unsettled
  refine congrArg (List.map Property.name) (List.filter_congr fun property hp => ?_)
  rw [settled?_resettled hd hp]
  cases settled? flags supplied property <;> rfl

theorem resettled_resettled (hd : m.names.Nodup) {values : Property κ → Value κ} :
    resettled m flags (resettled m flags supplied again) values =
      resettled m flags supplied values := by
  refine Metadata.tableOf_congr fun property hp => ?_
  rw [settled?_resettled hd hp]
  cases settled? flags supplied property <;> rfl

theorem unknownKeys_resettled : unknownKeys m (resettled m flags supplied again) = [] := by
  refine List.filter_eq_nil_iff.mpr fun key hk => ?_
  have hdeclared : m.declares key = true :=
    Metadata.declares_iff.mpr (Metadata.keys_tableOf_sublist.subset hk)
  rw [hdeclared]
  exact Bool.false_ne_true

theorem collect_resettled {bench : Workbench κ} {site : Site} (hd : m.names.Nodup)
    {data : Property κ → Value κ}
    (h : ∀ property ∈ m.properties, ∀ w, settled? flags supplied property = some w →
      (property.castValue bench site flags (data property)).result = .ok (again property)) :
    (Build.collect m.name (castEntry bench m site flags)
      (resettled m flags supplied data)).result =
        .ok ((resettled m flags supplied again).map some) := by
  refine Build.collect_of_forall₂ ?_
  rw [List.forall₂_map_right_iff]
  refine Metadata.forall₂_tableOf fun property hp => ?_
  cases hs : settled? flags supplied property with
  | none => exact .none
  | some w =>
    refine .some (castEntry_eq_ok.mpr (.inr ⟨property, again property, ?_, h property hp w hs, rfl⟩))
    exact Metadata.property?_of_mem hd hp

theorem comesBack_of_settled? (hp : plan.Native) (hr : Returns plan levels) (hm : m.WellFormed)
    (hn : ∀ property ∈ m.properties, property.Native plan.registry)
    (hs : ∀ property ∈ m.properties, ∀ explicit, property.default = some explicit →
      explicit.IsSimple)
    {place : List Step} {cast : List (Option (String × Value κ))}
    (hi : ∀ entry ∈ input, entry.2.IsPlain)
    (hc : (Build.collect m.name (castEntry (benchOf plan call levels) m
      (siteOf plan call levels place) flags.withoutTransient) input).result = .ok cast)
    {property : Property κ} (hmem : property ∈ m.properties) {w : Value κ}
    (hw : settled? flags.withoutTransient (cast.filterMap id) property = some w) :
    ∃ data, property.ComesBack plan levels flags.withoutTransient w data := by
  have haccepts : property.accepts flags.withoutTransient w = true := by
    rw [Property.accepts_withoutTransient]
    exact accepted_of_settled? hm (fun entry he => accepted_of_collect hc he) hmem hw
  unfold settled? at hw
  split at hw
  · next supplied hg =>
    cases hw
    obtain ⟨_, hcast, he⟩ := List.mem_filterMap.mp (Table.mem_of_get? hg)
    cases he
    obtain ⟨item, hitem, hentry⟩ := Build.mem_of_collect hc hcast
    rcases castEntry_eq_ok.mp hentry with ⟨-, hnone⟩ | ⟨declared, value, hdeclared, hvalue, he⟩
    · cases hnone
    · obtain ⟨hname, hvalue'⟩ := Prod.mk.inj (Option.some.inj he)
      subst hvalue'
      rw [← hname, Metadata.property?_of_mem hm.distinct hmem] at hdeclared
      cases hdeclared
      exact Property.comesBack_of_castValue hp hr (hn property hmem) (hi item hitem) hvalue
  · split at hw
    · exact ⟨w, Property.comesBack_of_default? hp (hn property hmem) (hs property hmem) haccepts hw⟩
    · cases hw

theorem choose_settled {P : Property κ → Value κ → Value κ → Prop}
    (h : ∀ property ∈ m.properties, ∀ w, settled? flags supplied property = some w →
      ∃ v, P property w v) :
    ∃ values : Property κ → Value κ, ∀ property ∈ m.properties, ∀ w,
      settled? flags supplied property = some w → P property w (values property) := by
  have hvalue : ∀ property, ∃ v : Value κ, property ∈ m.properties → ∀ w,
      settled? flags supplied property = some w → P property w v := by
    intro property
    by_cases hmem : property ∈ m.properties
    · cases hs : settled? flags supplied property with
      | none => exact ⟨.null, nofun⟩
      | some w =>
        obtain ⟨v, hv⟩ := h property hmem w hs
        exact ⟨v, fun _ _ hw => by cases hw; exact hv⟩
    · exact ⟨.null, fun h => absurd h hmem⟩
  choose values hvalues using hvalue
  exact ⟨values, hvalues⟩

theorem returns_construct (hd : m.names.Nodup) {place : List Step}
    (hback : ∀ cast, (Build.collect m.name (castEntry (benchOf plan call levels) m
        (siteOf plan call levels place) flags) input).result = .ok cast →
      ∀ property ∈ m.properties, ∀ w, settled? flags (cast.filterMap id) property = some w →
        ∃ data, property.ComesBack plan levels flags w data)
    (h : (construct (benchOf plan call levels) m (siteOf plan call levels place) input
      flags).result = .ok r) :
    ∃ data, r.data plan.casting false = .ok data ∧ (∀ entry ∈ data, entry.2.IsPlain) ∧
      ∀ (call' : Nat) (place' : List Step), ∃ r',
        (construct (benchOf plan call' levels) m (siteOf plan call' levels place') data
          flags).result = .ok r' ∧
        r'.metadata = r.metadata ∧ r'.data plan.casting false = .ok data := by
  obtain ⟨-, cast, hc, hunsettled, rfl⟩ := construct_eq_ok.mp h
  have hback := hback cast hc
  generalize cast.filterMap id = supplied at hback hunsettled ⊢
  obtain ⟨data, hdata⟩ := choose_settled hback
  refine ⟨resettled m flags supplied data,
    data_assembled hd fun property hmem w hw => (hdata property hmem w hw).dataFor _ rfl,
    fun entry he => ?_, fun call' place' => ?_⟩
  · obtain ⟨property, hmem, -, hv⟩ := Metadata.mem_tableOf.mp he
    obtain ⟨w, hw, hv⟩ := Option.map_eq_some_iff.mp hv
    rw [← hv]
    exact (hdata property hmem w hw).isPlain
  · obtain ⟨again, hagain⟩ := choose_settled fun property hmem w hw =>
      (hdata property hmem w hw).again call' place'
    have hsome : ((resettled m flags supplied again).map some).filterMap id =
        resettled m flags supplied again := by
      rw [List.filterMap_map]
      exact List.filterMap_some
    refine ⟨assembled m flags (resettled m flags supplied data) (resettled m flags supplied again),
      construct_eq_ok.mpr ⟨.inl unknownKeys_resettled, _,
        collect_resettled hd fun property hmem w hw => (hagain property hmem w hw).1, ?_, ?_⟩,
      rfl, ?_⟩
    · rw [hsome, unsettled_resettled hd]
      exact hunsettled
    · rw [hsome]
    · rw [data_assembled hd, resettled_resettled hd]
      intro property hmem v hv
      rw [settled?_resettled hd hmem] at hv
      obtain ⟨w, hw, rfl⟩ := Option.map_eq_some_iff.mp hv
      exact (hagain property hmem w hw).2 _ rfl

/-- **Instances come back**, by induction on the levels that are left for what is nested in them. -/
theorem returns_of_carryOut (hp : plan.Native)
    (hs : ∀ className m, plan.metadata className = .ok m → ∀ property ∈ m.properties,
      ∀ explicit, property.default = some explicit → explicit.IsSimple) (levels : Nat) :
    Returns plan levels := by
  induction levels with
  | zero => exact fun call order r _ h => nomatch h
  | succ levels ih =>
    intro call order r hi h
    obtain ⟨_, m, hl, hmeta, h⟩ := makeWithin_eq_ok.mp h
    cases hl
    have hm := hp.wellFormed _ m hmeta
    obtain ⟨data, hdata, hplain, hagain⟩ := returns_construct hm.distinct
      (fun cast hc property hmem w hw => comesBack_of_settled? hp ih hm (hp.properties _ m hmeta)
        (hs _ m hmeta) hi hc hmem hw) h
    refine ⟨data, hdata, hplain, fun call' place' => ?_⟩
    obtain ⟨r', hr', hsame, hdata'⟩ := hagain call' place'
    exact ⟨r', makeWithin_eq_ok.mpr ⟨levels, m, rfl, hmeta, hr'⟩, hsame, hdata'⟩

end Construction

/-! ## Engines -/

/-- The declaration comes without custom casts, and all its explicit defaults are simple. -/
structure ClassDeclaration.Simple (declaration : ClassDeclaration κ) : Prop where
  withoutCasts : declaration.WithoutCasts
  defaults : ∀ entry ∈ declaration.defaults, entry.2.IsSimple

/-- **Data makes the round trip.**  Without custom casts, an instance that is made from plain input
has plain data, and from this data an instance with the same data is made. -/
theorem Engine.Reachable.round_trip {engine : Engine κ}
    (hr : Reachable ClassDeclaration.Simple engine) (hcasts : engine.casts = [])
    (className : String) (input : Table (Value κ)) (flags : Flags)
    (hi : ∀ entry ∈ input, entry.2.IsPlain) (record : Instance κ)
    (h : (engine.make className input flags).1 = .ok record) :
    ∃ data, record.data engine.casting false = .ok data ∧ (∀ entry ∈ data, entry.2.IsPlain) ∧
      ∃ again, ((engine.make className input flags).2.make className data flags).1 = .ok again ∧
        again.data engine.casting false = .ok data := by
  have hp : engine.plan.Native := hr.native (fun _ hd => hd.withoutCasts) hcasts
  have hs : ∀ name m, engine.plan.metadata name = .ok m → ∀ property ∈ m.properties,
      ∀ explicit, property.default = some explicit → explicit.IsSimple := by
    intro name m hm property hproperty explicit hexplicit
    obtain ⟨registry, _, hpast, hresolve⟩ := hr.metadata hm
    exact Metadata.default_of_resolve (fun entry he => (hpast.holds.classes entry he).defaults)
      hresolve hproperty hexplicit
  obtain ⟨data, hdata, hplain, hagain⟩ := Construction.returns_of_carryOut hp hs _ _
    (Construction.outerOrder className input flags) record hi h
  have hplan : (engine.make className input flags).2.plan = engine.plan :=
    hr.plan_grows (grows_make engine className input flags)
  obtain ⟨again, hmade, -, hsame⟩ := hagain (engine.make className input flags).2.calls []
  refine ⟨data, hdata, hplain, again, ?_, hsame⟩
  show (Construction.make (engine.make className input flags).2.plan _ className data flags).result
    = .ok again
  rw [hplan]
  exact hmade

/-- A country, whose capital gave its number of people as a text. -/
theorem Atlas.france_returns : ∃ record data again,
    (engine.make "Country" france .none).1 = .ok record ∧
      record.data engine.casting false = .ok data ∧
      (Table.get? data "capital").any
        (·.equal (.map [("name", .text "Paris"), ("people", .int 2102650)])) = true ∧
      ((engine.make "Country" france .none).2.make "Country" data .none).1 = .ok again ∧
      again.data engine.casting false = .ok data := by
  obtain ⟨record, hrecord⟩ : ∃ record, (engine.make "Country" france .none).1 = .ok record :=
    ⟨_, rfl⟩
  have hplain : ∀ entry ∈ france, entry.2.IsPlain := by
    have hcity : ∀ name people : Value Empty, name.IsPlain → people.IsPlain →
        (.map [("name", name), ("people", people)] : Value Empty).IsPlain := by
      intro name people hname hpeople
      exact .map (by simpa using ⟨hname, hpeople⟩)
    simpa [france] using ⟨.text, hcity _ _ .text .text,
      .list (by simpa using hcity _ _ .text .int), .list (by simpa using hcity _ _ .text .int)⟩
  have hsimple : ∀ {declaration : ClassDeclaration Empty}, declaration.WithoutCasts →
      declaration.defaults = [] → declaration.Simple :=
    fun hwithout hnone => ⟨hwithout, by rw [hnone]; nofun⟩
  obtain ⟨data, hdata, -, again, hagain, hsame⟩ :=
    Engine.Reachable.round_trip (reachable (hsimple ⟨rfl, rfl⟩ rfl) (hsimple ⟨rfl, rfl⟩ rfl)) rfl
      "Country" france .none hplain record hrecord
  have hcapital : (((engine.make "Country" france .none).1.toOption.bind fun r =>
      (r.data engine.casting false).toOption).bind (Table.get? · "capital")).any
        (·.equal (.map [("name", .text "Paris"), ("people", .int 2102650)])) = true := by
    decide +kernel
  rw [hrecord] at hcapital
  have hfrom : ((record.data engine.casting false).toOption.bind (Table.get? · "capital")).any
      (·.equal (.map [("name", .text "Paris"), ("people", .int 2102650)])) = true := hcapital
  rw [hdata] at hfrom
  exact ⟨record, data, again, hrecord, hdata, hfrom, hagain, hsame⟩

end TypedRecords
