import TypedRecords.Proofs.Agreement
import TypedRecords.Proofs.Reordering

/-!
# The order of keys does not matter

An instance is made twice, of inputs that differ in nothing but the order of keys.  The keys decide
what is cast first, and so which fatal error comes first and in what order failures are collected,
but in the end the properties stand in order of declaration and failures are reported together.
With built-in casts only, both runs succeed, with instances that differ in nothing but the order of
keys, or both fail and tell of the same failures.

What is nested in an instance is made one level deeper, so this is proved by induction on the
levels: `Workbench.IgnoresOrder` says it of the level below, and every step of a construction is
compared with the same step of the other run.

* `Cast.agree_convert`, `Property.agree_castValue`: converted values agree.
* `Construction.agree_construct`: so do instances of one class.
* `Engine.Reachable.key_order`: **the order of keys does not matter.**
-/

namespace TypedRecords

variable {κ : Type}

/-- Nested instances agree if their inputs differ in nothing but the order of keys. -/
def Workbench.IgnoresOrder (bench : Workbench κ) : Prop :=
  ∀ (place : List Step) (className : String) (flags : Flags) (input input' : Table (Value κ)),
    (Value.map input).KeysDistinct → input.Reordered input' →
      Agree Instance.Reordered (bench.nested place className input flags).result
        (bench.nested place className input' flags).result

theorem Value.KeysDistinct.forall₂ {items items' : List (Value κ)}
    (hd : (Value.list items).KeysDistinct) (h : List.Forall₂ Reordered items items') :
    List.Forall₂ (fun v v' : Value κ => v.KeysDistinct ∧ v.Reordered v') items items' :=
  (List.forall₂_and_left items items').mpr ⟨Value.keysDistinct_list_iff.mp hd, h⟩

/-! ## Casts -/

namespace Cast

variable {bench : Workbench κ} {request : CastRequest} {v v' : Value κ}

theorem agree_convertInstance (hb : bench.IgnoresOrder) {className : String}
    (ht : request.type = .named className) {input : Table (Value κ)}
    (hd : (Value.map input).KeysDistinct) (h : (Value.map input).Reordered v') :
    Agree Value.Reordered (convertInstance bench request (.map input)).result
      (convertInstance bench request v').result := by
  obtain ⟨input', rfl, hinput⟩ := h.of_map
  unfold convertInstance
  rw [ht]
  exact Build.agree_bind (hb _ _ _ _ _ hd hinput) fun r r' _ _ hr => .ok (.record hr)

theorem agree_convertItem (hb : bench.IgnoresOrder) (itemClass : String) (index : Nat)
    (hd : v.KeysDistinct) (h : v.Reordered v') :
    Agree (fun item item' => item.1 = item'.1 ∧ Instance.Reordered item.2 item'.2)
      (convertItem bench request itemClass (v, index)).result
      (convertItem bench request itemClass (v', index)).result := by
  cases v with
  | map input =>
    obtain ⟨input', rfl, hinput⟩ := h.of_map
    refine Build.agree_prefixed ?_ _
    exact Build.agree_bind (hb _ _ _ _ _ hd hinput) fun r r' _ _ hr => .ok ⟨rfl, hr⟩
  | record origin r =>
    obtain ⟨r', rfl, hr⟩ := h.of_record
    have hfailure := h.failure request.owner (toString index) itemClass
    have hclass : r'.isInstanceOf itemClass = r.isInstanceOf itemClass := by
      cases hr with
      | intro hm => simp [Instance.isInstanceOf, hm]
    unfold convertItem
    dsimp only
    rw [hclass, hfailure]
    split
    · exact .ok ⟨rfl, hr⟩
    · exact .error (.refl_of_isMergeable rfl)
  | _ => cases h <;> exact .error (.refl_of_isMergeable rfl)

theorem agree_convertCollection (hb : bench.IgnoresOrder) {elements : List (Value κ)}
    (hd : (Value.list elements).KeysDistinct) (h : (Value.list elements).Reordered v') :
    Agree Value.Reordered (convertCollection bench request (.list elements)).result
      (convertCollection bench request v').result := by
  obtain ⟨elements', rfl, helements⟩ := h.of_list
  unfold convertCollection
  cases request.type.className?.bind bench.registry.collection? with
  | none => exact .error (.fatal rfl rfl)
  | some declaration =>
    exact Build.agree_bind (Build.agree_collect_zipIdx _
        (fun v v' index hv => agree_convertItem hb declaration.itemClass index hv.1 hv.2)
        (hd.forall₂ helements))
      fun items items' _ _ hitems =>
        .ok (.collection (forall₂_pair_iff.mp hitems).1 (forall₂_pair_iff.mp hitems).2)

/-- **What built-in casts convert agrees.** -/
theorem agree_convert (hb : bench.IgnoresOrder) {types : List TypeName} {cast : Cast κ}
    (hc : Claimed bench.registry types request.type cast v) (hd : v.KeysDistinct)
    (h : v.Reordered v') :
    Agree Value.Reordered (cast.convert bench request v).result
      (cast.convert bench request v').result := by
  generalize ht : request.type = type at hc
  cases hc with
  | map => exact agree_convertInstance hb ht hd h
  | list => exact agree_convertCollection hb hd h

end Cast

/-! ## Properties -/

namespace Property

variable {bench : Workbench κ} {property : Property κ} {site : Site} {flags : Flags}
  {v v' : Value κ}

theorem agree_castElement (hb : bench.IgnoresOrder) (hn : property.Native bench.registry)
    (index : Nat) (hd : v.KeysDistinct) (h : v.Reordered v') :
    Agree Value.Reordered (property.castElement bench site flags (v, index)).result
      (property.castElement bench site flags (v', index)).result := by
  have hclaims : claim? bench property.elementCasts v' = claim? bench property.elementCasts v :=
    hn.elementCasts.claim?_congr h.sameShape
  unfold castElement
  dsimp only
  rw [hclaims, h.keepsElement, h.failure]
  cases hclaim : claim? bench property.elementCasts v with
  | some entry =>
    exact Build.agree_prefixed (Cast.agree_convert hb (hn.elementCasts.claimed hclaim) hd h) _
  | none =>
    dsimp only
    split
    · exact .ok h
    · exact .error (.refl_of_isMergeable rfl)

theorem agree_coerceWhole (hb : bench.IgnoresOrder) (hn : property.Native bench.registry)
    (hd : v.KeysDistinct) (h : v.Reordered v') :
    Agree Value.Reordered (property.coerceWhole bench site flags v).result
      (property.coerceWhole bench site flags v').result := by
  have hclaims : claim? bench property.casts v' = claim? bench property.casts v :=
    hn.casts.claim?_congr h.sameShape
  unfold coerceWhole
  rw [hclaims, h.readInteger?]
  cases hclaim : claim? bench property.casts v with
  | some entry => exact Cast.agree_convert hb (hn.casts.claimed hclaim) hd h
  | none =>
    cases property.readInteger? v with
    | some n => exact .ok (.refl _)
    | none => exact .ok h

theorem agree_coerce (hb : bench.IgnoresOrder) (hn : property.Native bench.registry)
    (hd : v.KeysDistinct) (h : v.Reordered v') :
    Agree Value.Reordered (property.coerce bench site flags v).result
      (property.coerce bench site flags v').result := by
  have hwhole : Agree Value.Reordered (property.coerceWhole bench site flags v).result
    (property.coerceWhole bench site flags v').result := agree_coerceWhole hb hn hd h
  cases v with
  | list items =>
    obtain ⟨items', rfl, hitems⟩ := h.of_list
    have hlists : property.castsElements bench items' = property.castsElements bench items :=
      castsElements_congr hn (hitems.imp fun _ _ h => h.sameShape)
    simp only [coerce, hlists]
    split
    · exact Build.agree_bind (Build.agree_collect_zipIdx _
          (fun v v' index hv => agree_castElement hb hn index hv.1 hv.2) (hd.forall₂ hitems))
        fun _ _ _ _ hmade => .ok (.list hmade)
    · exact hwhole
  | _ => cases h <;> exact hwhole

/-- **What properties cast agrees.** -/
theorem agree_castValue (hb : bench.IgnoresOrder) (hn : property.Native bench.registry)
    (hd : v.KeysDistinct) (h : v.Reordered v') :
    Agree Value.Reordered (property.castValue bench site flags v).result
      (property.castValue bench site flags v').result := by
  refine Build.agree_bind (Build.agree_prefixed (agree_coerce hb hn hd h) _)
    fun w w' _ _ hw => ?_
  unfold invalid
  rw [hw.accepts, hw.failure]
  split
  · exact .ok hw
  · exact .error (.refl_of_isMergeable rfl)

end Property

/-! ## Instances -/

namespace Construction

variable {bench : Workbench κ} {m : Metadata κ} {site : Site} {flags : Flags}
  {input input' : Table (Value κ)}

theorem agree_castEntry (hb : bench.IgnoresOrder)
    (hn : ∀ property ∈ m.properties, property.Native bench.registry) {entry entry' : String × Value κ}
    (hd : entry.2.KeysDistinct) (hkey : entry.1 = entry'.1) (h : entry.2.Reordered entry'.2) :
    Agree (fun _ _ => True) (castEntry bench m site flags entry).result
      (castEntry bench m site flags entry').result := by
  unfold castEntry
  rw [hkey]
  cases hp : m.property? entry'.1 with
  | none => exact .ok trivial
  | some property =>
    have hmem := (Metadata.property?_eq_some hp).1
    exact Build.agree_bind (Property.agree_castValue hb (hn property hmem) hd h)
      fun _ _ _ _ _ => .ok trivial

theorem agree_collect (hb : bench.IgnoresOrder)
    (hn : ∀ property ∈ m.properties, property.Native bench.registry)
    (hd : (Value.map input).KeysDistinct) (h : input.Reordered input') :
    Agree (fun _ _ => True)
      (Build.collect m.name (castEntry bench m site flags) input).result
      (Build.collect m.name (castEntry bench m site flags) input').result := by
  obtain ⟨middle, hperm, hentries⟩ := h
  have hboth := (List.forall₂_and_left middle input').mpr
    ⟨fun entry he => (Value.keysDistinct_map_iff.mp hd).2 entry (hperm.mem_iff.mpr he), hentries⟩
  exact Build.agree_collect_of_perm _ hperm
    (hboth.imp fun entry entry' ⟨hd, hkey, h⟩ => agree_castEntry hb hn hd hkey h)

theorem rel_settled? (hb : bench.IgnoresOrder) (hm : m.names.Nodup)
    (hn : ∀ property ∈ m.properties, property.Native bench.registry)
    (hd : (Value.map input).KeysDistinct) (h : input.Reordered input')
    {cast cast' : List (Option (String × Value κ))}
    (hc : CastsTo bench m site flags input cast) (hc' : CastsTo bench m site flags input' cast')
    {property : Property κ} (hp : property ∈ m.properties) :
    Option.Rel Value.Reordered (settled? flags (cast.filterMap id) property)
      (settled? flags (cast'.filterMap id) property) := by
  obtain ⟨hdistinct, hvalues⟩ := Value.keysDistinct_map_iff.mp hd
  have hrel := h.rel_get? hdistinct property.name
  cases hget : Table.get? input property.name with
  | none =>
    rw [hget] at hrel
    generalize hget' : Table.get? input' property.name = given' at hrel
    cases hrel
    rw [hc.settled?_of_not_supplied hm hp hget, hc'.settled?_of_not_supplied hm hp hget']
    cases (if fillsDefaults flags then property.default? flags else none) with
    | none => exact .none
    | some default => exact .some (.refl default)
  | some v =>
    rw [hget] at hrel
    generalize hget' : Table.get? input' property.name = given' at hrel
    cases hrel with
    | some hv =>
      obtain ⟨w, hw, hsettled⟩ := hc.settled?_of_supplied hm hp hget
      obtain ⟨w', hw', hsettled'⟩ := hc'.settled?_of_supplied hm hp hget'
      have hagree : Agree Value.Reordered (property.castValue bench site flags v).result _ :=
        Property.agree_castValue hb (hn property hp)
          (hvalues _ (Table.mem_of_get? hget)) hv
      rw [hw, hw'] at hagree
      rw [hsettled, hsettled']
      cases hagree with
      | ok hwr => exact .some hwr

section Assembled

variable {supplied supplied' : Table (Value κ)}
  (hsettled : ∀ property ∈ m.properties, Option.Rel Value.Reordered
    (settled? flags supplied property) (settled? flags supplied' property))

include hsettled

theorem unsettled_congr : unsettled m flags supplied' = unsettled m flags supplied := by
  refine congrArg (List.map Property.name) (List.filter_congr fun property hp => ?_)
  have hrel := hsettled property hp
  generalize settled? flags supplied property = x at hrel ⊢
  generalize settled? flags supplied' property = y at hrel ⊢
  cases hrel <;> rfl

theorem reordered_assembled (h : input.Reordered input') :
    (assembled m flags input supplied).Reordered (assembled m flags input' supplied') := by
  have hstored : List.Forall₂ (fun entry entry' => entry.1 = entry'.1 ∧
      Value.Reordered entry.2 entry'.2) (settle m flags supplied) (settle m flags supplied') :=
    Metadata.forall₂_tableOf fun property hp => by
      have hrel := hsettled property hp
      generalize settled? flags supplied property = x at hrel ⊢
      generalize settled? flags supplied' property = y at hrel ⊢
      cases hrel with
      | none => exact .none
      | some hv => exact .some ⟨rfl, hv⟩
  have htracked : (trackedEntries m flags input).Reordered (trackedEntries m flags input') := by
    unfold trackedEntries
    split
    · exact h.filter fun key => !m.declares key
    · exact .refl []
  obtain ⟨middle, hperm, hentries⟩ := htracked
  obtain ⟨hkeys, hvalues⟩ := forall₂_pair_iff.mp hstored
  obtain ⟨hkeys', hvalues'⟩ := forall₂_pair_iff.mp hentries
  exact .intro rfl rfl hkeys hvalues hperm hkeys' hvalues'

end Assembled

/-- **Instances of one class agree**, as long as what is nested in them does. -/
theorem agree_construct (hb : bench.IgnoresOrder)
    (hs : ∀ order e, (bench.carryOut order).result = .error e → ¬ e.IsSilent)
    (hm : m.names.Nodup) (hn : ∀ property ∈ m.properties, property.Native bench.registry)
    (hd : (Value.map input).KeysDistinct) (h : input.Reordered input') :
    Agree Instance.Reordered (construct bench m site input flags).result
      (construct bench m site input' flags).result := by
  have hunknown : (unknownKeys m input).Perm (unknownKeys m input') := h.keys_perm.filter _
  have hempty : (unknownKeys m input).isEmpty = (unknownKeys m input').isEmpty := by
    rw [Bool.eq_iff_iff, List.isEmpty_iff_length_eq_zero, List.isEmpty_iff_length_eq_zero,
      hunknown.length_eq]
  unfold construct
  dsimp only
  rw [hempty]
  split
  · exact .error (.report rfl rfl (.refl _) (fun _ => hunknown.mem_iff) fun _ => Iff.rfl)
  · refine Build.agree_bind (agree_collect hb hn hd h) fun cast cast' hcast hcast' _ => ?_
    have hsilent : ∀ input : Table (Value κ), ∀ entry ∈ input, ∀ e,
        (castEntry bench m site flags entry).result = .error e → ¬ e.IsSilent :=
      fun _ _ _ _ he => not_isSilent_of_castEntry hn hs he
    have hall := castsTo_of_collect (hsilent input) hcast
    have hall' := castsTo_of_collect (hsilent input') hcast'
    have hsettled := fun property (hp : property ∈ m.properties) =>
      rel_settled? hb hm hn hd h hall hall' hp
    rw [unsettled_congr hsettled]
    split
    · exact .error (.refl_of_isMergeable rfl)
    · exact .ok (reordered_assembled hsettled h)

/-- **Nested instances agree**, by induction on the levels that are left for them. -/
theorem ignoresOrder_benchOf {plan : Plan κ} (hp : plan.Native) (hr : plan.Regular)
    (call levels : Nat) : (benchOf plan call levels).IgnoresOrder := by
  induction levels with
  | zero => exact fun _ _ _ _ _ _ _ => .error (.fatal rfl rfl)
  | succ levels ih =>
    intro place className flags input input' hd h
    cases hm : plan.metadata className with
    | error error =>
      have hboth : ∀ input : Table (Value κ), ((benchOf plan call (levels + 1)).nested place
          className input flags).result = .error error :=
        fun _ => Build.bind_eq_error.mpr (.inl hm)
      rw [hboth, hboth]
      exact .error (hr.normal _ _ hm).alike_self
    | ok m =>
      have hboth : ∀ input : Table (Value κ), ((benchOf plan call (levels + 1)).nested place
          className input flags).result = (construct (benchOf plan call levels) m
            (siteOf plan call levels place) input flags.withoutTransient).result :=
        fun _ => result_makeWithin hm
      rw [hboth, hboth]
      exact agree_construct ih (not_isSilent_of_benchOf hp.reported call levels)
        (hp.wellFormed _ m hm).distinct (hp.properties _ m hm) hd h

end Construction

/-! ## Engines -/

/-- **The order of keys does not matter.**  Without custom casts, inputs that differ in nothing but
the order of keys, at any depth, give instances that differ in nothing but the order of keys, or
errors that tell of the same failures. -/
theorem Engine.Reachable.key_order {engine : Engine κ}
    (hr : Reachable ClassDeclaration.WithoutCasts engine) (hcasts : engine.casts = [])
    (className : String) (flags : Flags) {input input' : Table (Value κ)}
    (hd : (Value.map input).KeysDistinct) (h : input.Reordered input') :
    Agree Instance.Reordered (engine.make className input flags).1
      (engine.make className input' flags).1 :=
  Construction.ignoresOrder_benchOf (hr.native (fun _ hd => hd) hcasts) hr.regular engine.calls
    (engine.plan.maxDepth + 1) [] className flags input input' hd h

namespace Atlas

/-- The input for a country in another order, and with its cities turned round. -/
def franceTurned : Table (Value Empty) :=
  [("ports", .list [.map [("people", .int 139456), ("name", .text "Brest")]]),
    ("towns", .list [.map [("people", .int 522250), ("name", .text "Lyon")]]),
    ("capital", .map [("people", .text "2102650"), ("name", .text "Paris")]),
    ("name", .text "France")]

theorem france_turned : ∃ r r', (engine.make "Country" france .none).1 = .ok r ∧
    (engine.make "Country" franceTurned .none).1 = .ok r' ∧ r.Reordered r' := by
  have htext : ∀ s : String, (.text s : Value Empty).KeysDistinct :=
    fun _ => Value.keysDistinct_of_isScalar rfl
  have hint : ∀ n : Int64, (.int n : Value Empty).KeysDistinct :=
    fun _ => Value.keysDistinct_of_isScalar rfl
  have hdistinct : (Value.map france).KeysDistinct := by
    simp [france, Table.Distinct, Table.keys, htext, hint]
  have hcity : ∀ name people : Value Empty, (Value.map [("name", name), ("people", people)]).Reordered
      (.map [("people", people), ("name", name)]) := by
    intro name people
    exact .map (List.Perm.swap _ _ _) rfl (.cons (.refl _) (.cons (.refl _) .nil))
  have hreordered : france.Reordered franceTurned :=
    ⟨france.reverse, (List.reverse_perm _).symm,
      .cons ⟨rfl, .list (.cons (hcity _ _) .nil)⟩ (.cons ⟨rfl, .list (.cons (hcity _ _) .nil)⟩
        (.cons ⟨rfl, hcity _ _⟩ (.cons ⟨rfl, .refl _⟩ .nil)))⟩
  obtain ⟨r, h⟩ : ∃ r, (engine.make "Country" france .none).1 = .ok r := ⟨_, rfl⟩
  have hagree := (reachable ⟨rfl, rfl⟩ ⟨rfl, rfl⟩).key_order rfl "Country" .none hdistinct hreordered
  rw [h] at hagree
  generalize h' : (engine.make "Country" franceTurned .none).1 = outcome at hagree
  cases hagree with
  | ok hr => exact ⟨r, _, h, rfl, hr⟩

end Atlas

end TypedRecords
