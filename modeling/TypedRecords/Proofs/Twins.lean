import TypedRecords.Proofs.Reordering
import TypedRecords.Proofs.Resubmission

/-!
# What a call makes again

A call that is made again makes new instances, which are not the ones that were made before.  Apart
from that, nothing depends on the number of the call, nor on the place in its input.  Two runs that
differ in these only fail with the same error, or make *twins*: values that are the same but for the
identity of the instances and collections in them.

* `Value.Twin`, `Instance.Twin`: the same but for identities.  `Value.Twin.accepts`: a property
  accepts both or neither.
* `Matches`: two outcomes are the same error, or results that are related.
* `Property.matches_castValue`: converted values are twins, as long as nested instances are.
* `Construction.twin_benchOf`: **nested instances are twins**, by induction on the levels.
-/

namespace TypedRecords

variable {κ : Type}

/-! ## The same but for identities -/

mutual

/-- The values are the same but for the identities of instances and collections that were made. -/
inductive Value.Twin : Value κ → Value κ → Prop
  | refl (v : Value κ) : Value.Twin v v
  | list {items items' : List (Value κ)} : List.Forall₂ Value.Twin items items' →
      Value.Twin (.list items) (.list items')
  | record {origin origin' : Origin} {r r' : Instance κ} : Instance.Twin r r' →
      Value.Twin (.record origin r) (.record origin' r')
  | collection {origin origin' : Origin} {name itemClass : String}
      {items items' : List (Origin × Instance κ)} :
      List.Forall₂ Instance.Twin (items.map Prod.snd) (items'.map Prod.snd) →
      Value.Twin (.object origin (.collection name itemClass items))
        (.object origin' (.collection name itemClass items'))

/-- The instances have the same class, the same flags, the same undeclared input, and twins for
their properties. -/
inductive Instance.Twin : Instance κ → Instance κ → Prop
  | intro {r r' : Instance κ} : r.metadata = r'.metadata → r.flags = r'.flags →
      r.tracked = r'.tracked → r.stored.map Prod.fst = r'.stored.map Prod.fst →
      List.Forall₂ Value.Twin (r.stored.map Prod.snd) (r'.stored.map Prod.snd) →
      Instance.Twin r r'

end

theorem Instance.Twin.refl (r : Instance κ) : r.Twin r :=
  .intro rfl rfl rfl rfl (List.forall₂_same.mpr fun _ _ => .refl _)

namespace Value.Twin

variable {v v' : Value κ}

theorem failure (h : v.Twin v') (owner path expected : String) :
    Failure.ofValue owner path expected v' = Failure.ofValue owner path expected v := by
  cases h with
  | record hr =>
    cases hr with
    | intro hm => simp [Failure.ofValue, summary, kind, Instance.className, hm]
  | _ => rfl

theorem holds (h : v.Twin v') (type : TypeName) : type.holds v' = type.holds v := by
  cases type with
  | keyword k => cases h <;> cases k <;> rfl
  | named className =>
    cases h with
    | record hr =>
      cases hr with
      | intro hm => simp [TypeName.holds, Instance.isInstanceOf, hm]
    | _ => rfl

/-- **A property accepts both twins or neither.** -/
theorem accepts (h : v.Twin v') (property : Property κ) (flags : Flags) :
    property.accepts flags v' = property.accepts flags v := by
  have hholds := h.holds
  cases h with
  | refl => rfl
  | list hitems => exact Property.accepts_list_congr (hitems.imp fun _ _ h => h.holds)
  | record | collection => simp [Property.accepts, isNull, UnionType.holds, hholds]

end Value.Twin

/-! ## Outcomes -/

section Matches

variable {α β α' β' : Type}

/-- Two outcomes match: both are results, which are related, or both are the same error. -/
inductive Matches (R : α → β → Prop) : Except Error α → Except Error β → Prop
  | ok {a : α} {b : β} : R a b → Matches R (.ok a) (.ok b)
  | error (e : Error) : Matches R (.error e) (.error e)

theorem Matches.of_eq {R : α → α → Prop} (hr : ∀ a, R a a) (x : Except Error α) :
    Matches R x x := by
  cases x with
  | ok a => exact .ok (hr a)
  | error e => exact .error e

namespace Build

variable {R : α → β → Prop} {S : α' → β' → Prop}

theorem matches_bind {build : Build κ α} {build' : Build κ β} {next : α → Build κ α'}
    {next' : β → Build κ β'} (h : Matches R build.result build'.result)
    (hnext : ∀ a b, R a b → Matches S (next a).result (next' b).result) :
    Matches S (build >>= next).result (build' >>= next').result := by
  rw [result_bind, result_bind]
  generalize build.result = x at h
  generalize build'.result = y at h
  cases h with
  | ok hr => exact hnext _ _ hr
  | error e => exact .error e

theorem matches_prefixed {build : Build κ α} {build' : Build κ β}
    (h : Matches R build.result build'.result) (head : String) :
    Matches R (Build.prefixed head build).result (Build.prefixed head build').result := by
  rw [result_prefixed, result_prefixed]
  generalize build.result = x at h
  generalize build'.result = y at h
  cases h with
  | ok hr => exact .ok hr
  | error e => exact .error _

/-- **Steps that match one by one match together.** -/
theorem matches_collect (owner : String) {step : α → Build κ α'} {step' : α → Build κ β'}
    {items : List α} (h : ∀ item ∈ items, Matches S (step item).result (step' item).result) :
    Matches (List.Forall₂ S) (collect owner step items).result
      (collect owner step' items).result := by
  have herrors : errorsOf step' items = errorsOf step items := by
    refine List.filterMap_congr fun item hi => ?_
    have hitem := h item hi
    unfold errorOf?
    generalize (step item).result = x at hitem
    generalize (step' item).result = y at hitem
    cases hitem <;> rfl
  have hmade : List.Forall₂ S (madeOf step items) (madeOf step' items) := by
    have hsame : List.Forall₂ (fun a b => Matches S (step a).result (step' b).result) items items :=
      List.forall₂_same.mpr h
    refine List.rel_filterMap (fun a b hab => ?_) hsame
    generalize (step a).result = x at hab
    generalize (step' b).result = y at hab
    cases hab with
    | ok hs => exact .some hs
    | error _ => exact .none
  rw [result_collect, result_collect, herrors]
  unfold settleWith
  split
  · exact .error _
  · split
    · exact .error _
    · exact .ok hmade

end Build

end Matches

/-! ## Casts -/

/-- The benches know of the same collections, and nested instances made on them are twins, at
whatever place. -/
structure Workbench.Twin (bench bench' : Workbench κ) : Prop where
  registry : bench'.registry = bench.registry
  nested : ∀ (place place' : List Step) (className : String) (input : Table (Value κ))
    (flags : Flags), Matches Instance.Twin (bench.nested place className input flags).result
      (bench'.nested place' className input flags).result

/-- The requests are for the same type and under the same flags, on behalf of the same class. -/
structure CastRequest.Twin (request request' : CastRequest) : Prop where
  owner : request'.owner = request.owner
  type : request'.type = request.type
  flags : request'.flags = request.flags

theorem CastRequest.Twin.child {request request' : CastRequest} (h : request.Twin request')
    (step : Step) : (request.child step).Twin (request'.child step) :=
  ⟨h.owner, h.type, h.flags⟩

namespace Cast

variable {bench bench' : Workbench κ} {request request' : CastRequest}

theorem matches_convertInstance (hb : bench.Twin bench') (hr : request.Twin request')
    (v : Value κ) : Matches Value.Twin (convertInstance bench request v).result
      (convertInstance bench' request' v).result := by
  unfold convertInstance
  rw [hr.type, hr.owner, hr.flags]
  cases request.type.className? with
  | none => exact .error _
  | some className =>
    cases v with
    | map input => exact Build.matches_bind (hb.nested _ _ _ _ _) fun r r' h => .ok (.record h)
    | _ => exact .error _

theorem matches_convertItem (hb : bench.Twin bench') (hr : request.Twin request')
    (itemClass : String) (element : Value κ × Nat) :
    Matches (fun item item' => Instance.Twin item.2 item'.2)
      (convertItem bench request itemClass element).result
      (convertItem bench' request' itemClass element).result := by
  obtain ⟨v, index⟩ := element
  cases v with
  | map input =>
    refine Build.matches_prefixed ?_ _
    rw [(hr.child (.element index)).flags]
    exact Build.matches_bind (hb.nested _ _ _ _ _) fun r r' h => .ok h
  | _ =>
    unfold convertItem
    rw [hr.owner]
    exact Matches.of_eq (fun _ => .refl _) _

theorem matches_convertCollection (hb : bench.Twin bench') (hr : request.Twin request')
    (v : Value κ) : Matches Value.Twin (convertCollection bench request v).result
      (convertCollection bench' request' v).result := by
  unfold convertCollection
  rw [hr.type, hb.registry, hr.owner]
  cases request.type.className?.bind bench.registry.collection? with
  | none => exact .error _
  | some declaration =>
    cases v with
    | list elements =>
      refine Build.matches_bind (Build.matches_collect _ fun element _ =>
        matches_convertItem hb hr declaration.itemClass element) fun items items' h => ?_
      exact .ok (.collection (List.forall₂_map_left_iff.mpr (List.forall₂_map_right_iff.mpr h)))
    | _ => exact .error _

theorem matches_convert (hb : bench.Twin bench') (hr : request.Twin request') {cast : Cast κ}
    (hc : cast.isBuiltIn = true) (v : Value κ) :
    Matches Value.Twin (cast.convert bench request v).result
      (cast.convert bench' request' v).result := by
  cases cast with
  | instances => exact matches_convertInstance hb hr v
  | collections => exact matches_convertCollection hb hr v
  | custom handle => cases hc

end Cast

/-! ## Properties -/

namespace Property

variable {bench bench' : Workbench κ} {property : Property κ}

theorem claim?_congr_bench {casts : List (TypeName × Cast κ)}
    (hc : ∀ entry ∈ casts, entry.2.isBuiltIn = true) (bench bench' : Workbench κ) (v : Value κ) :
    claim? bench' casts v = claim? bench casts v := by
  refine List.find?_congr fun entry he => ?_
  rw [Cast.claims_eq_claimsNatively (hc entry he), Cast.claims_eq_claimsNatively (hc entry he)]

theorem twin_request (property : Property κ) (site site' : Site) (flags : Flags) (type : TypeName) :
    (property.request site flags type).Twin (property.request site' flags type) :=
  ⟨rfl, rfl, rfl⟩

theorem matches_castElement (hb : bench.Twin bench') (hp : property.IsBuiltIn) (site site' : Site)
    (flags : Flags) (element : Value κ × Nat) :
    Matches Value.Twin (property.castElement bench site flags element).result
      (property.castElement bench' site' flags element).result := by
  obtain ⟨item, index⟩ := element
  unfold castElement
  dsimp only
  rw [claim?_congr_bench hp.elementCasts bench bench']
  cases hclaim : claim? bench property.elementCasts item with
  | some entry =>
    obtain ⟨type, cast⟩ := entry
    have hcast := hp.elementCasts _ (List.mem_of_find?_eq_some hclaim)
    have hrequest := property.twin_request (site.child (.element index))
      (site'.child (.element index)) flags type
    exact Build.matches_prefixed (Cast.matches_convert hb hrequest hcast item) _
  | none => exact Matches.of_eq Value.Twin.refl _

theorem matches_coerceWhole (hb : bench.Twin bench') (hp : property.IsBuiltIn) (site site' : Site)
    (flags : Flags) (v : Value κ) :
    Matches Value.Twin (property.coerceWhole bench site flags v).result
      (property.coerceWhole bench' site' flags v).result := by
  unfold coerceWhole
  rw [claim?_congr_bench hp.casts bench bench']
  cases hclaim : claim? bench property.casts v with
  | some entry =>
    obtain ⟨type, cast⟩ := entry
    have hcast := hp.casts _ (List.mem_of_find?_eq_some hclaim)
    exact Cast.matches_convert hb (property.twin_request site site' flags type) hcast v
  | none => exact Matches.of_eq Value.Twin.refl _

theorem matches_coerce (hb : bench.Twin bench') (hp : property.IsBuiltIn) (site site' : Site)
    (flags : Flags) (v : Value κ) :
    Matches Value.Twin (property.coerce bench site flags v).result
      (property.coerce bench' site' flags v).result := by
  have hwhole := matches_coerceWhole hb hp site site' flags v
  cases v with
  | list items =>
    have hsame : property.castsElements bench' items = property.castsElements bench items := by
      rw [Bool.eq_iff_iff, hp.castsElements_iff, hp.castsElements_iff]
    simp only [coerce, hsame]
    split
    · refine Build.matches_bind (Build.matches_collect _ fun element _ =>
        matches_castElement hb hp site site' flags element) fun made made' h => .ok (.list h)
    · exact hwhole
  | _ => exact hwhole

/-- **Converted values are twins**, wherever they are converted. -/
theorem matches_castValue (hb : bench.Twin bench') (hp : property.IsBuiltIn) (site site' : Site)
    (flags : Flags) (v : Value κ) :
    Matches Value.Twin (property.castValue bench site flags v).result
      (property.castValue bench' site' flags v).result := by
  refine Build.matches_bind (Build.matches_prefixed (matches_coerce hb hp _ _ _ v) _)
    fun w w' h => ?_
  unfold invalid
  rw [h.accepts, h.failure]
  split
  · exact .ok h
  · exact .error _

end Property

/-! ## Instances -/

namespace Construction

variable {bench bench' : Workbench κ} {m : Metadata κ} {flags : Flags}

/-- Entries under the same keys, with values that are twins. -/
def TwinEntry (entry entry' : String × Value κ) : Prop :=
  entry.1 = entry'.1 ∧ entry.2.Twin entry'.2

theorem matches_castEntry (hb : bench.Twin bench')
    (hm : ∀ property ∈ m.properties, property.IsBuiltIn) (site site' : Site)
    (entry : String × Value κ) :
    Matches (Option.Rel TwinEntry) (castEntry bench m site flags entry).result
      (castEntry bench' m site' flags entry).result := by
  unfold castEntry
  cases hp : m.property? entry.1 with
  | none => exact .ok .none
  | some property =>
    have hbuiltIn := hm property (Metadata.property?_eq_some hp).1
    exact Build.matches_bind (Property.matches_castValue hb hbuiltIn site site' flags entry.2)
      fun w w' h => .ok (.some ⟨rfl, h⟩)

/-- A key has values that are twins in both tables, or in neither. -/
theorem rel_get?_of_twinEntry {table table' : Table (Value κ)}
    (h : List.Forall₂ TwinEntry table table') (key : String) :
    Option.Rel Value.Twin (Table.get? table key) (Table.get? table' key) := by
  induction h with
  | nil => exact .none
  | @cons entry entry' _ _ hentry _ ih =>
    obtain ⟨k, v⟩ := entry
    obtain ⟨k', v'⟩ := entry'
    obtain ⟨rfl, hv⟩ : k = k' ∧ v.Twin v' := hentry
    rw [Table.get?_cons, Table.get?_cons]
    by_cases hk : key = k
    · rw [if_pos hk, if_pos hk]
      exact .some hv
    · rw [if_neg hk, if_neg hk]
      exact ih

theorem rel_settled?_of_twinEntry {supplied supplied' : Table (Value κ)}
    (h : List.Forall₂ TwinEntry supplied supplied') (property : Property κ) :
    Option.Rel Value.Twin (settled? flags supplied property)
      (settled? flags supplied' property) := by
  have hrel := rel_get?_of_twinEntry h property.name
  unfold settled?
  generalize Table.get? supplied property.name = x at hrel
  generalize Table.get? supplied' property.name = y at hrel
  cases hrel with
  | some hv => exact .some hv
  | none =>
    cases (if fillsDefaults flags then property.default? flags else none) with
    | none => exact .none
    | some default => exact .some (.refl default)

theorem matches_construct (hb : bench.Twin bench')
    (hm : ∀ property ∈ m.properties, property.IsBuiltIn) (site site' : Site)
    (input : Table (Value κ)) :
    Matches Instance.Twin (construct bench m site input flags).result
      (construct bench' m site' input flags).result := by
  unfold construct
  dsimp only
  split
  · exact .error _
  · refine Build.matches_bind (Build.matches_collect _ fun entry _ =>
      matches_castEntry hb hm site site' entry) fun cast cast' hcast => ?_
    have hsupplied : List.Forall₂ TwinEntry (cast.filterMap id) (cast'.filterMap id) :=
      List.rel_filterMap (fun _ _ h => h) hcast
    have hsettled : ∀ property, Option.Rel Value.Twin (settled? flags (cast.filterMap id) property)
        (settled? flags (cast'.filterMap id) property) := rel_settled?_of_twinEntry hsupplied
    have hunsettled : unsettled m flags (cast'.filterMap id) =
        unsettled m flags (cast.filterMap id) := by
      refine congrArg (List.map Property.name) (List.filter_congr fun property _ => ?_)
      have hrel := hsettled property
      generalize settled? flags (cast.filterMap id) property = x at hrel ⊢
      generalize settled? flags (cast'.filterMap id) property = y at hrel ⊢
      cases hrel <;> rfl
    have hstored : List.Forall₂ TwinEntry (settle m flags (cast.filterMap id))
        (settle m flags (cast'.filterMap id)) :=
      Metadata.forall₂_tableOf fun property _ => by
        have hrel := hsettled property
        generalize settled? flags (cast.filterMap id) property = x at hrel ⊢
        generalize settled? flags (cast'.filterMap id) property = y at hrel ⊢
        cases hrel with
        | none => exact .none
        | some hv => exact .some ⟨rfl, hv⟩
    rw [hunsettled]
    split
    · exact .error _
    · obtain ⟨hkeys, hvalues⟩ := forall₂_pair_iff.mp hstored
      exact .ok (.intro rfl rfl rfl hkeys hvalues)

/-- **Nested instances are twins**, by induction on the levels that are left for them. -/
theorem twin_benchOf {plan : Plan κ}
    (hp : ∀ className m, plan.metadata className = .ok m →
      ∀ property ∈ m.properties, property.IsBuiltIn)
    (call call' levels : Nat) : (benchOf plan call levels).Twin (benchOf plan call' levels) := by
  refine ⟨rfl, ?_⟩
  induction levels with
  | zero => exact fun _ _ _ _ _ => .error _
  | succ levels ih =>
    intro place place' className input flags
    cases hm : plan.metadata className with
    | error error =>
      have hboth : ∀ (call : Nat) (place : List Step),
          ((benchOf plan call (levels + 1)).nested place className input flags).result =
            .error error :=
        fun _ _ => Build.bind_eq_error.mpr (.inl hm)
      rw [hboth, hboth]
      exact .error _
    | ok m =>
      have hboth : ∀ (call : Nat) (place : List Step),
          ((benchOf plan call (levels + 1)).nested place className input flags).result =
            (construct (benchOf plan call levels) m (siteOf plan call levels place) input
              flags.withoutTransient).result :=
        fun _ _ => result_makeWithin hm
      have hbench : (benchOf plan call levels).Twin (benchOf plan call' levels) := ⟨rfl, ih⟩
      rw [hboth call place, hboth call' place']
      exact matches_construct hbench (hp _ m hm) _ _ input

end Construction

end TypedRecords
