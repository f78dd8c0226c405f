import Mathlib.Data.List.Find
import TypedRecords.Proofs.Acceptance
import TypedRecords.Proofs.Conversions
import TypedRecords.Proofs.Usage

/-!
# Conversions by the built-in casts

Where no custom casts are declared, a cast claims a map for a class or a list for a collection, and
nothing else (`Claimed`).  What it makes of it belongs to the type that it was kept for
(`Cast.holds_of_convert`), and no error is lost on a collector
(`Construction.not_isSilent_of_castEntry`).

* `Plan.Native`: what a plan without custom casts gives.  `Engine.Reachable.native`: **an engine
  without custom casts plans so**, whatever it keeps.
-/

namespace TypedRecords

variable {κ : Type}

/-! ## Plans without custom casts -/

/-- Properties have built-in casts only, metadata and collections bear the names they are asked for
by, and a class that does not resolve is told of. -/
structure Plan.Native (plan : Plan κ) : Prop where
  wellFormed : ∀ className m, plan.metadata className = .ok m → m.WellFormed
  name : ∀ className m, plan.metadata className = .ok m →
    m.name = normalName (normalName className)
  properties : ∀ className m, plan.metadata className = .ok m →
    ∀ property ∈ m.properties, property.Native plan.registry
  collections : ∀ name declaration, plan.registry.collection? name = some declaration →
    declaration.name = normalName name
  reported : ∀ className error, plan.metadata className = .error error → ¬ error.IsSilent

/-! ## Errors of metadata -/

theorem Registry.isFatal_of_ancestry {registry : Registry κ} {name : String} {error : Error}
    (h : registry.ancestry name = .error error) : error.isFatal = true := by
  have hwalk : ∀ steps chain name error, Ancestry.walk registry steps chain name = .failed error →
      error.isFatal = true := by
    intro steps
    induction steps with
    | zero => intro _ _ _ h; cases h
    | succ steps ih =>
      intro chain name error h
      unfold Ancestry.walk at h
      split at h
      · cases h; rfl
      · split at h
        · cases h; rfl
        · split at h
          · cases h
          · exact ih _ _ _ h
  unfold ancestry at h
  split at h
  · cases h
  · next hw => cases h; exact hwalk _ _ _ _ hw
  · cases h; rfl

theorem Flattened.isFatal_of_ofChain {chain : List (ClassDeclaration κ)} {error : Error}
    (h : ofChain chain = .error error) : error.isFatal = true := by
  obtain ⟨declaration, -, flat, h⟩ := foldlM_eq_error h
  rcases except_bind_eq_error.mp h with h | ⟨_, -, h⟩
  · obtain ⟨entry, -, flat, h⟩ := foldlM_eq_error h
    dsimp only at h
    split at h
    · cases h
    · cases h; rfl
  · obtain ⟨entry, -, flat, h⟩ := foldlM_eq_error h
    dsimp only at h
    split at h
    · cases h
    · cases h; rfl

/-- **Why a class does not resolve**: a fatal error, or a default that its property does not
accept. -/
theorem Metadata.resolve_eq_error {casting : Casting κ} {registry : Registry κ} {casts : List κ}
    {generation : Nat} {key : String} {error : Error}
    (h : resolve casting registry casts generation key = .error error) :
    error.isFatal = true ∨
      ∃ failure : Failure, error = .invalidType [failure] ∧ failure.owner = normalName key := by
  rcases except_bind_eq_error.mp h with h | ⟨chain, -, h⟩
  · exact .inl (Registry.isFatal_of_ancestry h)
  rcases except_bind_eq_error.mp h with h | ⟨flat, -, h⟩
  · exact .inl (Flattened.isFatal_of_ofChain h)
  rcases except_bind_eq_error.mp h with h | ⟨properties, -, h⟩
  · obtain ⟨⟨name, types⟩, -, h⟩ := mapM_eq_error h
    rcases except_bind_eq_error.mp h with h | ⟨union, -, h⟩
    · unfold parseTypes at h
      cases hp : UnionType.parse types with
      | error e => rw [hp] at h; cases h; exact .inl rfl
      | ok union => rw [hp] at h; cases h
    · unfold Property.resolve at h
      dsimp only at h
      split at h
      · cases h
      · split at h
        · cases h
        · cases h
          exact .inr ⟨_, rfl, rfl⟩
  · cases h

theorem Metadata.not_isSilent_of_resolve {casting : Casting κ} {registry : Registry κ}
    {casts : List κ} {generation : Nat} {key : String} {error : Error}
    (h : resolve casting registry casts generation key = .error error) : ¬ error.IsSilent := by
  rcases resolve_eq_error h with hf | ⟨failure, rfl, -⟩
  · exact Error.not_isSilent_of_isFatal hf
  · exact fun hs => List.cons_ne_nil _ _ hs.2.1

/-- A class that does not resolve is told of. -/
theorem Engine.reported (engine : Engine κ) (className : String) (error : Error)
    (h : engine.plan.metadata className = .error error) : ¬ error.IsSilent := by
  have h : engine.metadata className = .error error := h
  unfold Engine.metadata at h
  dsimp only at h
  split at h
  · cases h
  · exact Metadata.not_isSilent_of_resolve h

/-- **An engine without custom casts plans natively**, whatever it keeps. -/
theorem Engine.Reachable.native {D : ClassDeclaration κ → Prop} {engine : Engine κ}
    (hr : Reachable D engine) (hd : ∀ d, D d → d.WithoutCasts) (hcasts : engine.casts = []) :
    engine.plan.Native where
  wellFormed := fun _ _ hm => hr.wellFormed hm
  name := fun className m hm => by
    obtain ⟨_, _, -, h⟩ := hr.metadata hm
    obtain ⟨_, _, -, -, -, hname, -⟩ := Metadata.resolve_eq_ok h
    exact hname
  properties := fun className m hm property hp => by
    obtain ⟨registry, _, hpast, h⟩ := hr.metadata hm
    rw [hcasts] at h
    exact (Metadata.native_of_resolve (fun entry he => hd _ (hpast.holds.classes entry he)) h
      hp).mono hpast.within
  collections := fun name declaration hc => hr.invariant.2.source.holds.collection? hc
  reported := engine.reported

/-! ## What built-in casts claim -/

/-- A cast that is kept for a type claims a value: a map for a class, or a list for a collection. -/
inductive Claimed (registry : Registry κ) (types : List TypeName) :
    TypeName → Cast κ → Value κ → Prop
  | map {className : String} {input : List (String × Value κ)} :
    .named className ∈ types → normalName className = className →
      Claimed registry types (.named className) .instances (.map input)
  | list {className : String} {declaration : CollectionDeclaration} {elements : List (Value κ)} :
    .named className ∈ types → normalName className = className →
      registry.collection? className = some declaration →
        Claimed registry types (.named className) .collections (.list elements)

theorem Claimed.isBuiltIn {registry : Registry κ} {types : List TypeName} {type : TypeName}
    {cast : Cast κ} {value : Value κ} (h : Claimed registry types type cast value) :
    cast.isBuiltIn = true := by
  cases h <;> rfl

/-- Built-in casts cannot tell the two values apart. -/
structure Value.SameShape (v other : Value κ) : Prop where
  isMap : other.isMap = v.isMap
  isList : other.isList = v.isList
  isScalar : other.isScalar = v.isScalar

theorem Value.SameShape.refl (v : Value κ) : SameShape v v := ⟨rfl, rfl, rfl⟩

section Claims

variable {registry : Registry κ} {types : List TypeName} {casts : List (TypeName × Cast κ)}
  {bench : Workbench κ} {type : TypeName} {cast : Cast κ} {value : Value κ}

theorem KeptNatively.claimed (hk : KeptNatively registry types casts)
    (h : Property.claim? bench casts value = some (type, cast)) :
    Claimed registry types type cast value := by
  obtain ⟨className, hn, ht, hnormal, hcast⟩ := hk _ (List.mem_of_find?_eq_some h)
  have hclaims := List.find?_some h
  dsimp only at hn hcast hclaims
  subst hn
  rcases hcast with rfl | ⟨rfl, hdeclared⟩
  · cases value with
    | map input => exact .map ht hnormal
    | _ => cases hclaims
  · obtain ⟨declaration, hd⟩ := Option.isSome_iff_exists.mp hdeclared
    cases value with
    | list elements => exact .list ht hnormal hd
    | _ => cases hclaims

theorem KeptNatively.claim?_congr (hk : KeptNatively registry types casts) {bench' : Workbench κ}
    {other : Value κ} (h : value.SameShape other) :
    Property.claim? bench' casts other = Property.claim? bench casts value := by
  unfold Property.claim?
  refine List.find?_congr fun entry he => ?_
  obtain ⟨_, -, -, -, hcast⟩ := hk entry he
  rcases hcast with hcast | ⟨hcast, -⟩
  · rw [hcast]
    exact h.isMap
  · rw [hcast]
    exact h.isList

theorem Property.castsElements_congr {property : Property κ} (hn : property.Native registry)
    {bench' : Workbench κ} {items parts : List (Value κ)}
    (h : List.Forall₂ Value.SameShape items parts) :
    property.castsElements bench' parts = property.castsElements bench items := by
  cases h with
  | nil => rfl
  | cons hfirst _ =>
    unfold castsElements
    dsimp only
    rw [hfirst.isScalar, hn.elementCasts.claim?_congr hfirst]

end Claims

/-! ## What comes of a claimed value -/

namespace Cast

variable {bench : Workbench κ} {types : List TypeName} {request : CastRequest} {cast : Cast κ}
  {value w : Value κ}

/-- What a built-in cast makes belongs to the type that the cast was kept for. -/
theorem holds_of_convert (request : CastRequest)
    (hname : ∀ order r, (bench.carryOut order).result = .ok r →
      r.className = normalName (normalName order.className))
    (hcollections : ∀ name declaration, bench.registry.collection? name = some declaration →
      declaration.name = normalName name)
    (hc : Claimed bench.registry types request.type cast value)
    (h : (cast.convert bench request value).result = .ok w) :
    request.type.holds w = true ∧ w.isNull = false := by
  generalize ht : request.type = type at hc
  cases hc with
  | map hmem hnormal =>
    obtain ⟨order, ho, r, hr, rfl⟩ := convertInstance_eq_ok.mp h
    unfold instanceOrders at ho
    rw [ht] at ho
    cases List.mem_singleton.mp ho
    refine ⟨?_, rfl⟩
    have hclass := hname _ _ hr
    dsimp only at hclass
    rw [hnormal, hnormal] at hclass
    unfold TypeName.holds Instance.isInstanceOf Metadata.isInstanceOf
    dsimp only
    rw [hnormal, show r.metadata.name = _ from hclass, beq_self_eq_true, Bool.true_or]
  | @list className declaration elements hmem hnormal hd =>
    obtain ⟨declared, _, items, hfound, -, -, rfl⟩ := convertCollection_eq_ok.mp h
    rw [ht] at hfound
    have hsame : bench.registry.collection? className = some declared := hfound
    refine ⟨?_, rfl⟩
    unfold TypeName.holds Object.isInstanceOf
    dsimp only
    rw [hcollections _ _ hsame, hnormal, beq_self_eq_true]

end Cast

/-! ## Properties -/

namespace Property

variable {registry : Registry κ} {bench : Workbench κ} {property : Property κ} {site : Site}
  {flags : Flags} {value w : Value κ} {error : Error} {conversion : Conversion κ}

/-- A value is coerced as a whole: it stays as it is, or becomes something of the type of the
property. -/
theorem coerceWhole_eq_ok (hn : property.Native bench.registry)
    (hname : ∀ order r, (bench.carryOut order).result = .ok r →
      r.className = normalName (normalName order.className))
    (hcollections : ∀ name declaration, bench.registry.collection? name = some declaration →
      declaration.name = normalName name)
    (h : (property.coerceWhole bench site flags value).result = .ok w) :
    w = value ∨ property.union.holds w = true ∧ w.isNull = false := by
  unfold coerceWhole at h
  split at h
  · next type cast hclaim =>
    have hclaimed := hn.casts.claimed hclaim
    have ht : type ∈ property.union.plain := by cases hclaimed <;> assumption
    obtain ⟨hholds, hnull⟩ := Cast.holds_of_convert (property.request site flags type)
      hname hcollections hclaimed h
    exact .inr ⟨UnionType.holds_of_plain ht hholds, hnull⟩
  · split at h
    · next n hread =>
      cases h
      unfold readInteger? at hread
      split at hread
      · split at hread
        · next hint =>
          have hmem := UnionType.mem_plain_of_contains (Bool.and_eq_true_iff.mp hint).1
          exact .inr ⟨UnionType.holds_of_plain hmem rfl, rfl⟩
        · cases hread
      · cases hread
    · cases h
      exact .inl rfl

theorem isBuiltIn_of_mem_elementConversions (hn : property.Native registry)
    {element : Value κ × Nat}
    (hc : conversion ∈ property.elementConversions bench site flags element) :
    conversion.cast.isBuiltIn = true := by
  obtain ⟨item, index⟩ := element
  unfold elementConversions at hc
  dsimp only at hc
  split at hc
  · next hclaim =>
    rw [List.mem_singleton.mp hc]
    exact (hn.elementCasts.claimed hclaim).isBuiltIn
  · cases hc

theorem isBuiltIn_of_mem_conversions (hn : property.Native registry)
    (hc : conversion ∈ property.conversions bench site flags value) :
    conversion.cast.isBuiltIn = true := by
  unfold conversions at hc
  rcases conversions_cases bench property (site.child (.property property.name))
    flags.withoutTransient value with ⟨items, -, -, -, hconversions⟩ | ⟨-, -, hconversions⟩
  · rw [hconversions] at hc
    obtain ⟨element, -, hc⟩ := List.mem_flatMap.mp hc
    exact isBuiltIn_of_mem_elementConversions hn hc
  · rw [hconversions] at hc
    unfold wholeConversions at hc
    split at hc
    · next hclaim =>
      rw [List.mem_singleton.mp hc]
      exact (hn.casts.claimed hclaim).isBuiltIn
    · cases hc

theorem not_isSilent_of_castElement (hn : property.Native bench.registry)
    (hnested : ∀ order e, (bench.carryOut order).result = .error e → ¬ e.IsSilent)
    {element : Value κ × Nat}
    (h : (property.castElement bench site flags element).result = .error error) :
    ¬ error.IsSilent := by
  intro hs
  obtain ⟨conversion, hc, e, he, hsilent⟩ := failsSilently_of_castElement h hs
  exact Cast.not_isSilent_of_convert _ (isBuiltIn_of_mem_elementConversions hn hc) hnested he
    hsilent

end Property

/-! ## Instances -/

namespace Construction

variable {registry : Registry κ} {plan : Plan κ} {call levels : Nat}

theorem className_of_carryOut (hp : plan.Native) (order : Order κ) {r : Instance κ}
    (h : (carryOut plan call levels order).result = .ok r) :
    r.className = normalName (normalName order.className) := by
  obtain ⟨_, m, -, hm, h⟩ := makeWithin_eq_ok.mp h
  obtain ⟨-, cast, -, -, rfl⟩ := construct_eq_ok.mp h
  exact hp.name _ _ hm

theorem isBuiltIn_of_mem_entryConversions {bench : Workbench κ} {m : Metadata κ} {site : Site}
    {flags : Flags} (hn : ∀ property ∈ m.properties, property.Native registry)
    {entry : String × Value κ} {conversion : Conversion κ}
    (hc : conversion ∈ entryConversions bench m site flags entry) :
    conversion.cast.isBuiltIn = true := by
  unfold entryConversions at hc
  split at hc
  · cases hc
  · next hproperty =>
    exact Property.isBuiltIn_of_mem_conversions (hn _ (Metadata.property?_eq_some hproperty).1) hc

theorem isBuiltIn_of_mem_conversions (hp : plan.Native) {order : Order κ}
    {conversion : Conversion κ} (hc : conversion ∈ conversions plan call levels order) :
    conversion.cast.isBuiltIn = true := by
  unfold conversions at hc
  split at hc
  · cases hc
  · next m hm =>
    obtain ⟨entry, -, hc⟩ := List.mem_flatMap.mp hc
    exact isBuiltIn_of_mem_entryConversions (hp.properties _ m hm) hc

theorem not_isSilent_of_castEntry {bench : Workbench κ} {m : Metadata κ} {site : Site}
    {flags : Flags} (hn : ∀ property ∈ m.properties, property.Native bench.registry)
    (hnested : ∀ order e, (bench.carryOut order).result = .error e → ¬ e.IsSilent)
    {entry : String × Value κ} {error : Error}
    (h : (castEntry bench m site flags entry).result = .error error) : ¬ error.IsSilent := by
  intro hs
  obtain ⟨conversion, hc, e, he, hsilent⟩ := failsSilently_of_castEntry h hs
  exact Cast.not_isSilent_of_convert _ (isBuiltIn_of_mem_entryConversions hn hc) hnested he hsilent

theorem className_of_benchOf (hp : plan.Native) (call levels : Nat) (order : Order κ)
    (r : Instance κ) (h : ((benchOf plan call levels).carryOut order).result = .ok r) :
    r.className = normalName (normalName order.className) :=
  className_of_carryOut hp order h

end Construction

end TypedRecords
