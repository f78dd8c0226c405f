import TypedRecords.Class.Resolution
import TypedRecords.Proofs.Grammar

/-!
# Resolved metadata

What is known of the metadata that `Metadata.resolve` makes, whatever is declared.

* `Metadata.resolve_eq_ok`: resolving a class, taken apart into its steps.
* `Metadata.WellFormed`: no property is declared twice, and explicit defaults are accepted.
  `Metadata.wellFormed_of_resolve`: **resolved metadata is well-formed.**
* `Property.Native`: the casts of a property are built-in ones, kept for classes that its type names.
  `Metadata.native_of_resolve`: so it is if no custom cast is declared.
* `Metadata.default_of_resolve`: every explicit default stands in some declaration.
-/

namespace TypedRecords

/-! ## Names in types -/

theorem normalName_eq_self {name : String} (h : ∀ rest, name.toList ≠ '\\' :: rest) :
    normalName name = name := by
  unfold normalName dropBackslash
  split
  · next rest hn => exact absurd hn (h rest)
  · exact String.ofList_toList

namespace TypeName

/-- The class that the type names, if any, has no backslash in front. -/
def IsNormal (type : TypeName) : Prop :=
  ∀ className, type.className? = some className → normalName className = className

theorem isNormal_keyword (k : Keyword) : (keyword k).IsNormal := nofun

theorem isNormal_of_isQualified {text : List Char} (h : isQualified text = true) :
    (named (String.ofList text)).IsNormal := by
  intro className hc
  cases hc
  refine normalName_eq_self fun rest hr => ?_
  rw [String.toList_ofList] at hr
  subst hr
  simp [isQualified, Text.pieces, isSegment] at h

theorem isNormal_of_parse {text : List Char} {type : TypeName} (h : parse text = .ok type) :
    type.IsNormal := by
  unfold parse at h
  dsimp only at h
  split at h
  · cases h; exact isNormal_keyword _
  · split at h
    · next hq => cases h; exact isNormal_of_isQualified hq
    · cases h

end TypeName

namespace UnionType

/-- All names in the union are without a backslash in front. -/
def IsNormal (union : UnionType) : Prop :=
  ∀ type ∈ union.plain ++ union.elements, type.IsNormal

/-- **Names that are read from declarations have no backslash in front.** -/
theorem isNormal_of_parse {declarations : List String} {union : UnionType}
    (h : parse declarations = .ok union) : union.IsNormal :=
  forall_of_parse TypeName.isNormal_keyword (fun _ _ => TypeName.isNormal_of_parse) h

end UnionType

/-! ## Declarations of a chain -/

variable {κ : Type}

namespace Registry

/-- All declared classes satisfy `P`. -/
def All (P : ClassDeclaration κ → Prop) (registry : Registry κ) : Prop :=
  ∀ entry ∈ registry.classes, P entry.2

theorem All.class? {P : ClassDeclaration κ → Prop} {registry : Registry κ} (h : registry.All P)
    {name : String} {declaration : ClassDeclaration κ}
    (hc : registry.class? name = some declaration) : P declaration :=
  h _ (Table.mem_of_get? hc)

theorem All.of_walk {P : ClassDeclaration κ → Prop} {registry : Registry κ} (h : registry.All P)
    {steps : Nat} {chain found : List (ClassDeclaration κ)} {name : String}
    (hc : ∀ d ∈ chain, P d) (hw : Ancestry.walk registry steps chain name = .root found) :
    ∀ d ∈ found, P d := by
  induction steps generalizing chain name with
  | zero => cases hw
  | succ steps ih =>
    unfold Ancestry.walk at hw
    split at hw
    · cases hw
    · split at hw
      · cases hw
      · next declaration hd =>
        have hnext : ∀ d ∈ chain ++ [declaration], P d := by
          intro d hm
          rcases List.mem_append.mp hm with hm | hm
          · exact hc d hm
          · rw [List.mem_singleton.mp hm]; exact h.class? hd
        split at hw
        · cases hw; exact hnext
        · exact ih hnext hw

theorem All.of_ancestry {P : ClassDeclaration κ → Prop} {registry : Registry κ} (h : registry.All P)
    {name : String} {chain : List (ClassDeclaration κ)} (hc : registry.ancestry name = .ok chain) :
    ∀ d ∈ chain, P d := by
  unfold ancestry at hc
  split at hc
  · next hw => cases hc; exact h.of_walk (fun d hd => by cases hd) hw
  · cases hc
  · cases hc

end Registry

namespace Flattened

/-- What holds of the parts of all declarations of a chain holds of the parts laid over one
another, and no property is declared twice. -/
structure Sound (D : Value κ → Prop) (C : List κ → Prop) (flat : Flattened κ) : Prop where
  distinct : Table.Distinct flat.types
  defaults : ∀ entry ∈ flat.defaults, D entry.2
  casts : ∀ entry ∈ flat.casts, C entry.2

variable {D : Value κ → Prop} {C : List κ → Prop} {declaration : ClassDeclaration κ}
  {flat after : Flattened κ}

theorem sound_addDefaults (hd : ∀ entry ∈ declaration.defaults, D entry.2) (hs : flat.Sound D C)
    (h : addDefaults declaration flat = .ok after) : after.Sound D C := by
  unfold addDefaults at h
  refine foldlM_invariant ?_ hs h
  rintro ⟨name, value⟩ he flat flat' hf hstep
  dsimp only at hstep
  split at hstep <;> cases hstep
  refine ⟨hf.distinct, fun entry hentry => ?_, hf.casts⟩
  rcases Table.mem_put hentry with rfl | hentry
  · exact hd _ he
  · exact hf.defaults entry hentry

theorem sound_addCasts (happend : ∀ own inherited, C own → C inherited → C (own ++ inherited))
    (hnil : C []) (hc : ∀ entry ∈ declaration.propertyCasts, C entry.2) (hs : flat.Sound D C)
    (h : addCasts declaration flat = .ok after) : after.Sound D C := by
  unfold addCasts at h
  refine foldlM_invariant ?_ hs h
  rintro ⟨name, casts⟩ he flat flat' hf hstep
  dsimp only at hstep
  split at hstep <;> cases hstep
  refine ⟨hf.distinct, hf.defaults, fun entry hentry => ?_⟩
  rcases Table.mem_put hentry with rfl | hentry
  · refine happend _ _ (hc _ he) ?_
    cases hg : Table.get? flat.casts name with
    | none => exact hnil
    | some inherited => exact hf.casts _ (Table.mem_of_get? hg)
  · exact hf.casts entry hentry

theorem sound_extend (happend : ∀ own inherited, C own → C inherited → C (own ++ inherited))
    (hnil : C []) (hd : ∀ entry ∈ declaration.defaults, D entry.2)
    (hc : ∀ entry ∈ declaration.propertyCasts, C entry.2) (hs : flat.Sound D C)
    (h : flat.extend declaration = .ok after) : after.Sound D C := by
  obtain ⟨middle, hm, h⟩ := except_bind_eq_ok.mp h
  have htypes : Sound D C { flat with types := Table.putAll flat.types declaration.properties } :=
    ⟨Table.distinct_putAll hs.distinct _, hs.defaults, hs.casts⟩
  exact sound_addCasts happend hnil hc (sound_addDefaults hd htypes hm) h

theorem sound_ofChain (happend : ∀ own inherited, C own → C inherited → C (own ++ inherited))
    (hnil : C []) {chain : List (ClassDeclaration κ)}
    (hd : ∀ d ∈ chain, ∀ entry ∈ d.defaults, D entry.2)
    (hc : ∀ d ∈ chain, ∀ entry ∈ d.propertyCasts, C entry.2) (h : ofChain chain = .ok flat) :
    flat.Sound D C := by
  have hempty : Sound D C ({} : Flattened κ) :=
    ⟨List.nodup_nil, fun _ h => absurd h List.not_mem_nil, fun _ h => absurd h List.not_mem_nil⟩
  refine foldlM_invariant ?_ hempty h
  intro declaration hm flat flat' hf hstep
  have hm := List.mem_reverse.mp hm
  exact sound_extend happend hnil (hd declaration hm) (hc declaration hm) hf hstep

end Flattened

/-! ## Properties and metadata -/

theorem Property.resolve_eq_ok {casting : Casting κ} {registry : Registry κ} {owner name : String}
    {union : UnionType} {default : Option (Value κ)} {candidates : List (Cast κ)}
    {property : Property κ}
    (h : Property.resolve casting registry owner name union default candidates = .ok property) :
    property =
        { owner, name, union, default
          casts := keptCasts casting registry candidates union.plain
          elementCasts := keptCasts casting registry candidates union.elements } ∧
      ∀ value, default = some value → property.accepts .none value = true := by
  unfold Property.resolve at h
  dsimp only at h
  split at h
  · cases h; exact ⟨rfl, nofun⟩
  · split at h
    · next value ha =>
      cases h
      exact ⟨rfl, fun v hv => by cases hv; exact ha⟩
    · cases h

theorem Property.name_eq_of_resolve {casting : Casting κ} {registry : Registry κ}
    {owner name : String} {union : UnionType} {default : Option (Value κ)}
    {candidates : List (Cast κ)} {property : Property κ}
    (h : Property.resolve casting registry owner name union default candidates = .ok property) :
    property.name = name := by
  rw [(Property.resolve_eq_ok h).1]

namespace Metadata

theorem names_eq_keys {m : Metadata κ} {types : Table (List String)}
    (h : List.Forall₂ (fun entry property => Property.name property = entry.1) types m.properties) :
    m.names = Table.keys types := by
  unfold Table.keys names
  rw [eq_comm, ← List.forall₂_eq_eq_eq, List.forall₂_map_left_iff, List.forall₂_map_right_iff]
  exact h.imp fun _ _ hname => hname.symm

/-- Resolving a class: its chain, the declarations laid over one another, and the properties, each
resolved with the casts for it and those for all. -/
theorem resolve_eq_ok {casting : Casting κ} {registry : Registry κ} {casts : List κ}
    {generation : Nat} {key : String} {m : Metadata κ}
    (h : resolve casting registry casts generation key = .ok m) :
    ∃ chain flat, registry.ancestry (normalName key) = .ok chain ∧
      Flattened.ofChain chain = .ok flat ∧ m.key = key ∧ m.name = normalName key ∧
      m.lineage = lineageOf chain ∧
      List.Forall₂ (fun (entry : String × List String) property => ∃ union,
        parseTypes (normalName key) entry.1 entry.2 = .ok union ∧
          Property.resolve casting registry (normalName key) entry.1 union
            (Table.get? flat.defaults entry.1)
            (((Table.get? flat.casts entry.1).getD []).map Cast.custom ++
              ((chain.flatMap ClassDeclaration.casts).map Cast.custom ++ engineCasts casts)) =
            .ok property) flat.types m.properties := by
  obtain ⟨chain, hchain, h⟩ := except_bind_eq_ok.mp h
  obtain ⟨flat, hflat, h⟩ := except_bind_eq_ok.mp h
  obtain ⟨properties, hp, h⟩ := except_bind_eq_ok.mp h
  cases h
  refine ⟨chain, flat, hchain, hflat, rfl, rfl, rfl, ?_⟩
  refine (mapM_eq_ok_iff.mp hp).imp fun entry property hproperty => ?_
  exact except_bind_eq_ok.mp hproperty

/-- No property is declared twice, and every explicit default is accepted. -/
structure WellFormed (m : Metadata κ) : Prop where
  distinct : m.names.Nodup
  defaults : ∀ property ∈ m.properties, ∀ value, property.default = some value →
    property.accepts .none value = true

variable {casting : Casting κ} {registry : Registry κ} {casts : List κ} {generation : Nat}
  {key : String} {m : Metadata κ}

/-- **Resolved metadata is well-formed.** -/
theorem wellFormed_of_resolve (h : resolve casting registry casts generation key = .ok m) :
    m.WellFormed := by
  obtain ⟨chain, flat, -, hflat, -, -, -, hproperties⟩ := resolve_eq_ok h
  have hsound : flat.Sound (fun _ => True) (fun _ => True) :=
    Flattened.sound_ofChain (fun _ _ _ _ => trivial) trivial (fun _ _ _ _ => trivial)
      (fun _ _ _ _ => trivial) hflat
  have hdistinct : m.names.Nodup := by
    rw [names_eq_keys (hproperties.imp fun _ _ ⟨_, _, hresolve⟩ =>
      Property.name_eq_of_resolve hresolve)]
    exact hsound.distinct
  refine ⟨hdistinct, fun property hp => ?_⟩
  obtain ⟨entry, -, union, -, hresolve⟩ := forall₂_mem_right hproperties hp
  obtain ⟨rfl, hdefault⟩ := Property.resolve_eq_ok hresolve
  exact hdefault

/-- Every explicit default stands in some declaration. -/
theorem default_of_resolve {D : Value κ → Prop}
    (hd : registry.All fun d => ∀ entry ∈ d.defaults, D entry.2)
    (h : resolve casting registry casts generation key = .ok m) {property : Property κ}
    (hp : property ∈ m.properties) {value : Value κ} (hv : property.default = some value) :
    D value := by
  obtain ⟨chain, flat, hchain, hflat, -, -, -, hproperties⟩ := resolve_eq_ok h
  have hsound : flat.Sound D (fun _ => True) :=
    Flattened.sound_ofChain (fun _ _ _ _ => trivial) trivial (hd.of_ancestry hchain)
      (fun _ _ _ _ => trivial) hflat
  obtain ⟨entry, -, union, -, hresolve⟩ := forall₂_mem_right hproperties hp
  obtain ⟨rfl, -⟩ := Property.resolve_eq_ok hresolve
  exact hsound.defaults _ (Table.mem_of_get? hv)

end Metadata

/-! ## Without custom casts -/

/-- The declaration comes without custom casts. -/
def ClassDeclaration.WithoutCasts (declaration : ClassDeclaration κ) : Prop :=
  declaration.propertyCasts = [] ∧ declaration.casts = []

/-- The casts are built-in ones, kept for classes that the types name, the cast for collections only
for collections that are declared. -/
def KeptNatively (registry : Registry κ) (types : List TypeName)
    (casts : List (TypeName × Cast κ)) : Prop :=
  ∀ entry ∈ casts, ∃ className, entry.1 = .named className ∧ .named className ∈ types ∧
    normalName className = className ∧
      (entry.2 = .instances ∨
        entry.2 = .collections ∧ (registry.collection? className).isSome = true)

theorem keptNatively_keptCasts {casting : Casting κ} {registry : Registry κ}
    {types : List TypeName} (hn : ∀ type ∈ types, type.IsNormal) :
    KeptNatively registry types (keptCasts casting registry [.instances, .collections] types) := by
  intro entry he
  obtain ⟨type, ht, he⟩ := List.mem_filterMap.mp he
  obtain ⟨cast, hfind, rfl⟩ := Option.map_eq_some_iff.mp he
  have haccepts := List.find?_some hfind
  have hcast : cast = .instances ∨ cast = .collections := by
    simpa using List.mem_of_find?_eq_some hfind
  have hname : ∃ className, type = .named className := by
    cases type with
    | keyword k => rcases hcast with rfl | rfl <;> cases haccepts
    | named className => exact ⟨className, rfl⟩
  obtain ⟨className, rfl⟩ := hname
  refine ⟨className, rfl, ht, hn _ ht className rfl, hcast.imp_right fun hc => ⟨hc, ?_⟩⟩
  subst hc
  exact haccepts

/-- All collections of one registry are declared in the other. -/
def Registry.Within (registry other : Registry κ) : Prop :=
  ∀ name, (registry.collection? name).isSome = true → (other.collection? name).isSome = true

/-- The property has built-in casts only. -/
structure Property.Native (registry : Registry κ) (property : Property κ) : Prop where
  casts : KeptNatively registry property.union.plain property.casts
  elementCasts : KeptNatively registry property.union.elements property.elementCasts

theorem KeptNatively.mono {registry other : Registry κ} {types : List TypeName}
    {casts : List (TypeName × Cast κ)} (hw : registry.Within other)
    (h : KeptNatively registry types casts) : KeptNatively other types casts := by
  intro entry he
  obtain ⟨className, hn, ht, hnormal, hcast⟩ := h entry he
  exact ⟨className, hn, ht, hnormal, hcast.imp_right fun hc => ⟨hc.1, hw _ hc.2⟩⟩

theorem Property.Native.mono {registry other : Registry κ} {property : Property κ}
    (hw : registry.Within other) (h : property.Native registry) : property.Native other :=
  ⟨h.casts.mono hw, h.elementCasts.mono hw⟩

/-- **Without custom casts, all properties have built-in ones only.** -/
theorem Metadata.native_of_resolve {casting : Casting κ} {registry : Registry κ} {generation : Nat}
    {key : String} {m : Metadata κ} (hr : registry.All ClassDeclaration.WithoutCasts)
    (h : resolve casting registry [] generation key = .ok m) {property : Property κ}
    (hp : property ∈ m.properties) : property.Native registry := by
  obtain ⟨chain, flat, hchain, hflat, -, -, -, hproperties⟩ := resolve_eq_ok h
  have hwithout := hr.of_ancestry hchain
  have hsound : flat.Sound (fun _ => True) (· = []) := by
    refine Flattened.sound_ofChain ?_ rfl (fun _ _ _ _ => trivial) (fun d hd entry he => ?_) hflat
    · rintro _ _ rfl rfl; rfl
    · rw [(hwithout d hd).1] at he; cases he
  have hshared : chain.flatMap ClassDeclaration.casts = [] :=
    List.flatMap_eq_nil_iff.mpr fun d hd => (hwithout d hd).2
  obtain ⟨entry, -, union, hunion, hresolve⟩ := forall₂_mem_right hproperties hp
  have hown : (Table.get? flat.casts entry.1).getD [] = [] := by
    cases hg : Table.get? flat.casts entry.1 with
    | none => rfl
    | some casts => exact hsound.casts _ (Table.mem_of_get? hg)
  rw [hown, hshared] at hresolve
  obtain ⟨rfl, -⟩ := Property.resolve_eq_ok hresolve
  have hnormal := UnionType.isNormal_of_parse (except_mapError_eq_ok.mp hunion)
  exact ⟨keptNatively_keptCasts fun type ht => hnormal type (List.mem_append_left _ ht),
    keptNatively_keptCasts fun type ht => hnormal type (List.mem_append_right _ ht)⟩

end TypedRecords
