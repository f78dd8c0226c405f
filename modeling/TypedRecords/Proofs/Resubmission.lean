import TypedRecords.Proofs.Returns
import TypedRecords.Proofs.Settling
import TypedRecords.Proofs.Invariant

/-!
# Values that are supplied again

What has been coerced is left alone when it is supplied again: a built-in cast makes no value that a
built-in cast would claim, and an integer is not read as one again.  There is one exception.  A list
that was coerced item by item stays a list, but its first item, an instance by now, does not send it
the same way again; if a cast for collections is kept besides, that one claims the list.  The
property *regroups* such a list.

* `Property.IsLeft`: a value that coercion leaves as it is.
* `Property.castValue_again_iff`: **a value that was accepted is accepted again as it is, unless it
  comes from a list that the property regroups.**
* `Instance.AtRest.carryOut_stored`: an instance is made again from its own properties.
* `Engine.Submitted`: instances in use, with what was last supplied for their properties.
  `Engine.Submitted.known`: what is known of them.
* `Engine.resubmission`: a property that was supplied and is supplied again keeps its value.
-/

namespace TypedRecords

open Construction

variable {κ : Type}

/-! ## Built-in casts and what they claim -/

namespace Cast

/-- Whether a cast is a built-in one that claims the value. -/
def claimsNatively : Cast κ → Value κ → Bool
  | instances, value => value.isMap
  | collections, value => value.isList
  | custom _, _ => false

theorem claims_eq_claimsNatively {casting : Casting κ} {cast : Cast κ}
    (hb : cast.isBuiltIn = true) (value : Value κ) :
    cast.claims casting value = cast.claimsNatively value := by
  cases cast with
  | custom handle => cases hb
  | _ => rfl

theorem claimsNatively_list (cast : Cast κ) (items others : List (Value κ)) :
    cast.claimsNatively (.list items) = cast.claimsNatively (.list others) := by
  cases cast <;> rfl

@[simp] theorem claimsNatively_record (cast : Cast κ) (origin : Origin) (r : Instance κ) :
    cast.claimsNatively (.record origin r) = false := by
  cases cast <;> rfl

@[simp] theorem claimsNatively_object (cast : Cast κ) (origin : Origin) (o : Object κ) :
    cast.claimsNatively (.object origin o) = false := by
  cases cast <;> rfl

/-- What a built-in cast makes is an instance or a collection. -/
theorem unclaimed_of_convert {bench : Workbench κ} {request : CastRequest} {cast : Cast κ}
    {value w : Value κ} (hb : cast.isBuiltIn = true)
    (h : (cast.convert bench request value).result = .ok w) :
    (∃ origin r, w = .record origin r) ∨ ∃ origin o, w = .object origin o := by
  cases cast with
  | instances =>
    obtain ⟨_, -, r, -, rfl⟩ := convertInstance_eq_ok.mp h
    exact .inl ⟨_, r, rfl⟩
  | collections =>
    obtain ⟨_, _, _, -, -, -, rfl⟩ := convertCollection_eq_ok.mp h
    exact .inr ⟨_, _, rfl⟩
  | custom handle => cases hb

end Cast

namespace Property

/-- The property has kept built-in casts only. -/
structure IsBuiltIn (property : Property κ) : Prop where
  casts : ∀ entry ∈ property.casts, entry.2.isBuiltIn = true
  elementCasts : ∀ entry ∈ property.elementCasts, entry.2.isBuiltIn = true

/-- The value is a list that is coerced item by item, since an element cast claims its first item,
although another cast that is kept claims the list as a whole. -/
def regroups (property : Property κ) : Value κ → Bool
  | .list (first :: rest) =>
    property.elementCasts.any (·.2.claimsNatively first) &&
      property.casts.any (·.2.claimsNatively (.list (first :: rest)))
  | _ => false

theorem regroups_iff {property : Property κ} {value : Value κ} :
    property.regroups value = true ↔ ∃ first rest, value = .list (first :: rest) ∧
      (∃ entry ∈ property.elementCasts, entry.2.claimsNatively first = true) ∧
        ∃ entry ∈ property.casts, entry.2.claimsNatively value = true := by
  cases value with
  | list items =>
    cases items with
    | nil => exact iff_of_false nofun nofun
    | cons first rest =>
      unfold regroups
      rw [Bool.and_eq_true, List.any_eq_true, List.any_eq_true]
      constructor
      · rintro ⟨hfirst, hlist⟩
        exact ⟨first, rest, rfl, hfirst, hlist⟩
      · rintro ⟨_, _, hvalue, hfirst, hlist⟩
        cases hvalue
        exact ⟨hfirst, hlist⟩
  | _ => exact iff_of_false nofun nofun

variable {bench bench' : Workbench κ} {property : Property κ} {site site' : Site}
  {flags : Flags} {value w : Value κ}

theorem claim?_eq_none_iff {casts : List (TypeName × Cast κ)}
    (hb : ∀ entry ∈ casts, entry.2.isBuiltIn = true) :
    claim? bench casts value = none ↔ ∀ entry ∈ casts, entry.2.claimsNatively value = false := by
  unfold claim?
  rw [List.find?_eq_none]
  refine forall₂_congr fun entry he => ?_
  rw [Cast.claims_eq_claimsNatively (hb entry he), Bool.not_eq_true]

theorem not_isScalar_of_claimsNatively {cast : Cast κ} (h : cast.claimsNatively value = true) :
    value.isScalar = false := by
  cases value with
  | list | map | record | object => rfl
  | _ => cases cast <;> cases h

theorem IsBuiltIn.castsElements_iff (hb : property.IsBuiltIn) {items : List (Value κ)} :
    property.castsElements bench items = true ↔ ∃ first rest, items = first :: rest ∧
      ∃ entry ∈ property.elementCasts, entry.2.claimsNatively first = true := by
  cases items with
  | nil => exact iff_of_false nofun nofun
  | cons first rest =>
    have hclaim : (claim? bench property.elementCasts first).isSome = true ↔
        ∃ entry ∈ property.elementCasts, entry.2.claimsNatively first = true := by
      rw [Option.isSome_iff_ne_none, Ne, claim?_eq_none_iff hb.elementCasts]
      simp
    unfold castsElements
    rw [Bool.and_eq_true, hclaim]
    constructor
    · rintro ⟨-, h⟩
      exact ⟨first, rest, rfl, h⟩
    · rintro ⟨_, _, hitems, entry, he, h⟩
      cases hitems
      exact ⟨by rw [not_isScalar_of_claimsNatively h]; rfl, entry, he, h⟩

/-! ## Values that coercion leaves alone -/

/-- Coercion leaves the value as it is, wherever and under whatever flags it takes place. -/
def IsLeft (property : Property κ) (value : Value κ) : Prop :=
  ∀ (bench : Workbench κ) (site : Site) (flags : Flags),
    (property.coerce bench site flags value).result = .ok value

theorem IsBuiltIn.isLeft (hb : property.IsBuiltIn)
    (hlist : ∀ items, value = .list items → ∀ bench : Workbench κ,
      property.castsElements bench items = false)
    (hclaim : ∀ entry ∈ property.casts, entry.2.claimsNatively value = false)
    (hread : property.readInteger? value = none) : property.IsLeft value := by
  intro bench site flags
  rw [coerce_eq_coerceWhole fun items hitems => hlist items hitems bench]
  exact coerceWhole_of_claim?_eq_none ((claim?_eq_none_iff hb.casts).mpr hclaim) hread

theorem IsBuiltIn.isLeft_record (hb : property.IsBuiltIn) (origin : Origin) (r : Instance κ) :
    property.IsLeft (.record origin r) :=
  hb.isLeft nofun (fun entry _ => entry.2.claimsNatively_record origin r) rfl

theorem IsBuiltIn.isLeft_object (hb : property.IsBuiltIn) (origin : Origin) (o : Object κ) :
    property.IsLeft (.object origin o) :=
  hb.isLeft nofun (fun entry _ => entry.2.claimsNatively_object origin o) rfl

theorem IsBuiltIn.isLeft_int (hb : property.IsBuiltIn) (n : Int64) :
    property.IsLeft (.int n : Value κ) :=
  hb.isLeft nofun (fun entry _ => by cases entry.2 <;> rfl) rfl

/-- What a list is coerced to item by item is not coerced so again: each of its items was made by a
cast, or no cast claimed it. -/
theorem IsBuiltIn.castsElements_of_castElements (hb : property.IsBuiltIn)
    {items made : List (Value κ)}
    (h : (property.castElements bench site flags items).result = .ok made) :
    property.castsElements bench' made = false := by
  refine Bool.eq_false_iff.mpr fun hagain => ?_
  obtain ⟨first, rest, rfl, entry, he, hclaims⟩ := hb.castsElements_iff.mp hagain
  obtain ⟨⟨item, index⟩, -, hitem⟩ := Build.mem_of_collect h List.mem_cons_self
  unfold castElement at hitem
  dsimp only at hitem
  split at hitem
  · next type cast hclaim =>
    have hcast := hb.elementCasts _ (List.mem_of_find?_eq_some hclaim)
    rcases Cast.unclaimed_of_convert hcast (Build.prefixed_eq_ok.mp hitem) with
      ⟨_, _, rfl⟩ | ⟨_, _, rfl⟩ <;> simp at hclaims
  · next hclaim =>
    split at hitem
    · cases hitem
      rw [(claim?_eq_none_iff hb.elementCasts).mp hclaim entry he] at hclaims
      cases hclaims
    · cases hitem

/-- What is coerced is left alone from then on, unless it is a list that comes of one that the
property regroups. -/
theorem IsBuiltIn.isLeft_of_coerce (hb : property.IsBuiltIn)
    (h : (property.coerce bench site flags value).result = .ok w) :
    property.regroups value = true ∧ (∃ made, w = .list made ∧
        ∀ bench' : Workbench κ, property.castsElements bench' made = false) ∨
      property.regroups value = false ∧ property.IsLeft w := by
  rcases coerce_cases bench property site flags value with
    ⟨items, rfl, hitems, hcoerce, -⟩ | ⟨hitems, hcoerce, -⟩
  · rw [hcoerce, Build.bind_eq_ok] at h
    obtain ⟨made, hmade, h⟩ := h
    cases h
    have hagain : ∀ bench' : Workbench κ, property.castsElements bench' made = false :=
      fun bench' => hb.castsElements_of_castElements hmade
    cases hregroups : property.regroups (.list items) with
    | true => exact .inl ⟨rfl, made, rfl, hagain⟩
    | false =>
      refine .inr ⟨rfl, hb.isLeft (fun _ he bench' => ?_) (fun entry he => ?_) rfl⟩
      · cases he
        exact hagain bench'
      · obtain ⟨first, rest, rfl, hfirst⟩ := hb.castsElements_iff.mp hitems
        refine Bool.eq_false_iff.mpr fun hclaims => Bool.eq_false_iff.mp hregroups ?_
        rw [Cast.claimsNatively_list entry.2 made (first :: rest)] at hclaims
        exact regroups_iff.mpr ⟨first, rest, rfl, hfirst, entry, he, hclaims⟩
  · have hregroups : property.regroups value = false := by
      refine Bool.eq_false_iff.mpr fun hregroups => ?_
      obtain ⟨first, rest, rfl, hfirst, -⟩ := regroups_iff.mp hregroups
      exact Bool.false_ne_true
        ((hitems _ rfl).symm.trans (hb.castsElements_iff.mpr ⟨first, rest, rfl, hfirst⟩))
    refine .inr ⟨hregroups, ?_⟩
    rw [hcoerce] at h
    unfold coerceWhole at h
    split at h
    · next type cast hclaim =>
      have hcast := hb.casts _ (List.mem_of_find?_eq_some hclaim)
      rcases Cast.unclaimed_of_convert hcast h with ⟨_, _, rfl⟩ | ⟨_, _, rfl⟩
      · exact hb.isLeft_record _ _
      · exact hb.isLeft_object _ _
    · next hclaim =>
      split at h
      · cases h
        exact hb.isLeft_int _
      · next hread =>
        cases h
        refine hb.isLeft (fun items he bench' => ?_) ((claim?_eq_none_iff hb.casts).mp hclaim) hread
        have hnot := hitems items he
        rw [← Bool.not_eq_true, hb.castsElements_iff] at hnot ⊢
        exact hnot

/-- A list that is not coerced item by item does not stay a list if a kept cast claims it. -/
theorem IsBuiltIn.ne_list_of_coerce (hb : property.IsBuiltIn) {made : List (Value κ)}
    (hmade : property.castsElements bench made = false) {entry : TypeName × Cast κ}
    (he : entry ∈ property.casts) (hclaims : entry.2.claimsNatively (.list made) = true) :
    (property.coerce bench site flags (.list made)).result ≠ .ok (.list made) := by
  intro h
  rw [coerce_eq_coerceWhole fun items he => by cases he; exact hmade] at h
  unfold coerceWhole at h
  split at h
  · next hclaim =>
    have hcast := hb.casts _ (List.mem_of_find?_eq_some hclaim)
    rcases Cast.unclaimed_of_convert hcast h with ⟨_, _, hw⟩ | ⟨_, _, hw⟩ <;> cases hw
  · next hclaim =>
    rw [(claim?_eq_none_iff hb.casts).mp hclaim entry he] at hclaims
    cases hclaims

/-- **A value that was accepted is accepted again as it is, unless it comes from a list that the
property regroups.** -/
theorem castValue_again_iff (hb : property.IsBuiltIn)
    (h : (property.castValue bench site flags value).result = .ok w) :
    (property.castValue bench' site' flags w).result = .ok w ↔ property.regroups value = false := by
  obtain ⟨hcoerce, haccepts⟩ := castValue_eq_ok.mp h
  rw [castValue_eq_ok, and_iff_left haccepts]
  rcases hb.isLeft_of_coerce hcoerce with ⟨hregroups, made, rfl, hmade⟩ | ⟨hregroups, hleft⟩
  · obtain ⟨_, _, rfl, -, entry, he, hclaims⟩ := regroups_iff.mp hregroups
    rw [Cast.claimsNatively_list entry.2 _ made] at hclaims
    exact iff_of_false (hb.ne_list_of_coerce (hmade bench') he hclaims)
      (Bool.not_eq_false _ ▸ hregroups)
  · exact iff_of_true (hleft _ _ _) hregroups

end Property

/-! ## Instances whose properties are supplied again -/

theorem Property.Native.isBuiltIn {registry : Registry κ} {property : Property κ}
    (h : property.Native registry) : property.IsBuiltIn :=
  ⟨h.casts.isBuiltIn, h.elementCasts.isBuiltIn⟩

/-- The instance is at rest: it is well-formed, its properties stand in order, those that are
undefined have no default that construction would give them, and its flags are kept. -/
structure Instance.AtRest (record : Instance κ) : Prop where
  wellFormed : record.WellFormed
  flags : record.flags.withoutTransient = record.flags
  stored : record.stored = record.metadata.tableOf fun property => record.stored? property.name
  undefined : ∀ property ∈ record.metadata.properties, record.stored? property.name = none →
    fillsDefaults record.flags = true → property.default? record.flags = none

namespace Instance.AtRest

variable {record : Instance κ}

theorem put_eq_self (hr : record.AtRest) {name : String} {value : Value κ}
    (hvalue : record.stored? name = some value) : record.put name value = record := by
  have hput : (record.put name value).stored = record.stored := by
    refine Eq.trans ?_ hr.stored.symm
    refine Metadata.tableOf_congr fun property _ => ?_
    split
    · next hsame => rw [hsame, hvalue]
    · rfl
  change { record with stored := (record.put name value).stored } = record
  rw [hput]
  cases record
  rfl

theorem declares (hr : record.AtRest) {name : String} (hname : name ∈ Table.keys record.stored) :
    record.metadata.declares name = true :=
  Metadata.declares_iff.mpr (hr.wellFormed.ordered.subset hname)

theorem unknownKeys_stored (hr : record.AtRest) :
    unknownKeys record.metadata record.stored = [] :=
  List.filter_eq_nil_iff.mpr fun name hname => by simp [hr.declares hname]

theorem settled?_stored (hr : record.AtRest) {property : Property κ}
    (hp : property ∈ record.metadata.properties) :
    settled? record.flags record.stored property = record.stored? property.name := by
  cases hget : record.stored? property.name with
  | some w => exact settled?_of_get? hget
  | none =>
    refine settled?_eq_none_iff.mpr ⟨hget, ?_⟩
    split
    · next hfills => exact hr.undefined property hp hget hfills
    · rfl

theorem unsettled_stored (hr : record.AtRest) :
    unsettled record.metadata record.flags record.stored = [] ∨
      record.flags.contains .incomplete = true := by
  cases hincomplete : record.flags.contains .incomplete with
  | true => exact .inr rfl
  | false =>
    refine .inl (List.map_eq_nil_iff.mpr (List.filter_eq_nil_iff.mpr fun property hp => ?_))
    have hdefined := hr.wellFormed.complete hincomplete property.name (List.mem_map_of_mem hp)
    rw [hr.settled?_stored hp, Option.isNone_iff_eq_none]
    exact fun hnone => Table.get?_eq_none_iff.mp hnone hdefined

theorem assembled_stored (hr : record.AtRest) :
    assembled record.metadata record.flags record.stored record.stored =
      { record with tracked := [] } := by
  have hsettle : settle record.metadata record.flags record.stored = record.stored :=
    (Metadata.tableOf_congr fun _ hp => hr.settled?_stored hp).trans hr.stored.symm
  have htracked : trackedEntries record.metadata record.flags record.stored = [] := by
    unfold trackedEntries
    split
    · refine List.filter_eq_nil_iff.mpr fun entry he => ?_
      simp [hr.declares (List.mem_map_of_mem he)]
    · rfl
  unfold assembled
  rw [hsettle, htracked]

theorem collect_stored (hr : record.AtRest) {bench : Workbench κ} {site : Site}
    (hagain : ∀ property ∈ record.metadata.properties, ∀ w,
      record.stored? property.name = some w →
        (property.castValue bench site record.flags w).result = .ok w) :
    (Build.collect record.metadata.name (castEntry bench record.metadata site record.flags)
      record.stored).result = .ok (record.stored.map some) := by
  refine Build.collect_of_forall₂ (List.forall₂_map_right_iff.mpr (List.forall₂_same.mpr ?_))
  rintro ⟨name, w⟩ he
  obtain ⟨property, hp, -⟩ := hr.wellFormed.accepted _ he
  obtain ⟨hmem, rfl⟩ := Metadata.property?_eq_some hp
  have hget : record.stored? property.name = some w := Table.get?_of_mem hr.wellFormed.distinct he
  exact castEntry_eq_ok.mpr (.inr ⟨property, w, hp, hagain property hmem w hget, rfl⟩)

/-- **An instance at rest is made again from its own properties** if each of them is accepted as it
is. -/
theorem carryOut_stored (hr : record.AtRest) {plan : Plan κ} {call levels : Nat}
    (hm : plan.metadata record.className = .ok record.metadata)
    (hagain : ∀ property ∈ record.metadata.properties, ∀ w,
      record.stored? property.name = some w → ∀ (bench : Workbench κ) (site : Site),
        (property.castValue bench site record.flags w).result = .ok w) :
    (carryOut plan call (levels + 1)
      (outerOrder record.className record.stored record.flags)).result =
        .ok { record with tracked := [] } := by
  refine makeWithin_eq_ok.mpr ⟨levels, record.metadata, rfl, hm, ?_⟩
  have hflags : (outerOrder record.className record.stored record.flags).flags.withoutTransient =
      record.flags := hr.flags
  refine construct_eq_ok.mpr ⟨.inl hr.unknownKeys_stored, record.stored.map some, ?_, ?_⟩
  · rw [hflags]
    exact hr.collect_stored fun property hp w hw => hagain property hp w hw _ _
  · have hstay : (record.stored.map some).filterMap id = record.stored := by simp
    rw [hstay, hflags]
    exact ⟨hr.unsettled_stored, hr.assembled_stored.symm⟩

end Instance.AtRest

namespace Engine

variable {engine : Engine κ} {record : Instance κ} {supplied : Table (Value κ)}

/-- An instance in use on an engine without custom casts, and what was last supplied for each of its
properties, as input or by a write.  Its class was asked for with one leading backslash at most: of
more, those that are left belong to the name that the instance has, but are lost when its class is
looked up under this name. -/
inductive Submitted : Engine κ → Instance κ → Table (Value κ) → Prop
  | built {engine : Engine κ} {levels : Nat} {order : Order κ} {record : Instance κ} :
    Reachable ClassDeclaration.WithoutCasts engine → engine.casts = [] →
      normalName (normalName order.className) = normalName order.className →
      (carryOut engine.plan engine.calls levels order).result = .ok record →
        Submitted engine record order.input
  | used {engine : Engine κ} {record : Instance κ} {supplied : Table (Value κ)}
    (operation : Operation κ) : Submitted engine record supplied → operation.isUse = true →
      Submitted (engine.after operation) record supplied
  | written {engine : Engine κ} {record written : Instance κ} {supplied : Table (Value κ)}
    {name : String} {value : Value κ} : Submitted engine record supplied →
      (engine.set record name value).1 = .ok written →
        Submitted (engine.set record name value).2 written (Table.put supplied name value)

theorem Submitted.made {className : String} {input : Table (Value κ)} {flags : Flags}
    (hr : Reachable ClassDeclaration.WithoutCasts engine) (hcasts : engine.casts = [])
    (hname : normalName (normalName className) = normalName className)
    (h : (engine.make className input flags).1 = .ok record) :
    Submitted (engine.make className input flags).2 record input := by
  have hbuilt : (carryOut engine.plan engine.calls (engine.plan.maxDepth + 1)
      (outerOrder className input flags)).result = .ok record := h
  have hsubmitted : Submitted engine record (outerOrder className input flags).input :=
    .built hr hcasts hname hbuilt
  exact .used (.make className input flags) hsubmitted rfl

/-- What is known of an instance in use: where it comes from, that its class has not changed, that it
is at rest, and that its properties come from what was supplied, if anything was. -/
structure Known (engine : Engine κ) (record : Instance κ) (supplied : Table (Value κ)) : Prop where
  reachable : Reachable ClassDeclaration.WithoutCasts engine
  casts : engine.casts = []
  metadata : engine.metadata record.className = .ok record.metadata
  atRest : record.AtRest
  supplied : ∀ property ∈ record.metadata.properties, ∀ v w,
    Table.get? supplied property.name = some v → record.stored? property.name = some w →
      ∃ (bench : Workbench κ) (site : Site),
        (property.castValue bench site record.flags v).result = .ok w

theorem known_of_built {levels : Nat} {order : Order κ}
    (hr : Reachable ClassDeclaration.WithoutCasts engine) (hcasts : engine.casts = [])
    (hname : normalName (normalName order.className) = normalName order.className)
    (h : (carryOut engine.plan engine.calls levels order).result = .ok record) :
    engine.Known record order.input := by
  have hp : engine.plan.Native := hr.native (fun _ hd => hd) hcasts
  obtain ⟨levels', m, -, hm, h⟩ := makeWithin_eq_ok.mp h
  have hwellFormed := wellFormed_of_construct (hp.wellFormed _ m hm) h
  obtain ⟨-, cast, hcast, -, rfl⟩ := construct_eq_ok.mp h
  have hnested := not_isSilent_of_benchOf hp.reported engine.calls levels'
  have hcasts' := castsTo_of_collect (fun entry _ e he =>
    not_isSilent_of_castEntry (hp.properties _ m hm) hnested he) hcast
  have hdistinct := (hp.wellFormed _ m hm).distinct
  have hget : ∀ property ∈ m.properties,
      (assembled m order.flags.withoutTransient order.input (cast.filterMap id)).stored?
        property.name = settled? order.flags.withoutTransient (cast.filterMap id) property :=
    fun property hmem => stored?_assembled hdistinct hmem
  refine
    { reachable := hr
      casts := hcasts
      metadata := ?_
      atRest :=
        { wellFormed := hwellFormed
          flags := Flags.withoutTransient_idem _
          stored := Metadata.tableOf_congr fun property hmem => (hget property hmem).symm
          undefined := ?_ }
      supplied := ?_ }
  · show engine.metadata m.name = .ok m
    have hm' : engine.metadata order.className = .ok m := hm
    rw [hp.name _ m hm, hname, ← hm']
    exact metadata_congr hname
  · intro property hmem hnone hfills
    rw [hget property hmem] at hnone
    have hdefault := (settled?_eq_none_iff.mp hnone).2
    have hfills : fillsDefaults order.flags.withoutTransient = true := hfills
    rwa [if_pos hfills] at hdefault
  · intro property hmem v w hv hw
    obtain ⟨w', hw', hsettled⟩ := hcasts'.settled?_of_supplied hdistinct hmem hv
    rw [hget property hmem, hsettled] at hw
    cases hw
    exact ⟨_, _, hw'⟩

theorem Known.after (h : engine.Known record supplied) {operation : Operation κ}
    (hu : operation.isUse = true) : (engine.after operation).Known record supplied where
  reachable := h.reachable.after operation fun _ ho => by rw [ho] at hu; cases hu
  casts := by rw [(grows_after hu).eq]; exact h.casts
  metadata := by
    have hgrows : engine.Grows (engine.after operation) := grows_after hu
    have hplan := h.reachable.plan_grows hgrows
    exact (congrFun (congrArg PlanIn.metadata hplan) _).trans h.metadata
  atRest := h.atRest
  supplied := h.supplied

theorem Known.written (h : engine.Known record supplied) {name : String} {value : Value κ}
    {written : Instance κ} (hset : (engine.set record name value).1 = .ok written) :
    (engine.after (.set record name value)).Known written (Table.put supplied name value) := by
  refine Known.after ?_ rfl
  have hwellFormed := (set_step h.atRest.wellFormed hset).1
  obtain ⟨property, w, hp, hw, rfl⟩ := set_eq_ok hset
  have hget : ∀ other, (record.put name w).stored? other =
      if other = name then some w else record.stored? other :=
    Instance.stored?_put h.atRest.wellFormed hp
  have hname := (Metadata.property?_eq_some hp).2
  refine
    { reachable := h.reachable
      casts := h.casts
      metadata := h.metadata
      atRest :=
        { wellFormed := hwellFormed
          flags := h.atRest.flags
          stored := Metadata.tableOf_congr fun declared _ => (hget declared.name).symm
          undefined := ?_ }
      supplied := ?_ }
  · intro declared hmem hnone hfills
    rw [hget] at hnone
    split at hnone
    · cases hnone
    · exact h.atRest.undefined declared hmem hnone hfills
  · intro declared hmem v u hv hu
    rw [Table.get?_put] at hv
    rw [hget] at hu
    split at hv
    · next hsame =>
      rw [if_pos hsame] at hu
      cases hv
      cases hu
      have hdeclared := Metadata.property?_of_mem h.atRest.wellFormed.metadata.distinct hmem
      rw [hsame, hp] at hdeclared
      cases hdeclared
      exact ⟨_, _, hw⟩
    · next hother =>
      rw [if_neg hother] at hu
      exact h.supplied declared hmem v u hv hu

/-- **What is known of an instance in use.** -/
theorem Submitted.known (h : Submitted engine record supplied) :
    engine.Known record supplied := by
  induction h with
  | built hr hcasts hname hmade => exact known_of_built hr hcasts hname hmade
  | used operation _ hu ih => exact ih.after hu
  | written _ hset ih => exact ih.written hset

/-- A property that was supplied is accepted as it is, unless it regroups what was supplied. -/
theorem Known.isAccepted (h : engine.Known record supplied)
    (hall : ∀ name ∈ record.definedNames, name ∈ Table.keys supplied)
    (hnone : ∀ property ∈ record.metadata.properties,
      (Table.get? supplied property.name).any property.regroups = false)
    {property : Property κ} (hmem : property ∈ record.metadata.properties) {w : Value κ}
    (hw : record.stored? property.name = some w) (bench : Workbench κ) (site : Site) :
    (property.castValue bench site record.flags w).result = .ok w := by
  have hbuiltIn : property.IsBuiltIn :=
    ((h.reachable.native (fun _ hd => hd) h.casts).properties _ _ h.metadata property hmem).isBuiltIn
  have hdefined := hall property.name (Table.mem_keys_of_mem (Table.mem_of_get? hw))
  cases hv : Table.get? supplied property.name with
  | none => exact (Table.get?_eq_none_iff.mp hv hdefined).elim
  | some v =>
    obtain ⟨_, _, hcast⟩ := h.supplied property hmem v w hv hw
    have hregroups := hnone property hmem
    rw [hv] at hregroups
    exact (Property.castValue_again_iff hbuiltIn hcast).mpr hregroups

/-- **What was accepted is accepted again as it is.**  This holds of any value, unless it comes from
a list that the property regroups.  So an instance, if all its defined properties were supplied and
none of them regroups what was last supplied for it, is made again from them, and writing a property
as it stands changes nothing. -/
theorem resubmission :
    (∀ (engine later : Engine κ) (property : Property κ) (v w : Value κ) (flags : Flags),
      property.IsBuiltIn → (engine.castValue property v flags).1 = .ok w →
        ((later.castValue property w flags).1 = .ok w ↔ property.regroups v = false)) ∧
    ∀ (engine : Engine κ) (record : Instance κ) (supplied : Table (Value κ)),
      Submitted engine record supplied →
      (∀ name ∈ record.definedNames, name ∈ Table.keys supplied) →
      (∀ property ∈ record.metadata.properties,
        (Table.get? supplied property.name).any property.regroups = false) →
      (engine.remake record []).1 = .ok { record with tracked := [] } ∧
        ∀ name value, record.flags.contains .mutable = true →
          record.stored? name = some value →
            record.get name = .ok value ∧ (engine.set record name value).1 = .ok record := by
  refine ⟨fun engine later property v w flags hb h => Property.castValue_again_iff hb h,
    fun engine record supplied hsubmitted hall hnone => ?_⟩
  have h := hsubmitted.known
  refine ⟨h.atRest.carryOut_stored h.metadata fun property hmem w hw bench site =>
    h.isAccepted hall hnone hmem hw bench site, ?_⟩
  intro name value hmutable hvalue
  obtain ⟨property, hp, -⟩ := h.atRest.wellFormed.accepted _ (Table.mem_of_get? hvalue)
  obtain ⟨hmem, rfl⟩ := Metadata.property?_eq_some hp
  have hcast : (engine.castValue property value record.flags).1 = .ok value :=
    h.isAccepted hall hnone hmem hvalue _ _
  constructor
  · unfold Instance.get
    rw [hp]
    dsimp only
    rw [hvalue]
  · unfold set
    rw [hmutable, hp]
    dsimp only
    rw [hcast]
    exact congrArg Except.ok (h.atRest.put_eq_self hvalue)

end Engine

namespace Atlas

/-- A country is made again, and its towns, which are instances by now, are written once more. -/
theorem france_resubmitted : ∃ record property towns ports,
    (engine.make "Country" france .mutable).1 = .ok record ∧
      record.metadata.property? "ports" = some property ∧
      (engine.castValue property (.list [.map [("name", .text "Brest"), ("people", .text "1")]])
        .none).1 = .ok ports ∧
      (engine.castValue property ports .none).1 = .ok ports ∧
      record.stored? "towns" = some towns ∧
      ((engine.make "Country" france .mutable).2.remake record []).1 =
        .ok { record with tracked := [] } ∧
      ((engine.make "Country" france .mutable).2.set record "towns" towns).1 = .ok record := by
  have hmade : ∃ record property towns ports,
      (engine.make "Country" france .mutable).1 = .ok record ∧
        record.metadata.property? "ports" = some property ∧
        (engine.castValue property (.list [.map [("name", .text "Brest"), ("people", .text "1")]])
          .none).1 = .ok ports ∧
        record.stored? "towns" = some towns ∧ record.flags.contains .mutable = true ∧
        property.IsBuiltIn ∧
        property.regroups (.list [.map [("name", .text "Brest"), ("people", .text "1")]]) = false ∧
        (∀ name ∈ record.definedNames, name ∈ Table.keys france) ∧
        ∀ property ∈ record.metadata.properties,
          (Table.get? france property.name).any property.regroups = false :=
    ⟨_, _, _, _, rfl, rfl, rfl, rfl, rfl, ⟨by decide +kernel, by decide +kernel⟩, rfl,
      by decide +kernel, by decide +kernel⟩
  obtain ⟨record, property, towns, ports, hrecord, hproperty, hports, htowns, hmutable, hbuiltIn,
    hregroups, hall, hnone⟩ := hmade
  have hsubmitted : Engine.Submitted (engine.make "Country" france .mutable).2 record france :=
    .made (reachable ⟨rfl, rfl⟩ ⟨rfl, rfl⟩) rfl (by decide +kernel) hrecord
  obtain ⟨hremake, hset⟩ := Engine.resubmission.2 _ record france hsubmitted hall hnone
  exact ⟨record, property, towns, ports, hrecord, hproperty, hports,
    (Engine.resubmission.1 engine engine property _ ports .none hbuiltIn hports).mpr hregroups,
    htowns, hremake, (hset "towns" towns hmutable htowns).2⟩

/-- An engine for coasts, which have towns: a list of cities, or else a fleet of ships. -/
def coastEngine : Engine Empty :=
  ((({ casting := nofun } : Engine Empty).register city).register
    ((ClassDeclaration.named "Coast").withProperty "towns" ["City[]", "Fleet"])).registerCollection
      (.of "Fleet" "Ship")

/-- Input for a coast with one town. -/
def coast : Table (Value Empty) :=
  [("towns", .list [.map [("name", .text "Brest"), ("people", .int 139456)]])]

/-- What a failure reports of values. -/
def failures {α : Type} : Except Error α → Option (List Failure)
  | .error error => some error.invalidTypes
  | .ok _ => none

/-- The towns of a coast are made into cities one by one.  Supplied again, they are taken for a
fleet, so the coast cannot be made again from what it holds. -/
theorem coast_sunk : ∃ record property towns,
    (coastEngine.make "Coast" coast .mutable).1 = .ok record ∧
      record.metadata.property? "towns" = some property ∧ property.IsBuiltIn ∧
      (coastEngine.castValue property
        (.list [.map [("name", .text "Brest"), ("people", .int 139456)]]) .mutable).1 = .ok towns ∧
      failures (coastEngine.castValue property towns .mutable).1 =
        some [⟨"Coast", "towns.0", "Ship", "City", "object"⟩] ∧
      record.definedNames = Table.keys coast ∧ record.get "towns" = .ok towns ∧
      failures (coastEngine.remake record []).1 =
        some [⟨"Coast", "towns.0", "Ship", "City", "object"⟩] ∧
      failures (coastEngine.set record "towns" towns).1 =
        some [⟨"Coast", "towns.0", "Ship", "City", "object"⟩] := by
  have hmade : ∃ record property towns, (coastEngine.make "Coast" coast .mutable).1 = .ok record ∧
      record.metadata.property? "towns" = some property ∧ property.IsBuiltIn ∧
      record.stored? "towns" = some towns ∧ (coastEngine.castValue property
        (.list [.map [("name", .text "Brest"), ("people", .int 139456)]]) .mutable).1 = .ok towns ∧
      record.definedNames = Table.keys coast ∧ record.get "towns" = .ok towns :=
    ⟨_, _, _, rfl, rfl, ⟨by decide +kernel, by decide +kernel⟩, rfl, rfl, rfl, rfl⟩
  obtain ⟨record, property, towns, hrecord, hproperty, hbuiltIn, htowns, hcast, hnames, hget⟩ :=
    hmade
  have hfailures : ((coastEngine.make "Coast" coast .mutable).1.toOption.bind fun record =>
      (record.metadata.property? "towns").bind fun property =>
        (record.stored? "towns").map fun towns =>
          [failures (coastEngine.castValue property towns .mutable).1,
            failures (coastEngine.remake record []).1,
            failures (coastEngine.set record "towns" towns).1]) =
      some (List.replicate 3 (some [⟨"Coast", "towns.0", "Ship", "City", "object"⟩])) := by
    decide +kernel
  rw [hrecord] at hfailures
  change ((record.metadata.property? "towns").bind _) = _ at hfailures
  rw [hproperty, htowns] at hfailures
  injection hfailures with hfailures
  injection hfailures with hagain hfailures
  injection hfailures with hremake hfailures
  injection hfailures with hset
  exact ⟨record, property, towns, hrecord, hproperty, hbuiltIn, hcast, hagain, hnames, hget,
    hremake, hset⟩

end Atlas

end TypedRecords
