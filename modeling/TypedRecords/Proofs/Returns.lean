import TypedRecords.Proofs.PlainData

/-!
# Values that come back

What built-in casts make of plain input has plain data, and what they make of this data has the same
data.  A part of the input may be made into an instance or a collection, item by item or as a whole,
be read as an integer, or be left as it is; its data always takes the same way again.  So does a
default that was filled in, although the empty list may come back as an empty collection.

* `Value.Alike`: what types cannot tell apart.
* `Construction.Returns`: instances come back, as far as a number of levels goes.  All that follows
  rests on it.
* `Cast.returns_convert`, `Property.returns_of_coerce`: what casts and properties convert comes back.
* `Property.comesBack_of_castValue`, `Property.comesBack_of_default?`: so does a value that was
  supplied, or a default.
-/

namespace TypedRecords

open Construction

variable {κ : Type}

/-! ## Shapes and types -/

namespace Value

/-- Types cannot tell the two values apart: they are the same, or instances of one class, or
collections of one name. -/
inductive Alike : Value κ → Value κ → Prop
  | refl (v : Value κ) : Alike v v
  | record {origin origin' : Origin} {r r' : Instance κ} :
    r'.metadata = r.metadata → Alike (.record origin r) (.record origin' r')
  | collection {origin origin' : Origin} {name itemClass : String}
    {items items' : List (Origin × Instance κ)} :
    Alike (.object origin (.collection name itemClass items))
      (.object origin' (.collection name itemClass items'))

theorem Alike.holds {v w : Value κ} (h : Alike v w) (type : TypeName) :
    type.holds w = type.holds v := by
  cases h with
  | refl => rfl
  | record hm =>
    cases type with
    | keyword k => cases k <;> rfl
    | named className =>
      unfold TypeName.holds Instance.isInstanceOf
      dsimp only
      rw [hm]
  | collection =>
    cases type with
    | keyword k => cases k <;> rfl
    | named className => rfl

end Value

/-! ## Lists that come back item by item -/

/-- If every step on an item comes back, so do all of them: from items to outcomes, from outcomes to
data, and from data to outcomes again.  Positions do not matter. -/
theorem forall₂_zipIdx_returns {α β γ ι : Type} {first : α × Nat → β → Prop}
    (again : ι → γ × Nat → β → Prop) (shape : α → γ → Prop) (data : β → γ → Prop)
    (alike : β → β → Prop) {items : List α} {made : List β} {n : Nat}
    (hstep : ∀ item ∈ items, ∀ i b, first (item, i) b → ∃ c, shape item c ∧ data b c ∧
      ∀ k j, ∃ b', again k (c, j) b' ∧ data b' c ∧ alike b b')
    (h : List.Forall₂ first (items.zipIdx n) made) :
    ∃ parts, List.Forall₂ shape items parts ∧ List.Forall₂ data made parts ∧
      ∀ k m, ∃ made', List.Forall₂ (again k) (parts.zipIdx m) made' ∧
        List.Forall₂ data made' parts ∧ List.Forall₂ alike made made' := by
  induction items generalizing made n with
  | nil =>
    cases h
    exact ⟨[], .nil, .nil, fun _ _ => ⟨[], .nil, .nil, .nil⟩⟩
  | cons item rest ih =>
    rw [List.zipIdx_cons] at h
    obtain ⟨b, others, hb, hothers, rfl⟩ := List.forall₂_cons_left_iff.mp h
    obtain ⟨c, hshape, hdata, hagain⟩ := hstep item List.mem_cons_self n b hb
    obtain ⟨parts, hshapes, hdatas, hagains⟩ :=
      ih (fun other ho => hstep other (List.mem_cons_of_mem _ ho)) hothers
    refine ⟨c :: parts, .cons hshape hshapes, .cons hdata hdatas, fun k m => ?_⟩
    obtain ⟨b', hb', hdata', halike⟩ := hagain k m
    obtain ⟨made', hmade', hdatas', halikes⟩ := hagains k (m + 1)
    refine ⟨b' :: made', ?_, .cons hdata' hdatas', .cons halike halikes⟩
    rw [List.zipIdx_cons]
    exact .cons hb' hmade'

/-! ## Another call, another place -/

/-- The same request in another call, for another place. -/
def CastRequest.moved (request : CastRequest) (call : Nat) (place : List Step) : CastRequest :=
  { request with call, place }

/-- The same site in another call, at another place. -/
def Site.moved (site : Site) (call : Nat) (place : List Step) : Site :=
  { site with call, place }

namespace Construction

/-- Instances that are made from plain input, with the given levels, have plain data, and what is
made from this data is of the same class and has the same data, wherever it is made. -/
def Returns (plan : Plan κ) (levels : Nat) : Prop :=
  ∀ (call : Nat) (order : Order κ) (r : Instance κ), (∀ entry ∈ order.input, entry.2.IsPlain) →
    (carryOut plan call levels order).result = .ok r →
      ∃ data, r.data plan.casting false = .ok data ∧ (∀ entry ∈ data, entry.2.IsPlain) ∧
        ∀ (call' : Nat) (place : List Step), ∃ r',
          (carryOut plan call' levels { order with place, input := data }).result = .ok r' ∧
            r'.metadata = r.metadata ∧ r'.data plan.casting false = .ok data

end Construction

/-! ## What casts convert comes back -/

namespace Cast

variable {plan : Plan κ} {levels call : Nat} {request : CastRequest} {value w : Value κ}

theorem returns_convertItem (hr : Construction.Returns plan levels) {itemClass : String}
    {index : Nat} {item : Origin × Instance κ} (hv : value.IsPlain)
    (h : (convertItem (benchOf plan call levels) request itemClass (value, index)).result
      = .ok item) :
    ∃ data : Value κ, (data.IsPlain ∧ value.SameShape data) ∧
      Value.MemberData plan.casting item data ∧
      ∀ (k : Nat × List Step) (j : Nat), ∃ item',
        (convertItem (benchOf plan k.1 levels) (request.moved k.1 k.2) itemClass (data, j)).result
          = .ok item' ∧
        Value.MemberData plan.casting item' data ∧ True := by
  rcases convertItem_eq_ok.mp h with ⟨order, ho, hmade, -⟩ | ⟨hrecord, -⟩
  · cases hv with
    | @map entries hentries =>
      cases List.mem_singleton.mp ho
      obtain ⟨data, hdata, hplain, hagain⟩ := hr call _ item.2 hentries hmade
      refine ⟨.map data, ⟨.map hplain, rfl, rfl, rfl⟩, ⟨data, hdata, rfl⟩, fun k j => ?_⟩
      obtain ⟨r', hr', -, hdata'⟩ := hagain k.1 (k.2 ++ [.element j])
      exact ⟨(((request.moved k.1 k.2).child (.element j)).origin, r'),
        convertItem_eq_ok.mpr (.inl ⟨_, List.mem_singleton_self _, hr', rfl⟩), ⟨data, hdata', rfl⟩,
        trivial⟩
    | _ => cases ho
  · have hrecord : value = .record item.1 item.2 := hrecord
    rw [hrecord] at hv
    cases hv

/-- What the cast makes of the value has plain data of the same shape, and what it makes of this
data is alike and has the same data, wherever it is made. -/
structure Returns (plan : Plan κ) (levels : Nat) (cast : Cast κ) (request : CastRequest)
    (value w data : Value κ) : Prop where
  isPlain : data.IsPlain
  sameShape : value.SameShape data
  items : ∀ elements, value = .list elements → ∃ parts, data = .list parts ∧
    List.Forall₂ Value.SameShape elements parts
  itemData : w.ItemData plan.casting data
  again : ∀ (call : Nat) (place : List Step), ∃ w',
    (cast.convert (Construction.benchOf plan call levels) (request.moved call place) data).result
      = .ok w' ∧
    w'.ItemData plan.casting data ∧ w.Alike w'

theorem returns_convertInstance (hr : Construction.Returns plan levels) {className : String}
    (ht : request.type = .named className) {input : Table (Value κ)}
    (hi : ∀ entry ∈ input, entry.2.IsPlain)
    (h : (convertInstance (benchOf plan call levels) request (.map input)).result = .ok w) :
    ∃ data, Returns plan levels .instances request (.map input) w data := by
  have horders : ∀ (request : CastRequest) (input : Table (Value κ)),
      request.type = .named className → instanceOrders request (.map input) =
        [⟨request.place, className, input, request.flags⟩] := by
    intro request input ht
    unfold instanceOrders
    rw [ht]
    rfl
  obtain ⟨order, ho, r, hmade, rfl⟩ := convertInstance_eq_ok.mp h
  rw [horders request input ht] at ho
  cases List.mem_singleton.mp ho
  obtain ⟨data, hdata, hplain, hagain⟩ := hr call _ r hi hmade
  refine ⟨.map data, .map hplain, ⟨rfl, rfl, rfl⟩, nofun, .record hdata, fun call' place => ?_⟩
  obtain ⟨r', hr', hm, hdata'⟩ := hagain call' place
  refine ⟨.record (request.moved call' place).origin r', ?_, .record hdata', .record hm⟩
  refine convertInstance_eq_ok.mpr ⟨_, ?_, r', hr', rfl⟩
  rw [horders (request.moved call' place) data ht]
  exact List.mem_singleton_self _

theorem returns_convertCollection (hp : plan.Native) (hr : Construction.Returns plan levels)
    {elements : List (Value κ)} (hi : ∀ element ∈ elements, element.IsPlain)
    (h : (convertCollection (benchOf plan call levels) request (.list elements)).result = .ok w) :
    ∃ data, Returns plan levels .collections request (.list elements) w data := by
  obtain ⟨declaration, _, items, hfound, he, hitems, rfl⟩ := convertCollection_eq_ok.mp h
  cases he
  have hnested := not_isSilent_of_benchOf hp.reported call levels
  have hall := (Build.collect_eq_ok_iff fun element _ e he =>
    not_isSilent_of_convertItem hnested he).mp hitems
  obtain ⟨parts, hshapes, hdatas, hagain⟩ := forall₂_zipIdx_returns
    (fun (k : Nat × List Step) element item => (convertItem (benchOf plan k.1 levels)
      (request.moved k.1 k.2) declaration.itemClass element).result = .ok item)
    (fun element part => part.IsPlain ∧ element.SameShape part) (Value.MemberData plan.casting)
    (fun _ _ => True)
    (fun element he i item hitem => returns_convertItem hr (hi element he) hitem) hall
  refine ⟨.list parts, .list fun part hpart => ?_, ⟨rfl, rfl, rfl⟩, fun _ he => ?_,
    .collection hdatas, fun call' place => ?_⟩
  · obtain ⟨_, -, hpart, -⟩ := forall₂_mem_right hshapes hpart
    exact hpart
  · cases he
    exact ⟨parts, rfl, hshapes.imp fun _ _ h => h.2⟩
  · obtain ⟨items', hitems', hdatas', -⟩ := hagain (call', place) 0
    refine ⟨.object (request.moved call' place).origin
      (.collection declaration.name declaration.itemClass items'), ?_, .collection hdatas',
      .collection⟩
    exact convertCollection_eq_ok.mpr
      ⟨declaration, parts, items', hfound, rfl, Build.collect_of_forall₂ hitems', rfl⟩

/-- **What a built-in cast has converted comes back.** -/
theorem returns_convert (request : CastRequest) (hp : plan.Native)
    (hr : Construction.Returns plan levels) {types : List TypeName} {cast : Cast κ}
    (hc : Claimed plan.registry types request.type cast value) (hv : value.IsPlain)
    (h : (cast.convert (benchOf plan call levels) request value).result = .ok w) :
    ∃ data, Returns plan levels cast request value w data := by
  generalize ht : request.type = type at hc
  cases hc with
  | map => cases hv with
    | map hentries => exact returns_convertInstance hr ht hentries h
  | list => cases hv with
    | list helements => exact returns_convertCollection hp hr helements h

end Cast

/-! ## What properties coerce comes back -/

namespace Property

variable {plan : Plan κ} {levels call : Nat} {property : Property κ} {site : Site} {flags : Flags}
  {value w : Value κ}

theorem returns_castElement (hp : plan.Native) (hr : Returns plan levels)
    (hn : property.Native plan.registry) {index : Nat} (hv : value.IsPlain)
    (h : (property.castElement (benchOf plan call levels) site flags (value, index)).result
      = .ok w) :
    ∃ data : Value κ, (data.IsPlain ∧ value.SameShape data) ∧ w.ItemData plan.casting data ∧
      ∀ (k : Nat × List Step) (j : Nat), ∃ w',
        (property.castElement (benchOf plan k.1 levels) (site.moved k.1 k.2) flags (data, j)).result
          = .ok w' ∧
        w'.ItemData plan.casting data ∧ w.Alike w' := by
  unfold castElement at h
  dsimp only at h
  cases hclaim : claim? (benchOf plan call levels) property.elementCasts value with
  | some entry =>
    obtain ⟨type, cast⟩ := entry
    rw [hclaim] at h
    obtain ⟨data, hdata⟩ :=
      Cast.returns_convert (property.request (site.child (.element index)) flags type) hp hr
        (hn.elementCasts.claimed hclaim) hv (Build.prefixed_eq_ok.mp h)
    refine ⟨data, ⟨hdata.isPlain, hdata.sameShape⟩, hdata.itemData, fun k j => ?_⟩
    obtain ⟨w', hw', hdata', halike⟩ := hdata.again k.1 (k.2 ++ [.element j])
    refine ⟨w', ?_, hdata', halike⟩
    unfold castElement
    dsimp only
    rw [hn.elementCasts.claim?_congr hdata.sameShape, hclaim]
    exact Build.prefixed_eq_ok.mpr hw'
  | none =>
    rw [hclaim] at h
    dsimp only at h
    split at h
    · next hkeeps =>
      cases h
      refine ⟨value, ⟨hv, .refl value⟩, .plain hv, fun k j => ⟨value, ?_, .plain hv, .refl value⟩⟩
      unfold castElement
      dsimp only
      rw [hn.elementCasts.claim?_congr (.refl value), hclaim]
      dsimp only
      rw [if_pos hkeeps]
      rfl
    · cases h

/-- The value of the property has plain data, and what is coerced from this data is accepted as the
value is and has the same data, wherever it is coerced. -/
structure Returns (plan : Plan κ) (levels : Nat) (property : Property κ) (site : Site)
    (flags : Flags) (w data : Value κ) : Prop where
  isPlain : data.IsPlain
  dataFor : ∀ request : DataRequest, request.withDefaults = false →
    w.dataFor plan.casting request property = .ok data
  again : ∀ (call : Nat) (place : List Step), ∃ w',
    (property.coerce (Construction.benchOf plan call levels) (site.moved call place) flags
      data).result = .ok w' ∧
    (∀ request : DataRequest, request.withDefaults = false →
      w'.dataFor plan.casting request property = .ok data) ∧
    ∀ given, property.accepts given w = true → property.accepts given w' = true

theorem coerceWhole_of_claim?_eq_none {bench : Workbench κ}
    (hclaim : claim? bench property.casts value = none)
    (hread : property.readInteger? value = none) :
    (property.coerceWhole bench site flags value).result = .ok value := by
  unfold coerceWhole
  rw [hclaim]
  dsimp only
  rw [hread]
  rfl

theorem coerce_eq_coerceWhole {bench : Workbench κ}
    (h : ∀ items, value = .list items → property.castsElements bench items = false) :
    property.coerce bench site flags value = property.coerceWhole bench site flags value := by
  rcases coerce_cases bench property site flags value with ⟨items, hv, he, -⟩ | ⟨-, hcoerce, -⟩
  · rw [h items hv] at he
    cases he
  · exact hcoerce

/-- A value that no cast claims and that is no text for an integer comes back as it is. -/
theorem returns_self (hn : property.Native plan.registry) (hv : value.IsPlain)
    (helements : ∀ call items, value = .list items →
      property.castsElements (benchOf plan call levels) items = false)
    (hclaim : ∀ call, claim? (benchOf plan call levels) property.casts value = none)
    (hread : property.readInteger? value = none) :
    property.Returns plan levels site flags value value where
  isPlain := hv
  dataFor := fun _ hd => (Value.ItemData.plain hv).dataFor hn hd
  again := fun call place => by
    refine ⟨value, ?_, fun _ hd => (Value.ItemData.plain hv).dataFor hn hd, fun _ ha => ha⟩
    rw [coerce_eq_coerceWhole (helements call)]
    exact coerceWhole_of_claim?_eq_none (hclaim call) hread

theorem returns_of_claim? (hp : plan.Native) (hr : Construction.Returns plan levels)
    (hn : property.Native plan.registry) (hv : value.IsPlain)
    (helements : ∀ items, value = .list items →
      property.castsElements (benchOf plan call levels) items = false)
    {type : TypeName} {cast : Cast κ}
    (hclaim : claim? (benchOf plan call levels) property.casts value = some (type, cast))
    (h : (cast.convert (benchOf plan call levels) (property.request site flags type) value).result
      = .ok w) : ∃ data, property.Returns plan levels site flags w data := by
  have hclaimed := hn.casts.claimed hclaim
  obtain ⟨data, hdata⟩ := Cast.returns_convert (property.request site flags type) hp hr hclaimed hv h
  have hshape := hdata.sameShape
  refine ⟨data, hdata.isPlain, fun _ hd => hdata.itemData.dataFor hn hd, fun call' place => ?_⟩
  obtain ⟨w', hw', hdata', halike⟩ := hdata.again call' place
  have hagainClaim : claim? (benchOf plan call' levels) property.casts data = some (type, cast) := by
    rw [hn.casts.claim?_congr hshape, hclaim]
  refine ⟨w', ?_, fun _ hd => hdata'.dataFor hn hd, fun given _ => ?_⟩
  · rw [coerce_eq_coerceWhole]
    · unfold coerceWhole
      rw [hagainClaim]
      exact hw'
    · intro parts hdataparts
      have hlist : value.isList = true := by
        rw [← hshape.isList, hdataparts]
        rfl
      cases value with
      | list items =>
        obtain ⟨parts', hparts', hshapes⟩ := hdata.items items rfl
        rw [hdataparts] at hparts'
        cases hparts'
        rw [castsElements_congr hn hshapes]
        exact helements items rfl
      | _ => cases hlist
  · have ht : type ∈ property.union.plain := by cases hclaimed <;> assumption
    obtain ⟨hholds, hnull⟩ := Cast.holds_of_convert
      ((property.request site flags type).moved call' place)
      (className_of_benchOf hp call' levels) hp.collections
      (hn.casts.claimed hagainClaim) hw'
    rw [accepts_of_not_isNull hnull]
    exact UnionType.holds_of_plain ht hholds

/-- A list that is coerced item by item comes back: the data of its first item is claimed again, so
all items are coerced again. -/
theorem returns_of_castsElements (hp : plan.Native) (hr : Construction.Returns plan levels)
    (hn : property.Native plan.registry) {items made : List (Value κ)}
    (hitems : ∀ item ∈ items, item.IsPlain)
    (hfirst : property.castsElements (benchOf plan call levels) items = true)
    (h : (property.castElements (benchOf plan call levels) site flags items).result = .ok made) :
    ∃ data, property.Returns plan levels site flags (.list made) data := by
  have hall := (Build.collect_eq_ok_iff fun element _ e he =>
    not_isSilent_of_castElement hn (not_isSilent_of_benchOf hp.reported call levels) he).mp h
  obtain ⟨parts, hshapes, hdatas, hagain⟩ := forall₂_zipIdx_returns
    (fun (k : Nat × List Step) element w => (property.castElement (benchOf plan k.1 levels)
      (site.moved k.1 k.2) flags element).result = .ok w)
    (fun item part => part.IsPlain ∧ item.SameShape part) (Value.ItemData plan.casting) Value.Alike
    (fun item hi i w hw => returns_castElement hp hr hn (hitems item hi) hw) hall
  refine ⟨.list parts, .list fun part hpart => ?_, fun _ hd => Value.dataFor_list hdatas hn hd,
    fun call' place => ?_⟩
  · obtain ⟨_, -, hplain, -⟩ := forall₂_mem_right hshapes hpart
    exact hplain
  · obtain ⟨made', hmade', hdatas', halikes⟩ := hagain (call', place) 0
    refine ⟨.list made', ?_, fun _ hd => Value.dataFor_list hdatas' hn hd,
      fun given ha => (accepts_list_congr (halikes.imp fun _ _ h => h.holds)).trans ha⟩
    have hfirst' : property.castsElements (benchOf plan call' levels) parts = true := by
      rw [castsElements_congr hn (hshapes.imp fun _ _ h => h.2)]
      exact hfirst
    have hcast : (property.castElements (benchOf plan call' levels) (site.moved call' place) flags
        parts).result = .ok made' := Build.collect_of_forall₂ hmade'
    unfold coerce
    dsimp only
    rw [if_pos hfirst', Build.bind_eq_ok]
    exact ⟨made', hcast, rfl⟩

theorem returns_of_claim?_eq_none (hn : property.Native plan.registry) (hv : value.IsPlain)
    (helements : ∀ items, value = .list items →
      property.castsElements (benchOf plan call levels) items = false)
    (hclaim : claim? (benchOf plan call levels) property.casts value = none)
    (h : (property.coerceWhole (benchOf plan call levels) site flags value).result = .ok w) :
    ∃ data, property.Returns plan levels site flags w data := by
  unfold coerceWhole at h
  rw [hclaim] at h
  dsimp only at h
  cases hread : property.readInteger? value with
  | none =>
    rw [hread] at h
    cases h
    refine ⟨value, returns_self hn hv (fun call' items hitems => ?_) (fun call' => ?_) hread⟩
    · have hsame : List.Forall₂ Value.SameShape items items :=
        List.forall₂_same.mpr fun item _ => .refl item
      rw [castsElements_congr hn hsame]
      exact helements items hitems
    · rw [hn.casts.claim?_congr (.refl value), hclaim]
  | some n =>
    rw [hread] at h
    cases h
    have hshape : value.SameShape (.int n) := by
      unfold readInteger? at hread
      split at hread
      · exact ⟨rfl, rfl, rfl⟩
      · cases hread
    refine ⟨.int n, returns_self hn .int nofun (fun call' => ?_) rfl⟩
    rw [hn.casts.claim?_congr hshape, hclaim]

/-- **What a property coerces comes back.** -/
theorem returns_of_coerce (hp : plan.Native) (hr : Construction.Returns plan levels)
    (hn : property.Native plan.registry) (hv : value.IsPlain)
    (h : (property.coerce (benchOf plan call levels) site flags value).result = .ok w) :
    ∃ data, property.Returns plan levels site flags w data := by
  rcases coerce_cases (benchOf plan call levels) property site flags value with
    ⟨items, rfl, hfirst, hcoerce, -⟩ | ⟨helements, hcoerce, -⟩
  · rw [hcoerce] at h
    obtain ⟨made, hmade, h⟩ := Build.bind_eq_ok.mp h
    cases h
    cases hv with
    | list hitems => exact returns_of_castsElements hp hr hn hitems hfirst hmade
  · rw [hcoerce] at h
    cases hclaim : claim? (benchOf plan call levels) property.casts value with
    | some entry =>
      unfold coerceWhole at h
      rw [hclaim] at h
      exact returns_of_claim? hp hr hn hv helements hclaim h
    | none => exact returns_of_claim?_eq_none hn hv helements hclaim h

/-! ## What properties settle on comes back -/

/-- The settled value of the property has plain data, and this data can be supplied instead,
wherever the instance is made: what is cast from it has the same data. -/
structure ComesBack (plan : Plan κ) (levels : Nat) (property : Property κ) (flags : Flags)
    (w data : Value κ) : Prop where
  isPlain : data.IsPlain
  dataFor : ∀ request : DataRequest, request.withDefaults = false →
    w.dataFor plan.casting request property = .ok data
  again : ∀ (call : Nat) (place : List Step), ∃ w',
    (property.castValue (Construction.benchOf plan call levels)
      (Construction.siteOf plan call levels place) flags data).result = .ok w' ∧
    ∀ request : DataRequest, request.withDefaults = false →
      w'.dataFor plan.casting request property = .ok data

theorem comesBack_of_returns (call : Nat) (place : List Step) {data : Value κ}
    (h : property.Returns plan levels
      ((siteOf plan call levels place).child (.property property.name)) flags.withoutTransient
      w data)
    (ha : property.accepts flags w = true) :
    property.ComesBack plan levels flags w data where
  isPlain := h.isPlain
  dataFor := h.dataFor
  again := fun call' place' => by
    obtain ⟨w', hw', hdata', haccepts⟩ := h.again call' (place' ++ [.property property.name])
    exact ⟨w', castValue_eq_ok.mpr ⟨hw', haccepts flags ha⟩, hdata'⟩

theorem comesBack_of_castValue (hp : plan.Native) (hr : Construction.Returns plan levels)
    (hn : property.Native plan.registry) (hv : value.IsPlain) {place : List Step}
    (h : (property.castValue (benchOf plan call levels) (siteOf plan call levels place) flags
      value).result = .ok w) : ∃ data, property.ComesBack plan levels flags w data := by
  obtain ⟨hw, ha⟩ := castValue_eq_ok.mp h
  obtain ⟨data, hreturns⟩ := returns_of_coerce hp hr hn hv hw
  exact ⟨data, comesBack_of_returns call place hreturns ha⟩

end Property

/-- Null, or a scalar that is not a text for an integer. -/
def Value.IsSimple : Value κ → Prop
  | .null | .bool _ | .int _ | .float _ => True
  | .text s => Numeral.integral? s.toList = none
  | _ => False

namespace Property

variable {plan : Plan κ} {levels : Nat} {property : Property κ} {flags : Flags} {w : Value κ}

theorem claim?_of_isSimple {registry : Registry κ} {types : List TypeName}
    {casts : List (TypeName × Cast κ)} (hk : KeptNatively registry types casts)
    {bench : Workbench κ} (hw : w.IsSimple) : claim? bench casts w = none := by
  cases hclaim : claim? bench casts w with
  | none => rfl
  | some entry =>
    obtain ⟨type, cast⟩ := entry
    cases hk.claimed hclaim <;> cases hw

theorem comesBack_of_isSimple (hn : property.Native plan.registry) (hw : w.IsSimple)
    (ha : property.accepts flags w = true) : property.ComesBack plan levels flags w w := by
  have hplain : w.IsPlain := by
    cases w with
    | null => exact .null
    | bool b => exact .bool
    | int n => exact .int
    | float x => exact .float
    | text s => exact .text
    | _ => cases hw
  have hlist : ∀ items, w ≠ .list items := by
    rintro items rfl
    cases hw
  have hread : property.readInteger? w = none := by
    cases w with
    | text s =>
      have hs : Numeral.integral? s.toList = none := hw
      unfold readInteger?
      dsimp only
      rw [hs, ite_self]
    | _ => rfl
  exact comesBack_of_returns 0 [] (returns_self hn hplain
    (fun _ items hitems => absurd hitems (hlist items)) (fun _ => claim?_of_isSimple hn.casts hw)
    hread) ha

/-- The empty list comes back, if only as the data of an empty collection. -/
theorem comesBack_nil (hp : plan.Native) (hn : property.Native plan.registry)
    (ha : property.accepts flags (.list [] : Value κ) = true) :
    property.ComesBack plan levels flags (.list []) (.list []) := by
  have hplain : (.list [] : Value κ).IsPlain := .list fun _ h => absurd h List.not_mem_nil
  cases hclaim : claim? (benchOf plan 0 levels) property.casts (.list [] : Value κ) with
  | none =>
    refine comesBack_of_returns 0 [] (returns_self hn hplain (fun _ items hitems => ?_)
      (fun call' => ?_) rfl) ha
    · cases hitems; rfl
    · rw [hn.casts.claim?_congr (.refl _), hclaim]
  | some entry =>
    obtain ⟨type, cast⟩ := entry
    refine ⟨hplain, fun _ hd => (Value.ItemData.plain hplain).dataFor hn hd, fun call place => ?_⟩
    have hagain : claim? (benchOf plan call levels) property.casts (.list [] : Value κ) =
        some (type, cast) := by
      rw [hn.casts.claim?_congr (.refl _), hclaim]
    have hclaimed := hn.casts.claimed hagain
    have ht : type ∈ property.union.plain := by cases hclaimed; assumption
    generalize hsite : (siteOf plan call levels place).child (.property property.name) = site
    have hconvert : ∃ w', (cast.convert (benchOf plan call levels)
        (property.request site flags.withoutTransient type) (.list [])).result = .ok w' ∧
          w'.ItemData plan.casting (.list []) := by
      cases hclaimed with
      | @list className declaration _ hmem hnormal hd =>
        exact ⟨_, Cast.convertCollection_eq_ok.mpr ⟨declaration, [], [], hd, rfl, rfl, rfl⟩,
          .collection .nil⟩
    obtain ⟨w', hw', hdata⟩ := hconvert
    obtain ⟨hholds, hnull⟩ := Cast.holds_of_convert
      (property.request site flags.withoutTransient type)
      (className_of_benchOf hp call levels) hp.collections hclaimed hw'
    refine ⟨w', castValue_eq_ok.mpr ⟨?_, ?_⟩, fun _ hd => hdata.dataFor hn hd⟩
    · rw [hsite, coerce_eq_coerceWhole (fun items hitems => by cases hitems; rfl)]
      unfold coerceWhole
      rw [hagain]
      exact hw'
    · rw [accepts_of_not_isNull hnull]
      exact UnionType.holds_of_plain ht hholds

/-- **A default comes back**, provided that the explicit one is simple. -/
theorem comesBack_of_default? (hp : plan.Native) (hn : property.Native plan.registry)
    (hs : ∀ explicit, property.default = some explicit → explicit.IsSimple)
    (ha : property.accepts flags w = true) (h : property.default? flags = some w) :
    property.ComesBack plan levels flags w w := by
  unfold default? at h
  cases hexplicit : property.default with
  | some explicit =>
    rw [hexplicit] at h
    cases h
    exact comesBack_of_isSimple hn (hs _ hexplicit) ha
  | none =>
    rw [hexplicit] at h
    have h : property.implicitDefault? flags = some w := h
    unfold implicitDefault? at h
    split at h
    · cases h
      exact comesBack_nil hp hn ha
    · split at h
      · cases h
        exact comesBack_of_isSimple hn trivial ha
      · split at h
        · cases h
          exact comesBack_of_isSimple hn trivial ha
        · cases h

end Property

end TypedRecords
