import Mathlib.Logic.Relation
import TypedRecords.Proofs.Invariant
import TypedRecords.Proofs.Native
import TypedRecords.Proofs.Settling

/-!
# Where failures are

A failure names a part of the input by a path.  Paths are put together from inside out, one step in
front of another, by the properties, list elements, collection members and nested constructions on
the way.  Where only the built-in casts are at work, this is always the way from the outermost input
to the very part that is at fault.

* `Value.Leads`: a path leads from a value to a part of it.
* `Error.Traced`: every path in an error leads to what the error says.  An invalid value is found
  there; an unknown key stands there in the input of an instance whose class does not declare it; an
  undefined property is declared and missing there, and has no default.
* `Construction.traced_of_carryOut`: **all paths in the error of a construction are right.**
-/

namespace TypedRecords

variable {κ : Type}

/-! ## Paths -/

namespace Step

/-- A step as it is written in a path. -/
def text : Step → String
  | property name => name
  | element index | made index => toString index

/-- A path as it is written. -/
def render (path : List Step) : String :=
  path.foldr (fun step rest => joinPath step.text rest) ""

theorem render_cons (step : Step) (path : List Step) :
    render (step :: path) = joinPath step.text (render path) := rfl

theorem render_singleton (step : Step) : render [step] = step.text := by
  rw [render_cons]
  exact if_pos rfl

end Step

namespace Value

/-- The path leads from a value to a part of it: by a key into a map, by a position into a list. -/
inductive Leads : List Step → Value κ → Value κ → Prop
  | here {v : Value κ} : Leads [] v v
  | key {name : String} {path : List Step} {entries : List (String × Value κ)} {v w : Value κ} :
    (name, v) ∈ entries → Leads path v w → Leads (.property name :: path) (.map entries) w
  | item {index : Nat} {path : List Step} {items : List (Value κ)} {v w : Value κ} :
    items[index]? = some v → Leads path v w → Leads (.element index :: path) (.list items) w

variable {path rest : List Step} {u v w : Value κ}

theorem Leads.trans (h : Leads path u v) (h' : Leads rest v w) : Leads (path ++ rest) u w := by
  induction h with
  | here => exact h'
  | key hm _ ih => exact .key hm (ih h')
  | item hi _ ih => exact .item hi (ih h')

/-- No map within the value holds a key twice. -/
def KeysDistinct (v : Value κ) : Prop :=
  ∀ path entries, Leads path v (.map entries) → Table.Distinct entries

end Value

/-! ## Traced errors -/

/-- The path leads from a value, which stands at `place` in the input of the call, to the input of
an instance that is ordered, of a class with the metadata `m`. -/
structure Order.FoundBy (plan : Plan κ) (orders : List (Nat × Order κ)) (place : List Step)
    (value : Value κ) (path : List Step) (order : Order κ) (m : Metadata κ) : Prop where
  ordered : ∃ levels, (levels, order) ∈ orders
  place : order.place = place ++ path
  leads : value.Leads path (.map order.input)
  metadata : plan.metadata order.className = .ok m

/-- Every path in the error leads from the value, which stands at `place` in the input of the call,
to what the error says. -/
structure Error.Traced (plan : Plan κ) (orders : List (Nat × Order κ)) (place : List Step)
    (value : Value κ) (error : Error) : Prop where
  invalid : ∀ failure ∈ error.invalidTypes, ∃ path w, value.Leads path w ∧
    failure.path = Step.render path ∧ failure.value = w.summary ∧ failure.kind = w.kind.name
  unknown : ∀ written ∈ error.unknownPaths, ∃ (path : List Step) (order : Order κ)
    (m : Metadata κ) (key : String),
    order.FoundBy plan orders place value path m ∧ key ∈ Table.keys order.input ∧
      m.declares key = false ∧ written = Step.render (path ++ [.property key])
  undefined : ∀ written ∈ error.undefinedPaths, ∃ (path : List Step) (order : Order κ)
    (m : Metadata κ) (property : Property κ),
    order.FoundBy plan orders place value path m ∧ property ∈ m.properties ∧
      property.name ∉ Table.keys order.input ∧
      property.default? order.flags.withoutTransient = none ∧
      written = Step.render (path ++ [.property property.name])

section Traced

variable {plan : Plan κ} {orders : List (Nat × Order κ)} {place : List Step} {value part : Value κ}
  {error inner : Error} {step : Step}

theorem Order.FoundBy.mono {others : List (Nat × Order κ)} (ho : orders ⊆ others)
    {path : List Step} {order : Order κ} {m : Metadata κ}
    (h : order.FoundBy plan orders place value path m) :
    order.FoundBy plan others place value path m :=
  ⟨h.ordered.imp fun _ hmem => ho hmem, h.place, h.leads, h.metadata⟩

theorem Order.FoundBy.descend {path : List Step} {order : Order κ} {m : Metadata κ}
    (hs : value.Leads [step] part) (h : order.FoundBy plan orders (place ++ [step]) part path m) :
    order.FoundBy plan orders place value (step :: path) m where
  ordered := h.ordered
  place := by rw [h.place, List.append_assoc, List.singleton_append]
  leads := hs.trans h.leads
  metadata := h.metadata

namespace Error

theorem Traced.mono {others : List (Nat × Order κ)} (ho : orders ⊆ others)
    (h : error.Traced plan orders place value) : error.Traced plan others place value := by
  refine ⟨h.invalid, fun written hw => ?_, fun written hw => ?_⟩
  · obtain ⟨path, order, m, key, hfound, hrest⟩ := h.unknown written hw
    exact ⟨path, order, m, key, hfound.mono ho, hrest⟩
  · obtain ⟨path, order, m, property, hfound, hrest⟩ := h.undefined written hw
    exact ⟨path, order, m, property, hfound.mono ho, hrest⟩

/-- An error of a part, seen from the whole. -/
theorem Traced.descend (step : Step) (hs : value.Leads [step] part)
    (h : inner.Traced plan orders (place ++ [step]) part) :
    (inner.prefixed step.text).Traced plan orders place value := by
  constructor
  · intro failure hf
    rw [invalidTypes_prefixed] at hf
    obtain ⟨original, ho, rfl⟩ := List.mem_map.mp hf
    obtain ⟨path, w, hl, hp, hv, hk⟩ := h.invalid original ho
    refine ⟨step :: path, w, hs.trans hl, ?_, hv, hk⟩
    rw [Step.render_cons, ← hp]
    rfl
  · intro written hw
    rw [unknownPaths_prefixed] at hw
    obtain ⟨original, ho, rfl⟩ := List.mem_map.mp hw
    obtain ⟨path, order, m, key, hfound, hk, hd, rfl⟩ := h.unknown original ho
    exact ⟨step :: path, order, m, key, hfound.descend hs, hk, hd, rfl⟩
  · intro written hw
    rw [undefinedPaths_prefixed] at hw
    obtain ⟨original, ho, rfl⟩ := List.mem_map.mp hw
    obtain ⟨path, order, m, property, hfound, hp, hn, hd, rfl⟩ := h.undefined original ho
    exact ⟨step :: path, order, m, property, hfound.descend hs, hp, hn, hd, rfl⟩

theorem traced_of_isFatal (h : error.isFatal = true) : error.Traced plan orders place value := by
  obtain ⟨hi, hu, hd⟩ := Build.invalidTypes_of_isFatal h
  refine ⟨?_, ?_, ?_⟩
  · rw [hi]; exact fun _ h => absurd h List.not_mem_nil
  · rw [hu]; exact fun _ h => absurd h List.not_mem_nil
  · rw [hd]; exact fun _ h => absurd h List.not_mem_nil

theorem traced_invalidType {failure : Failure} {path : List Step} {w : Value κ}
    (hl : value.Leads path w) (hp : failure.path = Step.render path)
    (hv : failure.value = w.summary) (hk : failure.kind = w.kind.name) :
    (invalidType [failure]).Traced plan orders place value := by
  refine ⟨fun other ho => ?_, fun _ h => absurd h List.not_mem_nil,
    fun _ h => absurd h List.not_mem_nil⟩
  rw [List.mem_singleton.mp ho]
  exact ⟨path, w, hl, hp, hv, hk⟩

theorem traced_of_collect {α β : Type} {owner : String} {step : α → Build κ β} {items : List α}
    (h : (Build.collect owner step items).result = .error error)
    (hitems : ∀ item ∈ items, ∀ e, (step item).result = .error e →
      e.Traced plan orders place value) : error.Traced plan orders place value := by
  constructor
  · intro failure hf
    obtain ⟨item, hi, e, he, original, ho, rfl⟩ := Build.mem_invalidTypes_of_collect h hf
    exact (hitems item hi e he).invalid original ho
  · intro written hw
    obtain ⟨item, hi, e, he, hw⟩ := Build.mem_unknownPaths_of_collect h hw
    exact (hitems item hi e he).unknown written hw
  · intro written hw
    obtain ⟨item, hi, e, he, hw⟩ := Build.mem_undefinedPaths_of_collect h hw
    exact (hitems item hi e he).undefined written hw

end Error

end Traced

/-! ## Errors of conversions -/

section Conversions

variable {plan : Plan κ} {orders : List (Nat × Order κ)} {bench : Workbench κ} {error : Error}

theorem Value.leads_of_mem_zipIdx {items : List (Value κ)} {element : Value κ × Nat}
    (h : element ∈ items.zipIdx) : (Value.list items).Leads [.element element.2] element.1 :=
  .item (List.mk_mem_zipIdx_iff_getElem?.mp h) .here

namespace Cast

variable {request : CastRequest} {value : Value κ}

theorem traced_convertItem {itemClass : String} {elements : List (Value κ)}
    {element : Value κ × Nat} (he : element ∈ elements.zipIdx)
    (hnested : ∀ order ∈ memberOrders request itemClass element, ∀ e,
      (bench.carryOut order).result = .error e →
        e.Traced plan orders order.place (.map order.input))
    (h : (convertItem bench request itemClass element).result = .error error) :
    error.Traced plan orders request.place (.list elements) := by
  have hl := Value.leads_of_mem_zipIdx he
  have hwrong : error = .invalidType
        [.ofValue request.owner (toString element.2) itemClass element.1] →
      error.Traced plan orders request.place (.list elements) := by
    rintro rfl
    exact Error.traced_invalidType hl (Step.render_singleton (.element element.2)).symm rfl rfl
  obtain ⟨value, index⟩ := element
  cases value with
  | map input =>
    obtain ⟨inner, hinner, rfl⟩ := Build.prefixed_eq_error.mp h
    rcases Build.bind_eq_error.mp hinner with hinner | ⟨_, -, hinner⟩
    · exact (hnested _ (List.mem_singleton_self _) inner hinner).descend (.element index) hl
    · cases hinner
  | record origin r =>
    unfold convertItem at h
    dsimp only at h
    split at h
    · cases h
    · cases h
      exact hwrong rfl
  | _ => cases h; exact hwrong rfl

theorem traced_convert (request : CastRequest) {types : List TypeName} {cast : Cast κ}
    (hc : Claimed bench.registry types request.type cast value)
    (hnested : ∀ order ∈ cast.orders bench request value, ∀ e,
      (bench.carryOut order).result = .error e →
        e.Traced plan orders order.place (.map order.input))
    (h : (cast.convert bench request value).result = .error error) :
    error.Traced plan orders request.place value := by
  generalize ht : request.type = type at hc
  cases hc with
  | @map className input hmem hnormal =>
    have h : (convertInstance bench request (.map input)).result = .error error := h
    have ho : (⟨request.place, className, input, request.flags⟩ : Order κ) ∈
        instances.orders bench request (.map input) := by
      show _ ∈ instanceOrders request (.map input)
      unfold instanceOrders
      rw [ht]
      exact List.mem_singleton_self _
    unfold convertInstance at h
    rw [ht] at h
    rcases Build.bind_eq_error.mp h with h | ⟨_, -, h⟩
    · exact hnested _ ho error h
    · cases h
  | @list className declaration elements hmem hnormal hd =>
    have h : (convertCollection bench request (.list elements)).result = .error error := h
    have hfound : request.type.className?.bind bench.registry.collection? = some declaration := by
      rw [ht]
      exact hd
    have ho : collections.orders bench request (.list elements) =
        elements.zipIdx.flatMap (memberOrders request declaration.itemClass) := by
      show collectionOrders bench request (.list elements) = _
      unfold collectionOrders
      rw [hfound]
    unfold convertCollection at h
    rw [hfound] at h
    rcases Build.bind_eq_error.mp h with h | ⟨_, -, h⟩
    · refine Error.traced_of_collect h fun element he e hitem => traced_convertItem he ?_ hitem
      intro order horder
      refine hnested order ?_
      rw [ho]
      exact List.mem_flatMap.mpr ⟨element, he, horder⟩
    · cases h

end Cast

namespace Property

variable {property : Property κ} {site : Site} {flags : Flags} {value : Value κ}

theorem traced_castElement (hn : property.Native bench.registry) {items : List (Value κ)}
    {element : Value κ × Nat} (he : element ∈ items.zipIdx)
    (hnested : ∀ order ∈ property.elementOrders bench site flags element, ∀ e,
      (bench.carryOut order).result = .error e →
        e.Traced plan orders order.place (.map order.input))
    (h : (property.castElement bench site flags element).result = .error error) :
    error.Traced plan orders site.place (.list items) := by
  have hl := Value.leads_of_mem_zipIdx he
  obtain ⟨item, index⟩ := element
  unfold castElement at h
  unfold elementOrders at hnested
  dsimp only at h hnested
  cases hclaim : claim? bench property.elementCasts item with
  | some entry =>
    obtain ⟨type, cast⟩ := entry
    rw [hclaim] at h hnested
    obtain ⟨inner, hinner, rfl⟩ := Build.prefixed_eq_error.mp h
    have hinner := Cast.traced_convert
      (property.request (site.child (.element index)) flags type)
      (hn.elementCasts.claimed hclaim) hnested hinner
    exact hinner.descend (.element index) hl
  | none =>
    rw [hclaim] at h
    dsimp only at h
    split at h
    · cases h
    · cases h
      exact Error.traced_invalidType hl (Step.render_singleton (.element index)).symm rfl rfl

theorem traced_coerce (hn : property.Native bench.registry)
    (hnested : ∀ order ∈ property.coerceOrders bench site flags value, ∀ e,
      (bench.carryOut order).result = .error e →
        e.Traced plan orders order.place (.map order.input))
    (h : (property.coerce bench site flags value).result = .error error) :
    error.Traced plan orders site.place value := by
  rcases coerce_cases bench property site flags value with
    ⟨items, rfl, -, hcoerce, horders⟩ | ⟨-, hcoerce, horders⟩
  · rw [hcoerce] at h
    rw [horders] at hnested
    rcases Build.bind_eq_error.mp h with h | ⟨_, -, h⟩
    · refine Error.traced_of_collect h fun element he e hitem =>
        traced_castElement hn he (fun order ho => ?_) hitem
      exact hnested order (List.mem_flatMap.mpr ⟨element, he, ho⟩)
    · cases h
  · rw [hcoerce] at h
    rw [horders] at hnested
    unfold coerceWhole at h
    unfold wholeOrders at hnested
    cases hclaim : claim? bench property.casts value with
    | some entry =>
      obtain ⟨type, cast⟩ := entry
      rw [hclaim] at h hnested
      exact Cast.traced_convert (property.request site flags type)
        (hn.casts.claimed hclaim) hnested h
    | none =>
      rw [hclaim] at h
      dsimp only at h
      split at h <;> cases h

/-- What is reported of a value that is not accepted is what is known of it as input. -/
theorem invalid_of_coerce (hn : property.Native bench.registry)
    (hname : ∀ order r, (bench.carryOut order).result = .ok r →
      r.className = normalName (normalName order.className))
    (hcollections : ∀ name declaration, bench.registry.collection? name = some declaration →
      declaration.name = normalName name) {coerced : Value κ}
    (h : (property.coerce bench site flags value).result = .ok coerced) {given : Flags}
    (ha : property.accepts given coerced = false) :
    property.invalid coerced = property.invalid value := by
  rcases coerce_cases bench property site flags value with
    ⟨items, rfl, -, hcoerce, -⟩ | ⟨-, hcoerce, -⟩
  · rw [hcoerce] at h
    obtain ⟨items', -, h⟩ := Build.bind_eq_ok.mp h
    cases h
    rfl
  · rw [hcoerce] at h
    rcases coerceWhole_eq_ok hn hname hcollections h with rfl | ⟨hholds, hnull⟩
    · rfl
    · rw [accepts_of_not_isNull hnull, hholds] at ha
      cases ha

end Property

end Conversions

/-! ## Errors of constructions -/

namespace Construction

variable {plan : Plan κ} {orders : List (Nat × Order κ)} {bench : Workbench κ} {m : Metadata κ}
  {site : Site} {flags : Flags} {input : Table (Value κ)} {error : Error}

theorem traced_castEntry (hn : ∀ property ∈ m.properties, property.Native bench.registry)
    (hname : ∀ order r, (bench.carryOut order).result = .ok r →
      r.className = normalName (normalName order.className))
    (hcollections : ∀ name declaration, bench.registry.collection? name = some declaration →
      declaration.name = normalName name) {entry : String × Value κ} (he : entry ∈ input)
    (hnested : ∀ order ∈ entryOrders bench m site flags entry, ∀ e,
      (bench.carryOut order).result = .error e →
        e.Traced plan orders order.place (.map order.input))
    (h : (castEntry bench m site flags entry).result = .error error) :
    error.Traced plan orders site.place (.map input) := by
  unfold castEntry at h
  unfold entryOrders at hnested
  cases hproperty : m.property? entry.1 with
  | none => rw [hproperty] at h; cases h
  | some property =>
    rw [hproperty] at h hnested
    obtain ⟨hmem, hentry⟩ := Metadata.property?_eq_some hproperty
    have hl : (Value.map input).Leads [.property property.name] entry.2 := by
      rw [hentry]
      exact .key he .here
    rcases Build.bind_eq_error.mp h with h | ⟨_, -, h⟩
    · rcases Build.bind_eq_error.mp h with h | ⟨coerced, hcoerced, h⟩
      · obtain ⟨inner, hinner, rfl⟩ := Build.prefixed_eq_error.mp h
        have hinner := Property.traced_coerce (hn property hmem) hnested hinner
        exact hinner.descend (.property property.name) hl
      · split at h
        · cases h
        · next ha =>
          cases h
          rw [Property.invalid_of_coerce (hn property hmem) hname hcollections
            (Build.prefixed_eq_ok.mp hcoerced) (Bool.eq_false_iff.mpr ha)]
          exact Error.traced_invalidType hl (Step.render_singleton (.property property.name)).symm
            rfl rfl
    · cases h

end Construction

/-! ## Classes that can be reached -/

/-- Instances of the class may hold instances of the other class. -/
inductive Plan.Mentions (plan : Plan κ) (className : String) : String → Prop
  | ofClass {m : Metadata κ} {property : Property κ} {name : String} :
    plan.metadata className = .ok m → property ∈ m.properties →
      (.named name, .instances) ∈ property.casts ++ property.elementCasts →
        Mentions plan className name
  | ofCollection {m : Metadata κ} {property : Property κ} {name : String}
    {declaration : CollectionDeclaration} :
    plan.metadata className = .ok m → property ∈ m.properties →
      (.named name, .collections) ∈ property.casts ++ property.elementCasts →
        plan.registry.collection? name = some declaration →
          Mentions plan className declaration.itemClass

/-- Instances of the class may hold instances of the other class, at some depth. -/
def Plan.Reaches (plan : Plan κ) : String → String → Prop := Relation.ReflTransGen plan.Mentions

section Mentions

variable {plan : Plan κ} {bench : Workbench κ} {order nested : Order κ}

/-- A cast orders instances of the class that it is kept for, or of the items of the collection. -/
theorem Cast.mentions_of_mem_orders (hb : bench.registry = plan.registry) {className : String}
    {m : Metadata κ} (hm : plan.metadata className = .ok m) {property : Property κ}
    (hp : property ∈ m.properties) {types : List TypeName} (request : CastRequest) {cast : Cast κ}
    {value : Value κ} (hkept : (request.type, cast) ∈ property.casts ++ property.elementCasts)
    (hc : Claimed bench.registry types request.type cast value)
    (h : order ∈ cast.orders bench request value) : plan.Mentions className order.className := by
  generalize ht : request.type = type at hc hkept
  cases hc with
  | @map name input hmem hnormal =>
    have h : order ∈ instanceOrders request (.map input) := h
    unfold instanceOrders at h
    rw [ht] at h
    cases List.mem_singleton.mp h
    exact .ofClass hm hp hkept
  | @list name declaration elements hmem hnormal hd =>
    have h : order ∈ collectionOrders bench request (.list elements) := h
    unfold collectionOrders at h
    rw [ht, show (TypeName.named name).className?.bind bench.registry.collection? = _ from hd] at h
    obtain ⟨element, -, h⟩ := List.mem_flatMap.mp h
    have hclass : order.className = declaration.itemClass := by
      unfold memberOrders at h
      split at h
      · cases List.mem_singleton.mp h; rfl
      · cases h
    rw [hclass]
    exact .ofCollection hm hp hkept (hb ▸ hd)

theorem Property.mentions_of_mem_orders (hb : bench.registry = plan.registry) {className : String}
    {m : Metadata κ} (hm : plan.metadata className = .ok m) {property : Property κ}
    (hp : property ∈ m.properties) (hn : property.Native bench.registry) {site : Site}
    {flags : Flags} {value : Value κ} (h : order ∈ property.orders bench site flags value) :
    plan.Mentions className order.className := by
  unfold orders at h
  rcases coerce_cases bench property (site.child (.property property.name)) flags.withoutTransient
    value with ⟨items, -, -, -, horders⟩ | ⟨-, -, horders⟩
  · rw [horders] at h
    obtain ⟨⟨item, index⟩, -, h⟩ := List.mem_flatMap.mp h
    unfold elementOrders at h
    dsimp only at h
    split at h
    · next type cast hclaim =>
      have hkept := List.mem_append_right property.casts (List.mem_of_find?_eq_some hclaim)
      exact Cast.mentions_of_mem_orders hb hm hp (property.request _ _ type) hkept
        (hn.elementCasts.claimed hclaim) h
    · cases h
  · rw [horders] at h
    unfold wholeOrders at h
    split at h
    · next type cast hclaim =>
      have hkept := List.mem_append_left property.elementCasts (List.mem_of_find?_eq_some hclaim)
      exact Cast.mentions_of_mem_orders hb hm hp (property.request _ _ type) hkept
        (hn.casts.claimed hclaim) h
    · cases h

/-- A construction orders instances of classes that its own class mentions. -/
theorem Construction.mentions_of_mem_orders (hp : plan.Native) {call levels : Nat}
    (h : nested ∈ orders plan call levels order) :
    plan.Mentions order.className nested.className := by
  unfold orders at h
  split at h
  · cases h
  · next m hm =>
    obtain ⟨entry, -, h⟩ := List.mem_flatMap.mp h
    unfold entryOrders at h
    split at h
    · cases h
    · next property hproperty =>
      have hmem := (Metadata.property?_eq_some hproperty).1
      exact Property.mentions_of_mem_orders rfl hm hmem (hp.properties _ m hm property hmem) h

end Mentions

namespace Construction

variable {plan : Plan κ} {call levels : Nat} {orders : List (Nat × Order κ)} {order : Order κ}
  {m : Metadata κ} {error : Error}

theorem traced_unknownKeys
    (hfound : order.FoundBy plan orders order.place (.map order.input) [] m) :
    (Error.unknownProperties m.name (unknownKeys m order.input)).Traced plan orders order.place
      (.map order.input) := by
  refine ⟨fun _ hf => absurd hf List.not_mem_nil, fun written hw => ?_,
    fun _ hf => absurd hf List.not_mem_nil⟩
  obtain ⟨hk, hd⟩ := List.mem_filter.mp hw
  rw [Bool.not_eq_true'] at hd
  exact ⟨[], order, m, written, hfound, hk, hd, (Step.render_singleton (.property written)).symm⟩

theorem traced_unsettled {bench : Workbench κ} {site : Site}
    (hfound : order.FoundBy plan orders order.place (.map order.input) [] m) (hm : m.names.Nodup)
    {cast : List (Option (String × Value κ))}
    (hcast : CastsTo bench m site order.flags.withoutTransient order.input cast)
    (hcomplete : order.flags.withoutTransient.contains .incomplete = false) :
    (Error.undefinedProperties m.name
      (unsettled m order.flags.withoutTransient (cast.filterMap id))).Traced plan orders order.place
        (.map order.input) := by
  rw [hcast.unsettled_eq_lacking hm hcomplete]
  refine ⟨fun _ hf => absurd hf List.not_mem_nil, fun _ hf => absurd hf List.not_mem_nil,
    fun written hw => ?_⟩
  obtain ⟨property, hmem, rfl, hnot, hdefault⟩ := mem_lacking.mp hw
  exact ⟨[], order, m, property, hfound, hmem, hnot, hdefault,
    (Step.render_singleton (.property property.name)).symm⟩

/-- **All paths in the error of a construction are right**: they lead from its input to what the
error says. -/
theorem traced_of_carryOut (hp : plan.Native) (order : Order κ)
    (hr : ∀ className, plan.Reaches order.className className →
      ∃ m, plan.metadata className = .ok m)
    (h : (carryOut plan call levels order).result = .error error) :
    error.Traced plan (allOrders plan call levels order) order.place (.map order.input) := by
  -- The levels bound the depth; what is nested has one level less.
  induction levels generalizing order error with
  | zero => cases h; exact Error.traced_of_isFatal rfl
  | succ levels ih =>
    obtain ⟨m, hm⟩ := hr order.className .refl
    have hfound : order.FoundBy plan (allOrders plan call (levels + 1) order) order.place
        (.map order.input) [] m :=
      ⟨⟨levels + 1, List.mem_cons_self⟩, (List.append_nil _).symm, .here, hm⟩
    rcases Build.bind_eq_error.mp h with h | ⟨m', hm', h⟩
    · rw [show plan.metadata order.className = .error error from h] at hm
      cases hm
    rw [show plan.metadata order.className = .ok m' from hm'] at hm
    cases hm
    rcases construct_eq_error.mp h with ⟨-, rfl⟩ | ⟨-, h | ⟨cast, hcast, hundefined, rfl⟩⟩
    · exact traced_unknownKeys hfound
    · refine Error.traced_of_collect h fun entry he e hentry => ?_
      refine traced_castEntry (hp.properties _ m hm') (className_of_benchOf hp call levels)
        hp.collections he ?_ hentry
      intro nested hn e hnested
      have hmem : nested ∈ Construction.orders plan call levels order := by
        unfold Construction.orders
        rw [show plan.metadata order.className = .ok m from hm']
        exact List.mem_flatMap.mpr ⟨entry, he, hn⟩
      have hinner := ih nested (fun className hreach => hr className
        (.head (mentions_of_mem_orders hp hmem) hreach)) hnested
      refine hinner.mono fun entry hentry => List.mem_cons_of_mem _ ?_
      exact List.mem_flatMap.mpr ⟨nested, hmem, hentry⟩
    · have hnested := not_isSilent_of_benchOf hp.reported call levels
      exact traced_unsettled hfound (hp.wellFormed _ m hm').distinct
        (castsTo_of_collect
          (fun entry _ e => not_isSilent_of_castEntry (hp.properties _ m hm') hnested) hcast)
        (Bool.eq_false_iff.mpr fun hi => hundefined (.inr hi))

end Construction

/-- **Failure paths are sound.**  Where there are no custom casts and every class that can be
reached resolves, every path in the error of a failed construction leads from the input to what the
error says. -/
theorem Engine.Reachable.failure_paths {engine : Engine κ}
    (hr : Reachable ClassDeclaration.WithoutCasts engine) (hcasts : engine.casts = [])
    {className : String} {input : Table (Value κ)} {flags : Flags} {error : Error}
    (hresolves : ∀ other, engine.plan.Reaches className other →
      ∃ m, engine.metadata other = .ok m)
    (h : (engine.make className input flags).1 = .error error) :
    error.Traced engine.plan (engine.makeOrders className input flags) [] (.map input) :=
  Construction.traced_of_carryOut (hr.native (fun _ hd => hd) hcasts)
    (Construction.outerOrder className input flags) hresolves h

theorem Atlas.of_reaches {other : String} (h : engine.plan.Reaches "Country" other) :
    other = "Country" ∨ other = "City" := by
  have hmentions : ∀ className, className = "Country" ∨ className = "City" →
      ∀ m, engine.metadata className = .ok m → ∀ property ∈ m.properties,
        ∀ entry ∈ property.casts ++ property.elementCasts,
          entry = (.named "City", .instances) ∨ entry = (.named "Ports", .collections) := by
    rintro className (rfl | rfl) m hm <;> cases hm <;> decide +kernel
  induction h with
  | refl => exact .inl rfl
  | tail _ hstep ih =>
    cases hstep with
    | ofClass hm hp hkept =>
      rcases hmentions _ ih _ hm _ hp _ hkept with he | he
      · cases he; exact .inr rfl
      · cases he
    | ofCollection hm hp hkept hd =>
      rcases hmentions _ ih _ hm _ hp _ hkept with he | he
      · cases he
      · cases he
        have hports : engine.plan.registry.collection? "Ports" = some ⟨"Ports", "City"⟩ := by
          decide +kernel
        have hitem := congrArg CollectionDeclaration.itemClass
          (Option.some.inj (hports.symm.trans hd))
        exact .inr hitem.symm

theorem Atlas.muddle_traced : ∃ error, (engine.make "Country" muddle .none).1 = .error error ∧
    error.Traced engine.plan (engine.makeOrders "Country" muddle .none) [] (.map muddle) := by
  have hfails : (engine.make "Country" muddle .none).1.isOk = false := by decide +kernel
  cases herror : (engine.make "Country" muddle .none).1 with
  | ok r => rw [herror] at hfails; cases hfails
  | error error =>
    refine ⟨error, rfl, (reachable ⟨rfl, rfl⟩ ⟨rfl, rfl⟩).failure_paths rfl (fun other h => ?_)
      herror⟩
    rcases of_reaches h with rfl | rfl
    · exact ⟨_, rfl⟩
    · exact ⟨_, rfl⟩

end TypedRecords
