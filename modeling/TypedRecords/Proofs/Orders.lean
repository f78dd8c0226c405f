import TypedRecords.Construction.Make
import TypedRecords.Proofs.Collecting

/-!
# Orders

While a value is converted, nested instances are made.  An `Order` says which: for what place, of
what class, from what input, under what flags.  This file lists the orders of a conversion, in the
order in which they are carried out; those that a fatal error keeps from being carried out are
listed too.

* `Property.orders`, `Construction.orders`: the orders of a conversion and of a construction.
* `Construction.allOrders`: a construction with all that is nested in it, each order with the number
  of levels that are left for it.
* `Property.flags_of_mem_orders`: **every order is under the flags of the conversion**, transient
  ones removed, and `Construction.flags_of_mem_allOrders`: so all the way down.
* `Property.mem_consulted`: whatever metadata a conversion consults, one of its orders consults.
-/

namespace TypedRecords

variable {κ : Type}

/-- A nested instance that is to be made. -/
structure Order (κ : Type) where
  place : List Step
  className : String
  input : List (String × Value κ)
  flags : Flags

/-- Carries out an order. -/
def WorkbenchIn.carryOut {m : Type → Type} (bench : WorkbenchIn m κ) (order : Order κ) :
    m (Instance κ) :=
  bench.nested order.place order.className order.input order.flags

namespace Cast

/-! ## The orders of a cast -/

/-- What the cast for instances orders. -/
def instanceOrders (request : CastRequest) (value : Value κ) : List (Order κ) :=
  match request.type.className?, value with
  | some className, .map input => [⟨request.place, className, input, request.flags⟩]
  | _, _ => []

/-- What is ordered for an element of a list that becomes a collection. -/
def memberOrders (request : CastRequest) (itemClass : String) : Value κ × Nat → List (Order κ)
  | (.map input, index) =>
    [⟨(request.child (.element index)).place, itemClass, input, request.flags⟩]
  | _ => []

/-- What the cast for collections orders. -/
def collectionOrders (bench : Workbench κ) (request : CastRequest) (value : Value κ) :
    List (Order κ) :=
  match request.type.className?.bind bench.registry.collection?, value with
  | some declaration, .list elements =>
    elements.zipIdx.flatMap (memberOrders request declaration.itemClass)
  | _, _ => []

/-- What the program of a custom cast orders. -/
def programOrders (bench : Workbench κ) (request : CastRequest) :
    Nat → CastProgram κ → List (Order κ)
  | _, .done _ => []
  | count, .make className input next =>
    let order : Order κ := ⟨(request.child (.made count)).place, className, input, request.flags⟩
    order :: programOrders bench request (count + 1) (next (bench.carryOut order).result)
  | count, .castInstance value next =>
    let part := request.child (.made count)
    instanceOrders part value ++
      programOrders bench request (count + 1) (next (convertInstance bench part value).result)
  | count, .castCollection value next =>
    let part := request.child (.made count)
    collectionOrders bench part value ++
      programOrders bench request (count + 1) (next (convertCollection bench part value).result)

/-- What a cast orders for a value that it has claimed. -/
def orders (bench : Workbench κ) (request : CastRequest) (value : Value κ) :
    Cast κ → List (Order κ)
  | instances => instanceOrders request value
  | collections => collectionOrders bench request value
  | custom handle =>
    programOrders bench request 0 ((bench.casting handle).convert request value)

end Cast

namespace Property

/-! ## The orders of a property -/

/-- What is ordered for an item of a list that is coerced item by item. -/
def elementOrders (bench : Workbench κ) (property : Property κ) (site : Site) (flags : Flags) :
    Value κ × Nat → List (Order κ)
  | (item, index) =>
    match claim? bench property.elementCasts item with
    | some (type, cast) =>
      cast.orders bench (property.request (site.child (.element index)) flags type) item
    | none => []

/-- What is ordered for a value that is coerced as a whole. -/
def wholeOrders (bench : Workbench κ) (property : Property κ) (site : Site) (flags : Flags)
    (value : Value κ) : List (Order κ) :=
  match claim? bench property.casts value with
  | some (type, cast) => cast.orders bench (property.request site flags type) value
  | none => []

/-- What is ordered for the coercion of a value. -/
def coerceOrders (bench : Workbench κ) (property : Property κ) (site : Site) (flags : Flags)
    (value : Value κ) : List (Order κ) :=
  match value with
  | .list items =>
    if property.castsElements bench items then
      items.zipIdx.flatMap (property.elementOrders bench site flags)
    else property.wholeOrders bench site flags value
  | _ => property.wholeOrders bench site flags value

/-- What is ordered for a value that is given for the property. -/
def orders (bench : Workbench κ) (property : Property κ) (site : Site) (flags : Flags)
    (value : Value κ) : List (Order κ) :=
  property.coerceOrders bench (site.child (.property property.name)) flags.withoutTransient value

end Property

namespace Construction

/-! ## The orders of a construction -/

/-- What is ordered for an entry of the input. -/
def entryOrders (bench : Workbench κ) (metadata : Metadata κ) (site : Site) (flags : Flags)
    (entry : String × Value κ) : List (Order κ) :=
  match metadata.property? entry.1 with
  | none => []
  | some property => property.orders bench site flags entry.2

/-- What the parts of a construction of the given levels may rely on. -/
def benchOf (plan : Plan κ) (call levels : Nat) : Workbench κ :=
  ⟨plan.casting, plan.registry, makeWithin plan call levels⟩

/-- Where a construction with the given levels below it takes place. -/
def siteOf (plan : Plan κ) (call levels : Nat) (place : List Step) : Site :=
  ⟨plan.maxDepth - levels, call, place⟩

/-- What is ordered directly by a construction, with the given levels below it. -/
def orders (plan : Plan κ) (call levels : Nat) (order : Order κ) : List (Order κ) :=
  match plan.metadata order.className with
  | .error _ => []
  | .ok metadata =>
    order.input.flatMap (entryOrders (benchOf plan call levels) metadata
      (siteOf plan call levels order.place) order.flags.withoutTransient)

/-- Carries out an order within the given number of levels. -/
def carryOut (plan : Plan κ) (call levels : Nat) (order : Order κ) : Build κ (Instance κ) :=
  makeWithin plan call levels order.place order.className order.input order.flags

/-- An order with all orders nested in it, each with the levels that are left for it. -/
def allOrders (plan : Plan κ) (call : Nat) : Nat → Order κ → List (Nat × Order κ)
  | 0, order => [(0, order)]
  | levels + 1, order =>
    (levels + 1, order) :: (orders plan call levels order).flatMap (allOrders plan call levels)

/-- Making an instance, as an order. -/
def outerOrder (className : String) (input : Table (Value κ)) (flags : Flags) : Order κ :=
  ⟨[], className, input, flags⟩

end Construction

/-! ## Flags -/

theorem Cast.flags_of_mem_instanceOrders {request : CastRequest} {value : Value κ} {order : Order κ}
    (h : order ∈ instanceOrders request value) : order.flags = request.flags := by
  unfold instanceOrders at h
  split at h
  · rw [List.mem_singleton.mp h]
  · cases h

theorem Cast.flags_of_mem_collectionOrders {bench : Workbench κ} {request : CastRequest}
    {value : Value κ} {order : Order κ} (h : order ∈ collectionOrders bench request value) :
    order.flags = request.flags := by
  unfold collectionOrders at h
  split at h
  · obtain ⟨element, -, h⟩ := List.mem_flatMap.mp h
    unfold memberOrders at h
    split at h
    · rw [List.mem_singleton.mp h]
    · cases h
  · cases h

theorem Cast.flags_of_mem_programOrders {bench : Workbench κ} {request : CastRequest}
    {program : CastProgram κ} {count : Nat} {order : Order κ}
    (h : order ∈ programOrders bench request count program) : order.flags = request.flags := by
  induction program generalizing count with
  | done result => cases h
  | make className input next ih =>
    rcases List.mem_cons.mp h with rfl | h
    · rfl
    · exact ih _ h
  | castInstance value next ih =>
    rcases List.mem_append.mp h with h | h
    · have hf := flags_of_mem_instanceOrders h
      exact hf
    · exact ih _ h
  | castCollection value next ih =>
    rcases List.mem_append.mp h with h | h
    · have hf := flags_of_mem_collectionOrders h
      exact hf
    · exact ih _ h

theorem Cast.flags_of_mem_orders {bench : Workbench κ} {request : CastRequest} {value : Value κ}
    {cast : Cast κ} {order : Order κ} (h : order ∈ cast.orders bench request value) :
    order.flags = request.flags := by
  cases cast with
  | instances => exact flags_of_mem_instanceOrders h
  | collections => exact flags_of_mem_collectionOrders h
  | custom handle => exact flags_of_mem_programOrders h

theorem Property.flags_of_mem_wholeOrders {bench : Workbench κ} {property : Property κ}
    {site : Site} {flags : Flags} {value : Value κ} {order : Order κ}
    (h : order ∈ property.wholeOrders bench site flags value) : order.flags = flags := by
  unfold wholeOrders at h
  split at h
  · exact Cast.flags_of_mem_orders h
  · cases h

theorem Property.flags_of_mem_elementOrders {bench : Workbench κ} {property : Property κ}
    {site : Site} {flags : Flags} {element : Value κ × Nat} {order : Order κ}
    (h : order ∈ property.elementOrders bench site flags element) : order.flags = flags := by
  obtain ⟨item, index⟩ := element
  unfold elementOrders at h
  dsimp only at h
  split at h
  · have hf := Cast.flags_of_mem_orders h
    exact hf
  · cases h

/-- **Every order is under the flags of the conversion**, transient ones removed. -/
theorem Property.flags_of_mem_orders {bench : Workbench κ} {property : Property κ} {site : Site}
    {flags : Flags} {value : Value κ} {order : Order κ}
    (h : order ∈ property.orders bench site flags value) :
    order.flags = flags.withoutTransient := by
  unfold orders coerceOrders at h
  split at h
  · split at h
    · obtain ⟨element, -, h⟩ := List.mem_flatMap.mp h
      exact flags_of_mem_elementOrders h
    · exact flags_of_mem_wholeOrders h
  · exact flags_of_mem_wholeOrders h

namespace Construction

theorem flags_of_mem_orders {plan : Plan κ} {call levels : Nat} {order nested : Order κ}
    (h : nested ∈ orders plan call levels order) : nested.flags = order.flags.withoutTransient := by
  unfold orders at h
  split at h
  · cases h
  · obtain ⟨entry, -, h⟩ := List.mem_flatMap.mp h
    unfold entryOrders at h
    split at h
    · cases h
    · rw [Property.flags_of_mem_orders h, Flags.withoutTransient_idem]

theorem flags_of_mem_allOrders {plan : Plan κ} {call levels : Nat} {order : Order κ}
    {entry : Nat × Order κ} (h : entry ∈ allOrders plan call levels order) :
    entry.2.flags.withoutTransient = order.flags.withoutTransient := by
  induction levels generalizing order with
  | zero => rw [List.mem_singleton.mp h]
  | succ levels ih =>
    rcases List.mem_cons.mp h with rfl | h
    · rfl
    · obtain ⟨nested, hn, h⟩ := List.mem_flatMap.mp h
      rw [ih h, flags_of_mem_orders hn, Flags.withoutTransient_idem]

end Construction

/-! ## Notes -/

namespace Cast

variable {bench : Workbench κ} {request : CastRequest} {value : Value κ} {m : Metadata κ}

theorem mem_consulted_convertInstance
    (h : m ∈ (convertInstance bench request value).consulted) :
    ∃ order ∈ instanceOrders request value, m ∈ (bench.carryOut order).consulted := by
  unfold convertInstance at h
  split at h
  · cases h
  · next className hc =>
    unfold instanceOrders
    rw [hc]
    cases value with
    | map input =>
      rcases Build.mem_consulted_bind h with h | ⟨_, -, h⟩
      · exact ⟨_, List.mem_singleton_self _, h⟩
      · cases h
    | _ => cases h

theorem mem_consulted_convertItem {itemClass : String} {element : Value κ × Nat}
    (h : m ∈ (convertItem bench request itemClass element).consulted) :
    ∃ order ∈ memberOrders request itemClass element, m ∈ (bench.carryOut order).consulted := by
  obtain ⟨item, index⟩ := element
  unfold convertItem at h
  split at h
  · next input index' he =>
    cases he
    rcases Build.mem_consulted_bind h with h | ⟨_, -, h⟩
    · exact ⟨_, List.mem_singleton_self _, h⟩
    · cases h
  · split at h <;> cases h
  · cases h

theorem mem_consulted_convertCollection
    (h : m ∈ (convertCollection bench request value).consulted) :
    ∃ order ∈ collectionOrders bench request value, m ∈ (bench.carryOut order).consulted := by
  unfold convertCollection at h
  split at h
  · cases h
  · next declaration hd =>
    unfold collectionOrders
    rw [hd]
    cases value with
    | list elements =>
      rcases Build.mem_consulted_bind h with h | ⟨_, -, h⟩
      · obtain ⟨element, he, h⟩ := Build.mem_consulted_collectWith h
        obtain ⟨order, ho, h⟩ := mem_consulted_convertItem h
        exact ⟨order, List.mem_flatMap.mpr ⟨element, he, ho⟩, h⟩
      · cases h
    | _ => cases h

theorem mem_consulted_runProgram {program : CastProgram κ} {count : Nat}
    (h : m ∈ (runProgram bench request count program).consulted) :
    ∃ order ∈ programOrders bench request count program,
      m ∈ (bench.carryOut order).consulted := by
  induction program generalizing count with
  | done result => cases h
  | make className input next ih =>
    rcases Build.mem_consulted_bind h with h | ⟨made, hm, h⟩
    · exact ⟨_, List.mem_cons_self, h⟩
    · cases hm
      obtain ⟨order, ho, h⟩ := ih _ h
      exact ⟨order, List.mem_cons_of_mem _ ho, h⟩
  | castInstance value next ih =>
    rcases Build.mem_consulted_bind h with h | ⟨made, hm, h⟩
    · obtain ⟨order, ho, h⟩ := mem_consulted_convertInstance h
      exact ⟨order, List.mem_append_left _ ho, h⟩
    · cases hm
      obtain ⟨order, ho, h⟩ := ih _ h
      exact ⟨order, List.mem_append_right _ ho, h⟩
  | castCollection value next ih =>
    rcases Build.mem_consulted_bind h with h | ⟨made, hm, h⟩
    · obtain ⟨order, ho, h⟩ := mem_consulted_convertCollection h
      exact ⟨order, List.mem_append_left _ ho, h⟩
    · cases hm
      obtain ⟨order, ho, h⟩ := ih _ h
      exact ⟨order, List.mem_append_right _ ho, h⟩

theorem mem_consulted_convert {cast : Cast κ}
    (h : m ∈ (cast.convert bench request value).consulted) :
    ∃ order ∈ cast.orders bench request value, m ∈ (bench.carryOut order).consulted := by
  cases cast with
  | instances => exact mem_consulted_convertInstance h
  | collections => exact mem_consulted_convertCollection h
  | custom handle => exact mem_consulted_runProgram h

end Cast

namespace Property

variable {bench : Workbench κ} {property : Property κ} {site : Site} {flags : Flags}
  {value : Value κ} {m : Metadata κ}

theorem mem_consulted_castElement {element : Value κ × Nat}
    (h : m ∈ (property.castElement bench site flags element).consulted) :
    ∃ order ∈ property.elementOrders bench site flags element,
      m ∈ (bench.carryOut order).consulted := by
  obtain ⟨item, index⟩ := element
  unfold castElement at h
  dsimp only at h
  split at h
  · next type cast hc =>
    unfold elementOrders
    dsimp only
    rw [hc]
    exact Cast.mem_consulted_convert h
  · split at h <;> cases h

theorem mem_consulted_coerceWhole
    (h : m ∈ (property.coerceWhole bench site flags value).consulted) :
    ∃ order ∈ property.wholeOrders bench site flags value,
      m ∈ (bench.carryOut order).consulted := by
  unfold coerceWhole at h
  split at h
  · next type cast hc =>
    unfold wholeOrders
    rw [hc]
    exact Cast.mem_consulted_convert h
  · split at h <;> cases h

theorem mem_consulted_coerce (h : m ∈ (property.coerce bench site flags value).consulted) :
    ∃ order ∈ property.coerceOrders bench site flags value,
      m ∈ (bench.carryOut order).consulted := by
  cases value with
  | list items =>
    unfold coerce at h
    unfold coerceOrders
    dsimp only at h ⊢
    split at h
    · next hc =>
      rw [if_pos hc]
      rcases Build.mem_consulted_bind h with h | ⟨_, -, h⟩
      · obtain ⟨element, he, h⟩ := Build.mem_consulted_collectWith h
        obtain ⟨order, ho, h⟩ := mem_consulted_castElement h
        exact ⟨order, List.mem_flatMap.mpr ⟨element, he, ho⟩, h⟩
      · cases h
    · next hc =>
      rw [if_neg hc]
      exact mem_consulted_coerceWhole h
  | _ => exact mem_consulted_coerceWhole h

/-- **Whatever a conversion consults**, one of its orders does. -/
theorem mem_consulted (h : m ∈ (property.castValue bench site flags value).consulted) :
    ∃ order ∈ property.orders bench site flags value, m ∈ (bench.carryOut order).consulted := by
  rcases Build.mem_consulted_bind h with h | ⟨_, -, h⟩
  · exact mem_consulted_coerce h
  · split at h <;> cases h

end Property

namespace Construction

theorem mem_consulted_castEntry {bench : Workbench κ} {metadata m : Metadata κ} {site : Site}
    {flags : Flags} {entry : String × Value κ}
    (h : m ∈ (castEntry bench metadata site flags entry).consulted) :
    ∃ order ∈ entryOrders bench metadata site flags entry,
      m ∈ (bench.carryOut order).consulted := by
  unfold castEntry at h
  split at h
  · cases h
  · next property hp =>
    unfold entryOrders
    rw [hp]
    rcases Build.mem_consulted_bind h with h | ⟨_, -, h⟩
    · exact Property.mem_consulted h
    · cases h

theorem mem_consulted_construct {bench : Workbench κ} {metadata m : Metadata κ} {site : Site}
    {flags : Flags} {input : Table (Value κ)}
    (h : m ∈ (construct bench metadata site input flags).consulted) :
    ∃ order ∈ input.flatMap (entryOrders bench metadata site flags),
      m ∈ (bench.carryOut order).consulted := by
  unfold construct at h
  dsimp only at h
  split at h
  · cases h
  · rcases Build.mem_consulted_bind h with h | ⟨_, -, h⟩
    · obtain ⟨entry, he, h⟩ := Build.mem_consulted_collectWith h
      obtain ⟨order, ho, h⟩ := mem_consulted_castEntry h
      exact ⟨order, List.mem_flatMap.mpr ⟨entry, he, ho⟩, h⟩
    · split at h <;> cases h

/-- All metadata that a construction consults is what the plan gives for the class of an order. -/
theorem mem_consulted_makeWithin {plan : Plan κ} {call levels : Nat} (order : Order κ)
    {m : Metadata κ} (h : m ∈ (carryOut plan call levels order).consulted) :
    ∃ entry ∈ allOrders plan call levels order, plan.metadata entry.2.className = .ok m := by
  induction levels generalizing order with
  | zero => cases h
  | succ levels ih =>
    rcases Build.mem_consulted_bind h with h | ⟨metadata, hm, h⟩
    · refine ⟨_, List.mem_cons_self, ?_⟩
      have h : m ∈ (Build.consult (plan.metadata order.className)).consulted := h
      unfold Build.consult at h
      cases hm : plan.metadata order.className with
      | error error => rw [hm] at h; cases h
      | ok metadata => rw [hm] at h; rw [List.mem_singleton.mp h]
    · obtain ⟨nested, hn, h⟩ := mem_consulted_construct h
      obtain ⟨entry, he, hentry⟩ := ih nested h
      refine ⟨entry, List.mem_cons_of_mem _ (List.mem_flatMap.mpr ⟨nested, ?_, he⟩), hentry⟩
      unfold orders
      rw [show plan.metadata order.className = .ok metadata from hm]
      exact hn

end Construction

end TypedRecords
