import Mathlib.Logic.Relation
import TypedRecords.Proofs.PlainData
import TypedRecords.Proofs.Usage

/-!
# Filling in defaults

The data of an instance with defaults is to be the data of the instance that has its undefined
properties given their defaults, and so have all instances in it.  `Instance.filled` is that
instance.  There is one place where the two differ: a collection that no kept cast takes back has
the data form of an object, which fills in nothing.

* `Value.filled`, `Instance.filled`: all that can be reached is filled in.
* `Node.Leads`: how data is made, step by step.  `Node.size_lt_of_leads`: it goes down.
* `Casting.Heeds`: custom casts that take a value back with defaults as they take back the value
  filled in.
* `Instance.data_filled`: **defaults reach every instance, unless a collection that is left to its
  own data form has something to fill in.**
-/

namespace TypedRecords

variable {κ : Type}

/-! ## Filling in -/

mutual

/-- The value with all instances in it filled in. -/
def Value.filled : Value κ → Value κ
  | .null => .null
  | .bool b => .bool b
  | .int n => .int n
  | .float x => .float x
  | .text s => .text s
  | .list items => .list (Value.filledItems items)
  | .map entries => .map (Value.filledEntries entries)
  | .record origin r => .record origin r.filled
  | .object origin o => .object origin o.filled

def Value.filledItems : List (Value κ) → List (Value κ)
  | [] => []
  | item :: rest => item.filled :: Value.filledItems rest

def Value.filledEntries : List (String × Value κ) → List (String × Value κ)
  | [] => []
  | (key, value) :: rest => (key, value.filled) :: Value.filledEntries rest

/-- The instance with its undefined properties given their defaults under its own flags, and all
instances in its properties filled in. -/
def Instance.filled : Instance κ → Instance κ
  | ⟨metadata, stored, tracked, flags⟩ =>
    ⟨metadata, metadata.filledTable flags (Value.filledEntries stored), tracked, flags⟩

/-- The properties that are stored or have a default, in order. -/
def Metadata.filledTable (flags : Flags) (stored : List (String × Value κ)) :
    Metadata κ → List (String × Value κ)
  | ⟨_, _, _, _, properties⟩ => Property.filledAll flags stored properties

def Property.filledAll (flags : Flags) (stored : List (String × Value κ)) :
    List (Property κ) → List (String × Value κ)
  | [] => []
  | property :: rest =>
    match property.filled? flags stored with
    | none => Property.filledAll flags stored rest
    | some value => (property.name, value) :: Property.filledAll flags stored rest

/-- What is stored, or else the default filled in. -/
def Property.filled? (flags : Flags) (stored : List (String × Value κ)) :
    Property κ → Option (Value κ)
  | ⟨owner, name, union, casts, elementCasts, default⟩ =>
    match Table.get? stored name with
    | some value => some value
    | none =>
      match Value.filledDefault default with
      | some value => some value
      | none =>
        Property.implicitDefault? ⟨owner, name, union, casts, elementCasts, none⟩ flags

def Value.filledDefault : Option (Value κ) → Option (Value κ)
  | none => none
  | some value => some value.filled

/-- A collection with its members filled in; any other object as it is. -/
def Object.filled : Object κ → Object κ
  | .sealed typeName inner => .sealed typeName inner
  | .wrapper typeName aliases data inner => .wrapper typeName aliases data inner
  | .collection name itemClass items => .collection name itemClass (Instance.filledMembers items)

def Instance.filledMembers : List (Origin × Instance κ) → List (Origin × Instance κ)
  | [] => []
  | (origin, item) :: rest => (origin, item.filled) :: Instance.filledMembers rest

end

theorem Value.filledItems_eq (items : List (Value κ)) :
    Value.filledItems items = items.map Value.filled := by
  induction items with
  | nil => rfl
  | cons item rest ih => rw [Value.filledItems, ih, List.map_cons]

theorem Value.filledEntries_eq (entries : List (String × Value κ)) :
    Value.filledEntries entries = entries.map fun entry => (entry.1, entry.2.filled) := by
  induction entries with
  | nil => rfl
  | cons entry rest ih => rw [Value.filledEntries, ih, List.map_cons]

theorem Instance.filledMembers_eq (items : List (Origin × Instance κ)) :
    Instance.filledMembers items = items.map fun item => (item.1, item.2.filled) := by
  induction items with
  | nil => rfl
  | cons item rest ih => rw [Instance.filledMembers, ih, List.map_cons]

theorem Value.get?_filledEntries (entries : List (String × Value κ)) (name : String) :
    Table.get? (Value.filledEntries entries) name =
      (Table.get? entries name).map Value.filled := by
  induction entries with
  | nil => rfl
  | cons entry rest ih =>
    obtain ⟨key, value⟩ := entry
    rw [Value.filledEntries, Table.get?_cons, Table.get?_cons, ih]
    split <;> rfl

theorem Property.filled_of_implicitDefault? {property : Property κ} {flags : Flags}
    {value : Value κ} (h : property.implicitDefault? flags = some value) : value.filled = value := by
  unfold implicitDefault? at h
  split at h
  · cases h; rfl
  · split at h
    · cases h; rfl
    · split at h
      · cases h; rfl
      · cases h

theorem Property.filled?_eq (flags : Flags) (stored : List (String × Value κ))
    (property : Property κ) : property.filled? flags (Value.filledEntries stored) =
      ((Table.get? stored property.name).or (property.default? flags)).map Value.filled := by
  obtain ⟨owner, name, union, casts, elementCasts, default⟩ := property
  rw [Property.filled?, Value.get?_filledEntries]
  cases Table.get? stored name with
  | some value => rfl
  | none =>
    cases default with
    | some value => rfl
    | none =>
      let property : Property κ := ⟨owner, name, union, casts, elementCasts, none⟩
      change property.implicitDefault? flags = (property.implicitDefault? flags).map Value.filled
      cases hi : property.implicitDefault? flags with
      | none => rfl
      | some value => rw [Option.map_some, Property.filled_of_implicitDefault? hi]

/-- **What an instance holds when it is filled in**: what was stored, or else the defaults, each
filled in. -/
theorem Instance.filled_eq (record : Instance κ) : record.filled =
    { record with stored := record.metadata.tableOf fun property =>
        ((record.stored? property.name).or (property.default? record.flags)).map Value.filled } := by
  obtain ⟨⟨key, generation, name, lineage, properties⟩, stored, tracked, flags⟩ := record
  rw [Instance.filled, Metadata.filledTable]
  unfold Metadata.tableOf
  dsimp only [Instance.stored?]
  congr 1
  induction properties with
  | nil => rfl
  | cons property rest ih =>
    rw [Property.filledAll, Property.filled?_eq, ih]
    cases hv : (Table.get? stored property.name).or (property.default? flags) with
    | none => rw [List.filterMap_cons_none (by rw [hv]; rfl)]; rfl
    | some value =>
      rw [List.filterMap_cons_some (b := (property.name, value.filled)) (by rw [hv]; rfl)]
      rfl

/-! ## How data is made -/

/-- What data is made of: an instance, or a value that is to be taken back by the casts that are
given, under the flags of the instance that holds it. -/
inductive Node (κ : Type) where
  | record (r : Instance κ)
  | value (flags : Flags) (casts : List (TypeName × Cast κ)) (v : Value κ)

namespace Node

/-- What the data of a node is made of.  An implicit default is data already. -/
def parts (casting : Casting κ) : Node κ → List (Node κ)
  | record r => r.metadata.properties.flatMap fun property =>
    match (r.stored? property.name).or property.default with
    | none => []
    | some (.list items) => items.map (value r.flags property.elementCasts)
    | some v => [value r.flags property.casts v]
  | value flags _ (.list items) => items.map (value flags [])
  | value flags _ (.map entries) => entries.map fun entry => value flags [] entry.2
  | value _ _ (.record _ r) => [record r]
  | value flags casts (.object origin (.collection name itemClass items)) =>
    match Cast.restoreFirst casting (.object origin (.collection name itemClass items))
        ⟨flags, true⟩ casts with
    | .members => items.map fun item => record item.2
    | _ => []
  | value .. => []

/-- The data of the first is made of that of the second. -/
def Leads (casting : Casting κ) (node next : Node κ) : Prop :=
  next ∈ node.parts casting

theorem leads_record {casting : Casting κ} {r : Instance κ} {next : Node κ} :
    (record r).Leads casting next ↔ ∃ property ∈ r.metadata.properties, ∃ v,
      (r.stored? property.name).or property.default = some v ∧
        ((∃ items item, v = .list items ∧ item ∈ items ∧
            next = value r.flags property.elementCasts item) ∨
          v.isList = false ∧ next = value r.flags property.casts v) := by
  unfold Leads parts
  rw [List.mem_flatMap]
  refine exists_congr fun property => and_congr_right fun _ => ?_
  cases (r.stored? property.name).or property.default with
  | none => exact iff_of_false nofun nofun
  | some v =>
    cases v with
    | list items =>
      rw [List.mem_map]
      constructor
      · rintro ⟨item, hi, rfl⟩
        exact ⟨_, rfl, .inl ⟨items, item, rfl, hi, rfl⟩⟩
      · rintro ⟨_, hv, ⟨items, item, rfl, hi, rfl⟩ | ⟨hlist, -⟩⟩
        · cases hv
          exact ⟨item, hi, rfl⟩
        · cases hv
          cases hlist
    | _ =>
      rw [List.mem_singleton]
      constructor
      · rintro rfl
        exact ⟨_, rfl, .inr ⟨rfl, rfl⟩⟩
      · rintro ⟨_, hv, ⟨_, _, rfl, -, -⟩ | ⟨-, rfl⟩⟩
        · cases hv
        · cases hv
          rfl

theorem leads_collection {casting : Casting κ} {flags : Flags} {casts : List (TypeName × Cast κ)}
    {origin : Origin} {name itemClass : String} {items : List (Origin × Instance κ)}
    {next : Node κ} :
    (value flags casts (.object origin (.collection name itemClass items))).Leads casting next ↔
      Cast.restoreFirst casting (.object origin (.collection name itemClass items)) ⟨flags, true⟩
          casts = .members ∧ ∃ item ∈ items, next = record item.2 := by
  change next ∈ (match Cast.restoreFirst casting (.object origin (.collection name itemClass items))
      ⟨flags, true⟩ casts with
    | .members => items.map fun item : Origin × Instance κ => record item.2
    | _ => []) ↔ _
  cases Cast.restoreFirst casting (.object origin (.collection name itemClass items)) ⟨flags, true⟩
    casts with
  | members =>
    rw [List.mem_map, and_iff_right rfl]
    exact exists_congr fun item => and_congr_right fun _ => eq_comm
  | _ => exact iff_of_false nofun nofun

/-- How much there is of which data is made. -/
noncomputable def size : Node κ → Nat
  | record r => sizeOf r
  | value _ _ v => sizeOf v

theorem size_lt_of_shown {r : Instance κ} {property : Property κ} {v : Value κ}
    (hp : property ∈ r.metadata.properties)
    (hv : (r.stored? property.name).or property.default = some v) : sizeOf v < sizeOf r := by
  obtain ⟨⟨key, generation, name, lineage, properties⟩, stored, tracked, flags⟩ := r
  rw [Instance.mk.sizeOf_spec, Metadata.mk.sizeOf_spec]
  dsimp only [Instance.stored?] at hp hv
  cases hget : Table.get? stored property.name with
  | some w =>
    rw [hget] at hv
    cases hv
    have hmem := sizeOf_snd_lt_of_mem (Table.mem_of_get? hget)
    dsimp only at hmem
    omega
  | none =>
    rw [hget] at hv
    have hmem := List.sizeOf_lt_of_mem hp
    obtain ⟨owner, name, union, casts, elementCasts, default⟩ := property
    cases hv
    rw [Property.mk.sizeOf_spec, Option.some.sizeOf_spec] at hmem
    omega

/-- **Making data goes down.** -/
theorem size_lt_of_leads {casting : Casting κ} {node next : Node κ} (h : node.Leads casting next) :
    next.size < node.size := by
  cases node with
  | record r =>
    obtain ⟨property, hp, v, hv, ⟨items, item, rfl, hi, rfl⟩ | ⟨-, rfl⟩⟩ := leads_record.mp h
    · exact (Value.sizeOf_lt_of_mem_list hi).trans (size_lt_of_shown hp hv)
    · exact size_lt_of_shown hp hv
  | value flags casts v =>
    cases v with
    | list items =>
      obtain ⟨item, hi, rfl⟩ := List.mem_map.mp h
      exact Value.sizeOf_lt_of_mem_list hi
    | map entries =>
      obtain ⟨entry, hi, rfl⟩ := List.mem_map.mp h
      exact Value.sizeOf_lt_of_mem_map hi
    | record origin r =>
      obtain rfl := List.mem_singleton.mp h
      exact Value.sizeOf_lt_record origin r
    | object origin o =>
      cases o with
      | collection name itemClass items =>
        obtain ⟨-, item, hi, rfl⟩ := leads_collection.mp h
        exact (Value.sizeOf_lt_record item.1 item.2).trans
          (Value.sizeOf_record_lt_of_mem_collection origin hi)
      | _ => cases h
    | _ => cases h

/-- Nodes of which the data is made of each other only are all that one of them reaches. -/
theorem mem_of_reaches {casting : Casting κ} {node other : Node κ} {nodes : List (Node κ)}
    (hn : node ∈ nodes) (hclosed : nodes.flatMap (parts casting) ⊆ nodes)
    (h : Relation.ReflTransGen (Leads casting) node other) : other ∈ nodes := by
  induction h with
  | refl => exact hn
  | tail _ hleads ih => exact hclosed (List.mem_flatMap.mpr ⟨_, ih, hleads⟩)

end Node

/-! ## Data with defaults, and data of what has been filled in -/

/-- Custom casts take a value back with defaults as they take back the value filled in. -/
def Casting.Heeds (casting : Casting κ) : Prop :=
  ∀ (handle : κ) (value : Value κ) (flags : Flags),
    (casting handle).restore value ⟨flags, true⟩ =
      (casting handle).restore value.filled ⟨flags, false⟩

section Agreement

variable {casting : Casting κ} {flags : Flags} {casts : List (TypeName × Cast κ)}

theorem Cast.restore_filled (h : casting.Heeds) (cast : Cast κ) (value : Value κ) :
    cast.restore casting value ⟨flags, true⟩ = cast.restore casting value.filled ⟨flags, false⟩ := by
  cases cast with
  | instances => cases value <;> rfl
  | collections =>
    cases value with
    | object origin o => cases o <;> rfl
    | _ => rfl
  | custom handle => exact h handle value flags

theorem Cast.restoreFirst_filled (h : casting.Heeds) (value : Value κ) :
    Cast.restoreFirst casting value ⟨flags, true⟩ casts =
      Cast.restoreFirst casting value.filled ⟨flags, false⟩ casts := by
  induction casts with
  | nil => rfl
  | cons entry rest ih =>
    obtain ⟨type, cast⟩ := entry
    rw [Cast.restoreFirst, Cast.restoreFirst, Cast.restore_filled h, ih]

namespace Value

theorem plain_eq_restore (request : DataRequest) (value : Value κ) :
    value.plain casting request.withDefaults = value.restore casting request [] := by
  cases value <;> rw [plain, restore] <;> rfl

theorem plainItems_eq_restoreItems (request : DataRequest) (items : List (Value κ)) (index : Nat) :
    plainItems casting request.withDefaults index items =
      restoreItems casting request [] index items := by
  induction items generalizing index with
  | nil => rfl
  | cons item rest ih => rw [plainItems, restoreItems, plain_eq_restore, ih]

theorem restoreItems_congr {request request' : DataRequest} {items : List (Value κ)}
    {change : Value κ → Value κ} (h : ∀ item ∈ items,
      item.restore casting request casts = (change item).restore casting request' casts)
    (index : Nat) : restoreItems casting request casts index items =
      restoreItems casting request' casts index (items.map change) := by
  induction items generalizing index with
  | nil => rfl
  | cons item rest ih =>
    rw [List.map_cons, restoreItems, restoreItems, h item List.mem_cons_self,
      ih fun other ho => h other (List.mem_cons_of_mem _ ho)]

theorem plainEntries_congr {withDefaults withDefaults' : Bool} {entries : List (String × Value κ)}
    {change : Value κ → Value κ} (h : ∀ entry ∈ entries,
      entry.2.plain casting withDefaults = (change entry.2).plain casting withDefaults') :
    plainEntries casting withDefaults entries =
      plainEntries casting withDefaults' (entries.map fun entry => (entry.1, change entry.2)) := by
  induction entries with
  | nil => rfl
  | cons entry rest ih =>
    obtain ⟨key, value⟩ := entry
    have hvalue := h _ List.mem_cons_self
    dsimp only at hvalue
    rw [List.map_cons, plainEntries, plainEntries, hvalue,
      ih fun other ho => h other (List.mem_cons_of_mem _ ho)]

/-- The data of a value that is no list is what the casts for the whole make of it. -/
theorem dataFor_eq_restore (request : DataRequest) {value : Value κ} (hv : value.isList = false)
    (property : Property κ) : value.dataFor casting request property =
      (value.restore casting request property.casts).mapError (.prefixed property.name) := by
  cases value with
  | list items => cases hv
  | map entries =>
    rw [dataFor, restore]
  | _ => rw [dataFor, restore] <;> rfl

end Value

theorem Instance.dataItems_congr {withDefaults withDefaults' : Bool}
    {items : List (Origin × Instance κ)} {change : Instance κ → Instance κ}
    (h : ∀ item ∈ items,
      item.2.data casting withDefaults = (change item.2).data casting withDefaults')
    (index : Nat) : Instance.dataItems casting withDefaults index items =
      Instance.dataItems casting withDefaults' index
        (items.map fun item => (item.1, change item.2)) := by
  induction items generalizing index with
  | nil => rfl
  | cons item rest ih =>
    obtain ⟨origin, r⟩ := item
    have hr := h _ List.mem_cons_self
    dsimp only at hr
    rw [List.map_cons, Instance.dataItems, Instance.dataItems, hr,
      ih fun other ho => h other (List.mem_cons_of_mem _ ho)]

theorem Property.dataAll_congr {request request' : DataRequest} {stored stored' : StoredData κ}
    {properties : List (Property κ)} (h : ∀ property ∈ properties,
      property.data? casting request stored = property.data? casting request' stored') :
    Property.dataAll casting request stored properties =
      Property.dataAll casting request' stored' properties := by
  induction properties with
  | nil => rfl
  | cons property rest ih =>
    rw [Property.dataAll, Property.dataAll, h property List.mem_cons_self,
      ih fun other ho => h other (List.mem_cons_of_mem _ ho)]

namespace Node

/-- The data with defaults is the data of what has been filled in. -/
def Agrees (casting : Casting κ) : Node κ → Prop
  | record r => r.data casting true = r.filled.data casting false
  | value flags casts v =>
    v.restore casting ⟨flags, true⟩ casts = v.filled.restore casting ⟨flags, false⟩ casts

theorem dataFor_agrees {property : Property κ} {v : Value κ}
    (hvalue : v.isList = false → (Node.value flags property.casts v).Agrees casting)
    (hitems : ∀ items, v = .list items → ∀ item ∈ items,
      (Node.value flags property.elementCasts item).Agrees casting) :
    v.dataFor casting ⟨flags, true⟩ property = v.filled.dataFor casting ⟨flags, false⟩ property := by
  cases v with
  | list items =>
    rw [Value.filled, Value.dataFor, Value.dataFor, Value.filledItems_eq,
      Value.restoreItems_congr (hitems items rfl)]
  | _ =>
    rw [Value.dataFor_eq_restore _ rfl, Value.dataFor_eq_restore _ (by rw [Value.filled]; rfl)]
    exact congrArg (Except.mapError _) (hvalue rfl)

/-- What a property shows is stored, or an explicit default, or comes from its type alone. -/
theorem shown_cases {r : Instance κ} {property : Property κ} {v : Value κ}
    (h : (r.stored? property.name).or (property.default? r.flags) = some v) :
    (r.stored? property.name).or property.default = some v ∨
      property.implicitDefault? r.flags = some v := by
  unfold Property.default? at h
  cases hs : r.stored? property.name with
  | some w => exact .inl (by rw [hs] at h; exact h)
  | none =>
    rw [hs] at h
    cases hd : property.default with
    | some w => exact .inl (by rw [hd] at h; exact h)
    | none => exact .inr (by rw [hd] at h; exact h)

theorem agrees_record {r : Instance κ} (hd : r.metadata.names.Nodup)
    (h : ∀ next, (record r).Leads casting next → next.Agrees casting) :
    (record r).Agrees casting := by
  change r.data casting true = r.filled.data casting false
  rw [Instance.data_eq_dataAll, Instance.data_eq_dataAll, Instance.filled_eq]
  refine Property.dataAll_congr fun property hp => ?_
  rw [Instance.data?_eq, Instance.data?_eq, if_pos rfl, if_neg Bool.false_ne_true, Option.or_none,
    Metadata.get?_tableOf hd, Metadata.property?_of_mem hd hp, Option.bind_some, Option.map_map]
  refine Option.map_congr fun v hv => ?_
  rcases shown_cases hv with hshown | himplicit
  · refine dataFor_agrees (fun hlist => h _ ?_) fun items hitems item hi => h _ ?_
    · exact leads_record.mpr ⟨property, hp, v, hshown, .inr ⟨hlist, rfl⟩⟩
    · exact leads_record.mpr ⟨property, hp, v, hshown, .inl ⟨items, item, hitems, hi, rfl⟩⟩
  · rw [Function.comp_apply, Property.filled_of_implicitDefault? himplicit,
      Instance.dataFor_of_implicitDefault? himplicit,
      Instance.dataFor_of_implicitDefault? himplicit]

theorem agrees_value {v : Value κ} (hheeds : casting.Heeds)
    (hbare : ∀ origin o, v = .object origin o →
      Cast.restoreFirst casting v ⟨flags, true⟩ casts = .pass → o.filled = o)
    (h : ∀ next, (value flags casts v).Leads casting next → next.Agrees casting) :
    (value flags casts v).Agrees casting := by
  change v.restore casting ⟨flags, true⟩ casts = v.filled.restore casting ⟨flags, false⟩ casts
  cases v with
  | list items =>
    have hitems : ∀ item ∈ items, item.restore casting ⟨flags, true⟩ [] =
        item.filled.restore casting ⟨flags, false⟩ [] := fun item hi => h _ (List.mem_map_of_mem hi)
    rw [Value.filled, Value.restore, Value.restore, Value.plainItems_eq_restoreItems,
      Value.plainItems_eq_restoreItems, Value.filledItems_eq, Value.restoreItems_congr hitems]
  | map entries =>
    have hentries : ∀ entry ∈ entries, entry.2.plain casting true =
        entry.2.filled.plain casting false := by
      intro entry he
      have hentry : entry.2.restore casting ⟨flags, true⟩ [] =
        entry.2.filled.restore casting ⟨flags, false⟩ [] :=
          h _ (List.mem_map.mpr ⟨entry, he, rfl⟩)
      rwa [← Value.plain_eq_restore, ← Value.plain_eq_restore] at hentry
    rw [Value.filled, Value.restore, Value.restore, Value.filledEntries_eq,
      Value.plainEntries_congr hentries]
  | record origin r =>
    have hr : r.data casting true = r.filled.data casting false := h _ List.mem_cons_self
    have hfirst : Cast.restoreFirst casting (.record origin r) ⟨flags, true⟩ casts =
        Cast.restoreFirst casting (.record origin r.filled) ⟨flags, false⟩ casts :=
      Cast.restoreFirst_filled hheeds _
    rw [Value.filled, Value.restore, Value.restore, hfirst, hr]
  | object origin o =>
    have hfirst : Cast.restoreFirst casting (.object origin o) ⟨flags, true⟩ casts =
        Cast.restoreFirst casting (.object origin o.filled) ⟨flags, false⟩ casts :=
      Cast.restoreFirst_filled hheeds _
    rw [Value.filled, Value.restore, Value.restore, ← hfirst]
    split
    · rfl
    · next hmembers =>
      cases o with
      | collection name itemClass items =>
        have hitems : ∀ item ∈ items, item.2.data casting true = item.2.filled.data casting false :=
          fun item hi => h _ (leads_collection.mpr ⟨hmembers, item, hi, rfl⟩)
        rw [Object.filled, Object.memberData, Object.memberData, Instance.filledMembers_eq,
          Instance.dataItems_congr hitems]
      | wrapper typeName aliases data inner => cases data <;> rfl
      | _ => rfl
    · next hpass => rw [hbare origin o rfl hpass]
  | _ => rfl

/-- **Data agrees, if it does wherever objects are left to their own data forms.**  By induction on
how much there is of which data is made. -/
theorem agrees (hheeds : casting.Heeds) (node : Node κ)
    (hdistinct : ∀ r, Relation.ReflTransGen (Leads casting) node (record r) →
      r.metadata.names.Nodup)
    (hbare : ∀ flags casts origin o,
      Relation.ReflTransGen (Leads casting) node (value flags casts (.object origin o)) →
        Cast.restoreFirst casting (.object origin o) ⟨flags, true⟩ casts = .pass → o.filled = o) :
    node.Agrees casting := by
  induction hsize : node.size using Nat.strong_induction_on generalizing node with
  | _ size ih =>
    have hnext : ∀ next, node.Leads casting next → next.Agrees casting := by
      intro next hleads
      refine ih next.size (hsize ▸ size_lt_of_leads hleads) next (fun r hr => ?_) ?_ rfl
      · exact hdistinct r (.head hleads hr)
      · exact fun flags casts origin o ho => hbare flags casts origin o (.head hleads ho)
    cases node with
    | record r => exact agrees_record (hdistinct r .refl) hnext
    | value flags casts v =>
      exact agrees_value hheeds (fun origin o hv hpass => by
        subst hv
        exact hbare flags casts origin o .refl hpass) hnext

end Node

end Agreement

namespace Instance

/-- The data of the instance is made of that of `r`. -/
def Reaches (casting : Casting κ) (record r : Instance κ) : Prop :=
  Relation.ReflTransGen (Node.Leads casting) (.record record) (.record r)

/-- While the data of the instance is made, the object is left to its own data form, since no cast
that is kept takes it back. -/
def LeavesBare (casting : Casting κ) (record : Instance κ) (o : Object κ) : Prop :=
  ∃ flags casts origin,
    Relation.ReflTransGen (Node.Leads casting) (.record record)
      (.value flags casts (.object origin o)) ∧
    Cast.restoreFirst casting (.object origin o) ⟨flags, true⟩ casts = .pass

/-- **Defaults reach every instance.**  The data of an instance with defaults is that of the instance
filled in, whatever its instances are held by, as long as no collection that is left to its own data
form has something to fill in.  No class that is reached may have two properties of one name, and
custom casts are to heed the request for defaults. -/
theorem data_filled (casting : Casting κ) (record : Instance κ) (hheeds : casting.Heeds)
    (hdistinct : ∀ r, record.Reaches casting r → r.metadata.names.Nodup)
    (hbare : ∀ o, record.LeavesBare casting o → o.filled = o) :
    record.data casting true = record.filled.data casting false :=
  Node.agrees hheeds (.record record) hdistinct fun flags casts origin o ho hpass =>
    hbare o ⟨flags, casts, origin, ho, hpass⟩

end Instance

namespace Atlas

/-- A cast for mixed properties, which takes collections back as the built-in cast does. -/
def delegating : Casting Unit := fun _ =>
  { label := "delegating"
    accepts := fun _ type => type == .keyword .mixed
    claims := fun _ => false
    convert := fun _ value => .done (.ok value)
    restore := fun value _ => match value with
      | .object _ (.collection ..) => .members
      | _ => .pass }

/-- An engine for villages and guides to them.  A guide has the cast for its villages, and none for
its notes. -/
def guideEngine : Engine Unit :=
  (({ casting := delegating } : Engine Unit).register
    ((((ClassDeclaration.named "Village").withProperty "name" ["string"]).withProperty "people"
      ["int"]).withDefault "people" (.int 0))).register
    ((((ClassDeclaration.named "Guide").withProperty "villages" ["mixed"]).withPropertyCast
      "villages" ()).withProperty "notes" ["mixed"])

/-- A village with a name and nothing else. -/
def riva : Instance Unit where
  metadata :=
    { key := "Village", generation := 0, name := "Village", lineage := []
      properties :=
        [⟨"Village", "name", ⟨[.keyword .string], []⟩, [], [], none⟩,
          ⟨"Village", "people", ⟨[.keyword .int], []⟩, [], [], some (.int 0)⟩] }
  stored := [("name", .text "Riva")]
  tracked := []
  flags := .incomplete

/-- A collection of one village. -/
def villages : Value Unit :=
  .object (.given 0) (.collection "Villages" "Village" [(.given 1, riva)])

/-- A guide that holds the given. -/
def guide (stored : Table (Value Unit)) : Instance Unit where
  metadata :=
    { key := "Guide", generation := 0, name := "Guide", lineage := []
      properties :=
        [⟨"Guide", "villages", ⟨[.keyword .mixed], []⟩, [(.keyword .mixed, .custom ())], [], none⟩,
          ⟨"Guide", "notes", ⟨[.keyword .mixed], []⟩, [], [], none⟩] }
  stored := stored
  tracked := []
  flags := .incomplete

/-- Villages, and notes on the best of them. -/
def contents : Table (Value Unit) :=
  [("villages", villages), ("notes", .list [.map [("best", .record (.given 1) riva)]])]

theorem guide_filled :
    (guideEngine.make "Village" [("name", .text "Riva")] .incomplete).1 = .ok riva ∧
      (guideEngine.make "Guide" contents .incomplete).1 = .ok (guide contents) ∧
      (guide contents).data delegating true = (guide contents).filled.data delegating false ∧
      (guide contents).data delegating true =
        .ok [("villages", .list [.map [("name", .text "Riva"), ("people", .int 0)]]),
          ("notes", .list [.map [("best", .map [("name", .text "Riva"), ("people", .int 0)])]])] := by
  have hheeds : delegating.Heeds := by
    intro _ value flags
    cases value with
    | object origin o => cases o <;> rfl
    | _ => rfl
  let nodes : List (Node Unit) :=
    [.record (guide contents), .value .incomplete [(.keyword .mixed, .custom ())] villages,
      .value .incomplete [] (.map [("best", .record (.given 1) riva)]), .record riva,
      .value .incomplete [] (.record (.given 1) riva), .value .incomplete [] (.text "Riva"),
      .value .incomplete [] (.int 0)]
  have hclosed : nodes.flatMap (Node.parts delegating) ⊆ nodes := by
    have hparts : nodes.flatMap (Node.parts delegating) = nodes.tail.take 2 ++
        [.record riva, .value .incomplete [] (.record (.given 1) riva),
          .value .incomplete [] (.text "Riva"), .value .incomplete [] (.int 0), .record riva] := rfl
    rw [hparts]
    simp [nodes]
  have hreached : ∀ other, Relation.ReflTransGen (Node.Leads delegating)
      (.record (guide contents)) other → other ∈ nodes :=
    fun other h => Node.mem_of_reaches List.mem_cons_self hclosed h
  refine ⟨rfl, rfl, Instance.data_filled delegating (guide contents) hheeds (fun r hr => ?_) ?_, rfl⟩
  · have hmem := hreached _ hr
    simp only [nodes, List.mem_cons, Node.record.injEq, reduceCtorEq, List.not_mem_nil, or_false,
      false_or] at hmem
    rcases hmem with rfl | rfl <;> decide +kernel
  · rintro o ⟨flags, casts, origin, ho, hpass⟩
    have hmem := hreached _ ho
    simp only [nodes, List.mem_cons, Node.value.injEq, reduceCtorEq, List.not_mem_nil, or_false,
      false_or, and_false, villages, Value.object.injEq] at hmem
    obtain ⟨-, rfl, -, rfl⟩ := hmem
    cases hpass

/-- A collection among the notes is left to its own data form, which does not fill in the number of
people. -/
theorem notes_unfilled :
    (guideEngine.make "Guide" [("notes", villages)] .incomplete).1 =
        .ok (guide [("notes", villages)]) ∧
      (guide [("notes", villages)]).data delegating true =
        .ok [("notes", .list [.map [("name", .text "Riva")]])] ∧
      (guide [("notes", villages)]).filled.data delegating false =
        .ok [("notes", .list [.map [("name", .text "Riva"), ("people", .int 0)]])] :=
  ⟨rfl, rfl, rfl⟩

end Atlas

end TypedRecords
