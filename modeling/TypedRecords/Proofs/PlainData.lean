import TypedRecords.Proofs.Native
import TypedRecords.Value.Data

/-!
# Plain values and their data

A plain value holds no instance and no object, at any depth.  It is its own data.  Instances and
collections that were made by built-in casts have the data that their properties have.

* `Value.IsPlain`: plain values.  `Value.plain_of_isPlain`: **a plain value is its own data.**
* `Value.ItemData`: the data of a value as far as built-in casts make any.
  `Value.ItemData.dataFor`, `Value.dataFor_list`: so it is for every property with such casts.
* `Instance.dataAll_eq_mapM`, `Instance.data_eq`: the data of an instance, property by property.
-/

namespace TypedRecords

variable {κ : Type}

namespace Value

/-! ## Plain values -/

/-- The value holds no instance and no object. -/
inductive IsPlain : Value κ → Prop
  | null : IsPlain .null
  | bool {b : Bool} : IsPlain (.bool b)
  | int {n : Int64} : IsPlain (.int n)
  | float {x : Double} : IsPlain (.float x)
  | text {s : String} : IsPlain (.text s)
  | list {items : List (Value κ)} : (∀ item ∈ items, IsPlain item) → IsPlain (.list items)
  | map {entries : List (String × Value κ)} :
    (∀ entry ∈ entries, IsPlain entry.2) → IsPlain (.map entries)

variable {casting : Casting κ} {withDefaults : Bool} {v : Value κ}

theorem plainItems_of_forall {items : List (Value κ)}
    (h : ∀ item ∈ items, item.plain casting withDefaults = .ok item) (index : Nat) :
    plainItems casting withDefaults index items = .ok items := by
  induction items generalizing index with
  | nil => rfl
  | cons item rest ih =>
    rw [plainItems, h item List.mem_cons_self,
      ih (fun other ho => h other (List.mem_cons_of_mem _ ho))]
    rfl

theorem plainEntries_of_forall {entries : List (String × Value κ)}
    (h : ∀ entry ∈ entries, entry.2.plain casting withDefaults = .ok entry.2) :
    plainEntries casting withDefaults entries = .ok entries := by
  induction entries with
  | nil => rfl
  | cons entry rest ih =>
    obtain ⟨key, value⟩ := entry
    have hvalue := h _ List.mem_cons_self
    dsimp only at hvalue
    rw [plainEntries, hvalue, ih (fun other ho => h other (List.mem_cons_of_mem _ ho))]
    rfl

/-- **A plain value is its own data.** -/
theorem plain_of_isPlain (h : v.IsPlain) : v.plain casting withDefaults = .ok v := by
  induction h with
  | list _ ih => rw [plain, plainItems_of_forall ih]; rfl
  | map _ ih => rw [plain, plainEntries_of_forall ih]; rfl
  | _ => rw [plain]

end Value

/-! ## Restoring with built-in casts -/

section Restoring

variable {casting : Casting κ} {registry : Registry κ} {types : List TypeName}
  {casts : List (TypeName × Cast κ)} {request : DataRequest} {v : Value κ}

theorem KeptNatively.isBuiltIn (h : KeptNatively registry types casts) :
    ∀ entry ∈ casts, entry.2.isBuiltIn = true := by
  intro entry he
  obtain ⟨_, -, -, -, hcast | ⟨hcast, -⟩⟩ := h entry he <;> rw [hcast] <;> rfl

theorem Cast.restoreFirst_of_isBuiltIn (hb : ∀ entry ∈ casts, entry.2.isBuiltIn = true) :
    Cast.restoreFirst casting v request casts = .pass ∨
      Cast.restoreFirst casting v request casts = .members := by
  induction casts with
  | nil => exact .inl rfl
  | cons entry rest ih =>
    obtain ⟨type, cast⟩ := entry
    have hrest := ih fun other ho => hb other (List.mem_cons_of_mem _ ho)
    have hcast : cast.isBuiltIn = true := hb _ List.mem_cons_self
    have hanswer : cast.restore casting v request = .pass ∨
        cast.restore casting v request = .members := by
      cases cast with
      | instances =>
        cases v with
        | record origin r => exact .inr rfl
        | _ => exact .inl rfl
      | collections =>
        cases v with
        | object origin o => cases o with
          | collection name itemClass items => exact .inr rfl
          | _ => exact .inl rfl
        | _ => exact .inl rfl
      | custom handle => cases hcast
    unfold Cast.restoreFirst
    rcases hanswer with h | h
    · rw [h]; exact hrest
    · rw [h]; exact .inr rfl

theorem KeptNatively.restoreFirst (hk : KeptNatively registry types casts) :
    Cast.restoreFirst casting v request casts = .pass ∨
      Cast.restoreFirst casting v request casts = .members :=
  Cast.restoreFirst_of_isBuiltIn hk.isBuiltIn

end Restoring

namespace Value

/-- The value is the data of a member of a collection. -/
def MemberData (casting : Casting κ) (item : Origin × Instance κ) (data : Value κ) : Prop :=
  ∃ entries, item.2.data casting false = .ok entries ∧ data = .map entries

/-- The data of a value as far as built-in casts make any. -/
inductive ItemData (casting : Casting κ) : Value κ → Value κ → Prop
  | plain {v : Value κ} : v.IsPlain → ItemData casting v v
  | record {origin : Origin} {r : Instance κ} {data : List (String × Value κ)} :
    r.data casting false = .ok data → ItemData casting (.record origin r) (.map data)
  | collection {origin : Origin} {name itemClass : String} {items : List (Origin × Instance κ)}
    {parts : List (Value κ)} :
    List.Forall₂ (MemberData casting) items parts →
        ItemData casting (.object origin (.collection name itemClass items)) (.list parts)

theorem dataItems_of_forall₂ {casting : Casting κ} {items : List (Origin × Instance κ)}
    {parts : List (Value κ)}
    (h : List.Forall₂ (MemberData casting) items parts) (index : Nat) :
    Instance.dataItems casting false index items = .ok parts := by
  induction h generalizing index with
  | nil => rfl
  | @cons item part items parts hitem _ ih =>
    obtain ⟨origin, r⟩ := item
    obtain ⟨data, hdata, rfl⟩ := hitem
    dsimp only at hdata
    rw [Instance.dataItems, hdata, ih]
    rfl

variable {casting : Casting κ} {registry : Registry κ} {types : List TypeName}
  {casts : List (TypeName × Cast κ)} {request : DataRequest} {property : Property κ}
  {v data : Value κ}

theorem ItemData.restore (h : v.ItemData casting data) (hk : KeptNatively registry types casts)
    (hd : request.withDefaults = false) : v.restore casting request casts = .ok data := by
  cases h with
  | plain hv =>
    cases hv with
    | list h => rw [Value.restore, plainItems_of_forall fun v hv => plain_of_isPlain (h v hv)]; rfl
    | map h => rw [Value.restore, plainEntries_of_forall fun e he => plain_of_isPlain (h e he)]; rfl
    | _ => rw [Value.restore]
  | record hr =>
    rw [Value.restore]
    rcases hk.restoreFirst with h | h <;> rw [h, hd, hr] <;> rfl
  | collection hitems =>
    rw [Value.restore]
    rcases hk.restoreFirst with h | h
    · rw [h]
      dsimp only
      rw [Object.nativeData, dataItems_of_forall₂ hitems]
      rfl
    · rw [h]
      dsimp only
      rw [Object.memberData, hd, dataItems_of_forall₂ hitems]
      rfl

theorem restoreItems_of_forall₂ {items parts : List (Value κ)}
    (h : List.Forall₂ (ItemData casting) items parts) (hk : KeptNatively registry types casts)
    (hd : request.withDefaults = false) (index : Nat) :
    restoreItems casting request casts index items = .ok parts := by
  induction h generalizing index with
  | nil => rfl
  | cons hitem _ ih =>
    rw [restoreItems, hitem.restore hk hd, ih]
    rfl

theorem dataFor_list {items parts : List (Value κ)}
    (h : List.Forall₂ (ItemData casting) items parts) (hn : property.Native registry)
    (hd : request.withDefaults = false) :
    (Value.list items).dataFor casting request property = .ok (.list parts) := by
  rw [Value.dataFor, restoreItems_of_forall₂ h hn.elementCasts hd]
  rfl

theorem ItemData.dataFor (h : v.ItemData casting data) (hn : property.Native registry)
    (hd : request.withDefaults = false) : v.dataFor casting request property = .ok data := by
  cases h with
  | plain hv =>
    cases hv with
    | list h =>
      refine dataFor_list ?_ hn hd
      rw [List.forall₂_same]
      exact fun v hv => .plain (h v hv)
    | map h => rw [Value.dataFor, plainEntries_of_forall fun e he => plain_of_isPlain (h e he)]; rfl
    | _ => rw [Value.dataFor]
  | record hr =>
    rw [Value.dataFor]
    rcases hn.casts.restoreFirst with h | h <;> rw [h, hd, hr] <;> rfl
  | collection hitems =>
    rw [Value.dataFor]
    rcases hn.casts.restoreFirst with h | h
    · rw [h]
      dsimp only
      rw [Object.nativeData, dataItems_of_forall₂ hitems]
      rfl
    · rw [h]
      dsimp only
      rw [Object.memberData, hd, dataItems_of_forall₂ hitems]
      rfl

end Value

/-! ## Instances -/

namespace Instance

variable {casting : Casting κ}

theorem storedData_eq (request : DataRequest) (stored : List (String × Value κ)) (name : String) :
    Value.storedData casting request stored name =
      (Table.get? stored name).map fun value property => value.dataFor casting request property := by
  induction stored with
  | nil => rfl
  | cons entry rest ih =>
    obtain ⟨key, value⟩ := entry
    rw [Value.storedData, Table.get?_cons]
    by_cases hk : key = name
    · rw [if_pos hk, if_pos hk.symm]
      rfl
    · rw [if_neg hk, if_neg (Ne.symm hk), ih]

/-- The explicit default of a property does not matter for the data of a value. -/
theorem dataFor_congr (request : DataRequest) (value : Value κ) (property : Property κ) :
    value.dataFor casting request { property with default := none } =
      value.dataFor casting request property := by
  cases value <;> rw [Value.dataFor, Value.dataFor]

theorem dataFor_of_implicitDefault? {property : Property κ} {flags : Flags} {value : Value κ}
    (h : property.implicitDefault? flags = some value) (request : DataRequest)
    (other : Property κ) : value.dataFor casting request other = .ok value := by
  unfold Property.implicitDefault? at h
  split at h
  · cases h; rfl
  · split at h
    · cases h; rfl
    · split at h
      · cases h; rfl
      · cases h

theorem data?_eq (request : DataRequest) (stored : List (String × Value κ))
    (property : Property κ) :
    property.data? casting request (Value.storedData casting request stored) =
      ((Table.get? stored property.name).or
        (if request.withDefaults then property.default? request.flags else none)).map
          fun value => value.dataFor casting request property := by
  obtain ⟨owner, name, union, casts, elementCasts, default⟩ := property
  have hcongr : ∀ value : Value κ,
      value.dataFor casting request ⟨owner, name, union, casts, elementCasts, none⟩ =
        value.dataFor casting request ⟨owner, name, union, casts, elementCasts, default⟩ :=
    fun value => dataFor_congr request value ⟨owner, name, union, casts, elementCasts, default⟩
  rw [Property.data?, storedData_eq]
  dsimp only
  cases Table.get? stored name with
  | some value => exact congrArg some (hcongr value)
  | none =>
    cases request.withDefaults with
    | false => rfl
    | true =>
      cases default with
      | some value => exact congrArg some (hcongr value)
      | none =>
        let property : Property κ := ⟨owner, name, union, casts, elementCasts, none⟩
        change (property.implicitDefault? request.flags).map Except.ok =
          (property.implicitDefault? request.flags).map _
        exact Option.map_congr fun value hv => (dataFor_of_implicitDefault? hv request _).symm

/-- What the data of a property is made of: what is stored, or else its default if that is asked
for. -/
def shown? (record : Instance κ) (withDefaults : Bool) (property : Property κ) :
    Option (Value κ) :=
  (record.stored? property.name).or (if withDefaults then property.default? record.flags else none)

@[simp] theorem shown?_false (record : Instance κ) (property : Property κ) :
    record.shown? false property = record.stored? property.name :=
  Option.or_none

/-- The properties that have something to show, each with it. -/
def shownAmong (record : Instance κ) (withDefaults : Bool) (properties : List (Property κ)) :
    List (Property κ × Value κ) :=
  properties.filterMap fun property =>
    (record.shown? withDefaults property).map fun value => (property, value)

theorem data_eq_dataAll (withDefaults : Bool) (record : Instance κ) :
    record.data casting withDefaults = Property.dataAll casting ⟨record.flags, withDefaults⟩
      (Value.storedData casting ⟨record.flags, withDefaults⟩ record.stored)
        record.metadata.properties := by
  obtain ⟨⟨key, generation, name, lineage, properties⟩, stored, tracked, flags⟩ := record
  rw [Instance.data, Metadata.data]

/-- **The data of properties, one after another.** -/
theorem dataAll_eq_mapM (record : Instance κ) (withDefaults : Bool)
    (properties : List (Property κ)) :
    Property.dataAll casting ⟨record.flags, withDefaults⟩
        (Value.storedData casting ⟨record.flags, withDefaults⟩ record.stored) properties =
      (record.shownAmong withDefaults properties).mapM fun entry =>
        Prod.mk entry.1.name <$> entry.2.dataFor casting ⟨record.flags, withDefaults⟩ entry.1 := by
  induction properties with
  | nil => rfl
  | cons property rest ih =>
    have hdata := @data?_eq κ casting ⟨record.flags, withDefaults⟩ record.stored property
    rw [Property.dataAll, hdata, ih]
    change _ = (List.filterMap _ (property :: rest)).mapM _
    cases hs : record.shown? withDefaults property with
    | none =>
      have hnone : (Table.get? record.stored property.name).or
          (if withDefaults = true then property.default? record.flags else none) = none := hs
      rw [hnone, List.filterMap_cons_none (by rw [hs]; rfl)]
      rfl
    | some value =>
      have hsome : (Table.get? record.stored property.name).or
          (if withDefaults = true then property.default? record.flags else none) = some value := hs
      rw [hsome, List.filterMap_cons_some (b := (property, value)) (by rw [hs]; rfl),
        List.mapM_cons, Option.map_some]
      dsimp only
      cases value.dataFor casting ⟨record.flags, withDefaults⟩ property <;> rfl

theorem dataAll_eq_ok {record : Instance κ} {withDefaults : Bool} {properties : List (Property κ)}
    {data : Property κ → Value κ → Value κ}
    (h : ∀ property ∈ properties, ∀ value, record.shown? withDefaults property = some value →
      value.dataFor casting ⟨record.flags, withDefaults⟩ property = .ok (data property value)) :
    Property.dataAll casting ⟨record.flags, withDefaults⟩
        (Value.storedData casting ⟨record.flags, withDefaults⟩ record.stored) properties =
      .ok (properties.filterMap fun property =>
        ((record.shown? withDefaults property).map (data property)).map (Prod.mk property.name)) := by
  have hstep : ∀ entry ∈ record.shownAmong withDefaults properties,
      Prod.mk entry.1.name <$> entry.2.dataFor casting ⟨record.flags, withDefaults⟩ entry.1 =
        .ok (entry.1.name, data entry.1 entry.2) := by
    intro entry he
    obtain ⟨property, hp, hentry⟩ := List.mem_filterMap.mp he
    obtain ⟨value, hvalue, rfl⟩ := Option.map_eq_some_iff.mp hentry
    rw [h property hp value hvalue]
    rfl
  rw [dataAll_eq_mapM, mapM_eq_ok_of_forall hstep, shownAmong, List.map_filterMap]
  refine congrArg Except.ok (List.filterMap_congr fun property _ => ?_)
  rw [Option.map_map, Option.map_map]
  rfl

/-- **The data of an instance, property by property.** -/
theorem data_eq (record : Instance κ) (data : Property κ → Value κ)
    (h : ∀ property ∈ record.metadata.properties, ∀ w, record.stored? property.name = some w →
      w.dataFor casting ⟨record.flags, false⟩ property = .ok (data property)) :
    record.data casting false = .ok (record.metadata.tableOf fun property =>
      (record.stored? property.name).map fun _ => data property) := by
  have hall := @dataAll_eq_ok κ casting record false record.metadata.properties
    (fun property _ => data property)
    fun property hp value hvalue => h property hp value (record.shown?_false property ▸ hvalue)
  rw [data_eq_dataAll, hall]
  simp only [shown?_false]
  rfl

end Instance

end TypedRecords
