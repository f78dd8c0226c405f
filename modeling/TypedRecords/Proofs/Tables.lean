import Mathlib.Data.List.Forall2
import Mathlib.Data.List.Nodup
import TypedRecords.Proofs.Lists
import TypedRecords.Value.Basic

/-!
# Tables and declared properties

What the other files need to know about tables and their keys, about the values in them, and about
looking a property up by its name.

* `Table.get?_of_mem`: in a table that holds no key twice, every entry is found under its key.
* `Table.distinct_put`, `Table.distinct_putAll`: writing keeps it so.  `Table.get?_putAll` and
  `Table.keys_putAll` tell what many writes come to.
* `Value.sizeOf_lt_of_mem_map` and its companions: a value is larger than what it holds.
* `Metadata.property?_eq_some`, `Metadata.property?_of_mem`: the property of a name.
* `Metadata.tableOf`: values of properties in order of declaration; `Metadata.get?_tableOf` reads
  them, `Metadata.keys_tableOf` and `Metadata.filter_tableOf` tell which are there.
-/

namespace TypedRecords

namespace Table

variable {α : Type}

/-! ## Keys and entries -/

theorem mem_of_get? {table : Table α} {key : String} {value : α}
    (h : get? table key = some value) : (key, value) ∈ table := by
  induction table with
  | nil => cases h
  | cons entry rest ih =>
    obtain ⟨k, v⟩ := entry
    rw [get?_cons] at h
    split at h
    · next hk =>
      rw [hk, Option.some.inj h]
      exact List.mem_cons_self
    · exact List.mem_cons_of_mem _ (ih h)

theorem get?_eq_none_iff {table : Table α} {key : String} :
    get? table key = none ↔ key ∉ keys table := by
  induction table with
  | nil => simp [keys]
  | cons entry rest ih =>
    obtain ⟨k, v⟩ := entry
    rw [get?_cons]
    by_cases hk : key = k
    · simp [hk, keys]
    · simpa [hk, keys] using ih

theorem get?_of_mem {table : Table α} (hd : Distinct table) {key : String} {value : α}
    (h : (key, value) ∈ table) : get? table key = some value := by
  induction table with
  | nil => cases h
  | cons entry rest ih =>
    obtain ⟨k, v⟩ := entry
    obtain ⟨hk, hrest⟩ := List.nodup_cons.mp hd
    rw [get?_cons]
    rcases List.mem_cons.mp h with he | hm
    · cases he; exact if_pos rfl
    · have hne : key ≠ k := by
        rintro rfl
        exact hk (List.mem_map.mpr ⟨_, hm, rfl⟩)
      rw [if_neg hne]
      exact ih hrest hm

theorem mem_keys_of_mem {table : Table α} {key : String} {value : α} (h : (key, value) ∈ table) :
    key ∈ keys table := List.mem_map.mpr ⟨(key, value), h, rfl⟩

theorem get?_perm {table other : Table α} (hd : Distinct table) (h : table.Perm other)
    (key : String) : get? table key = get? other key := by
  have hkeys : (keys table).Perm (keys other) := h.map Prod.fst
  cases hget : get? table key with
  | some value =>
    have hd' : Distinct other := hkeys.nodup_iff.mp hd
    exact (get?_of_mem hd' (h.mem_iff.mp (mem_of_get? hget))).symm
  | none =>
    rw [get?_eq_none_iff, hkeys.mem_iff] at hget
    exact (get?_eq_none_iff.mpr hget).symm

/-! ## Writing -/

theorem distinct_put {table : Table α} (hd : Distinct table) (key : String) (value : α) :
    Distinct (put table key value) := by
  unfold Distinct
  rw [keys_put]
  split
  · exact hd
  · next hk =>
    refine List.nodup_append.mpr ⟨hd, List.nodup_singleton key, ?_⟩
    intro a ha b hb hab
    rw [List.mem_singleton.mp hb] at hab
    exact hk (hab ▸ ha)

theorem distinct_putAll {table : Table α} (hd : Distinct table) (updates : List (String × α)) :
    Distinct (putAll table updates) := by
  induction updates generalizing table with
  | nil => exact hd
  | cons update rest ih => exact ih (distinct_put hd update.1 update.2)

theorem mem_put {table : Table α} {key : String} {value : α} {entry : String × α}
    (h : entry ∈ put table key value) : entry = (key, value) ∨ entry ∈ table := by
  induction table with
  | nil => exact .inl (List.mem_singleton.mp h)
  | cons first rest ih =>
    obtain ⟨k, v⟩ := first
    unfold put at h
    split at h
    · next hk =>
      subst hk
      exact (List.mem_cons.mp h).imp_right (List.mem_cons_of_mem _)
    · rcases List.mem_cons.mp h with h | h
      · exact .inr (h ▸ List.mem_cons_self)
      · exact (ih h).imp_right (List.mem_cons_of_mem _)

theorem has_iff {table : Table α} {key : String} : has table key = true ↔ key ∈ keys table := by
  unfold has
  rw [Option.isSome_iff_ne_none, Ne, get?_eq_none_iff, not_not]

/-- What is written last counts. -/
theorem get?_putAll {updates : Table α} (hd : Distinct updates) (table : Table α) (key : String) :
    get? (putAll table updates) key = (get? updates key).or (get? table key) := by
  induction updates generalizing table with
  | nil => rfl
  | cons update rest ih =>
    obtain ⟨k, v⟩ := update
    obtain ⟨hk, hrest⟩ := List.nodup_cons.mp hd
    change get? (putAll (put table k v) rest) key = _
    rw [ih hrest, get?_put, get?_cons]
    by_cases hkey : key = k
    · rw [if_pos hkey, if_pos hkey, hkey, get?_eq_none_iff.mpr hk]
      rfl
    · rw [if_neg hkey, if_neg hkey]

/-- Keys that are not there yet are added at the end, each once. -/
theorem keys_putAll (table : Table α) (updates : List (String × α)) :
    keys (putAll table updates) = (keys updates).foldl addNew (keys table) := by
  induction updates generalizing table with
  | nil => rfl
  | cons update rest ih =>
    change keys (putAll (put table update.1 update.2) rest) = _
    rw [ih, keys_put]
    rfl

/-- A key that is not there yet is put at the end. -/
theorem put_eq_append {table : Table α} {key : String} (h : has table key = false) (value : α) :
    put table key value = table ++ [(key, value)] := by
  unfold has at h
  induction table with
  | nil => rfl
  | cons entry rest ih =>
    obtain ⟨k, v⟩ := entry
    rw [get?_cons] at h
    by_cases hk : key = k
    · rw [if_pos hk] at h
      cases h
    · rw [if_neg hk] at h
      unfold put
      rw [if_neg fun hkey => hk hkey.symm, ih h]
      rfl

theorem get?_of_prefix {table other : Table α} (h : table <+: other) {key : String} {value : α}
    (hget : get? table key = some value) : get? other key = some value := by
  obtain ⟨rest, rfl⟩ := h
  unfold get? at hget ⊢
  rw [List.lookup_append, hget]
  rfl

end Table

/-! ## A value is larger than what it holds -/

section Size

variable {κ : Type}

theorem Instance.sizeOf_lt_of_mem_stored (r : Instance κ) {entry : String × Value κ}
    (h : entry ∈ r.stored) : sizeOf entry.2 < sizeOf r := by
  have hentry := sizeOf_snd_lt_of_mem h
  cases r
  rw [Instance.mk.sizeOf_spec]
  dsimp only at hentry
  omega

namespace Value

theorem sizeOf_lt_of_mem_list {items : List (Value κ)} {item : Value κ} (h : item ∈ items) :
    sizeOf item < sizeOf (Value.list items) := by
  have hitem := List.sizeOf_lt_of_mem h
  rw [Value.list.sizeOf_spec]
  omega

theorem sizeOf_lt_of_mem_map {entries : List (String × Value κ)} {entry : String × Value κ}
    (h : entry ∈ entries) : sizeOf entry.2 < sizeOf (Value.map entries) := by
  have hentry := sizeOf_snd_lt_of_mem h
  rw [Value.map.sizeOf_spec]
  omega

theorem sizeOf_lt_record (origin : Origin) (r : Instance κ) :
    sizeOf r < sizeOf (Value.record origin r) := by
  rw [Value.record.sizeOf_spec]
  omega

theorem sizeOf_record_lt_of_mem_collection (origin : Origin) {name itemClass : String}
    {items : List (Origin × Instance κ)} {item : Origin × Instance κ} (h : item ∈ items) :
    sizeOf (Value.record item.1 item.2) <
      sizeOf (Value.object origin (.collection name itemClass items)) := by
  have hitem := List.sizeOf_lt_of_mem h
  obtain ⟨origin', r⟩ := item
  rw [Prod.mk.sizeOf_spec] at hitem
  rw [Value.record.sizeOf_spec, Value.object.sizeOf_spec, Object.collection.sizeOf_spec]
  dsimp only
  omega

end Value

end Size

/-! ## Declared properties -/

namespace Metadata

variable {κ : Type} {metadata : Metadata κ} {name : String} {property : Property κ}

theorem property?_eq_some (h : metadata.property? name = some property) :
    property ∈ metadata.properties ∧ property.name = name :=
  ⟨List.mem_of_find?_eq_some h, by simpa using List.find?_some h⟩

theorem property?_eq_none_iff :
    metadata.property? name = none ↔ metadata.declares name = false := by
  simp [property?, declares]

theorem declares_iff : metadata.declares name = true ↔ name ∈ metadata.names := by
  simp [declares, names]

theorem property?_of_mem (hd : metadata.names.Nodup) (h : property ∈ metadata.properties) :
    metadata.property? property.name = some property := by
  unfold names at hd
  unfold property?
  generalize metadata.properties = properties at hd h
  induction properties with
  | nil => cases h
  | cons first rest ih =>
    rw [List.map_cons, List.nodup_cons] at hd
    rcases List.mem_cons.mp h with rfl | h
    · exact List.find?_cons_of_pos (by simp)
    · have hne : first.name ≠ property.name := fun he =>
        hd.1 (he ▸ List.mem_map.mpr ⟨property, h, rfl⟩)
      rw [List.find?_cons_of_neg (by simpa using hne)]
      exact ih hd.2 h

/-! ## Tables in order of declaration -/

/-- The values of those properties that have one, in order of declaration. -/
def tableOf (m : Metadata κ) (value? : Property κ → Option (Value κ)) : Table (Value κ) :=
  m.properties.filterMap fun property => (value? property).map fun value => (property.name, value)

variable {m : Metadata κ} {value? : Property κ → Option (Value κ)}

theorem mem_tableOf {name : String} {value : Value κ} : (name, value) ∈ m.tableOf value? ↔
    ∃ property ∈ m.properties, property.name = name ∧ value? property = some value := by
  unfold tableOf
  rw [List.mem_filterMap]
  refine exists_congr fun property => and_congr_right fun _ => ?_
  cases value? property <;> simp

theorem mem_keys_tableOf {name : String} : name ∈ Table.keys (m.tableOf value?) ↔
    ∃ property ∈ m.properties, property.name = name ∧ (value? property).isSome = true := by
  constructor
  · intro h
    obtain ⟨⟨name, value⟩, he, rfl⟩ := List.mem_map.mp h
    obtain ⟨property, hp, hn, hv⟩ := mem_tableOf.mp he
    exact ⟨property, hp, hn, by rw [hv]; rfl⟩
  · rintro ⟨property, hp, hn, hv⟩
    obtain ⟨value, hv⟩ := Option.isSome_iff_exists.mp hv
    exact Table.mem_keys_of_mem (mem_tableOf.mpr ⟨property, hp, hn, hv⟩)

theorem keys_tableOf_sublist : (Table.keys (m.tableOf value?)).Sublist m.names := by
  unfold tableOf names Table.keys
  induction m.properties with
  | nil => exact List.Sublist.slnil
  | cons property rest ih =>
    cases hv : value? property with
    | none =>
      rw [List.filterMap_cons_none (by simp [hv])]
      exact ih.cons _
    | some value =>
      rw [List.filterMap_cons_some (b := (property.name, value)) (by rw [hv]; rfl)]
      exact ih.cons_cons _

theorem distinct_tableOf (hd : m.names.Nodup) : Table.Distinct (m.tableOf value?) :=
  hd.sublist keys_tableOf_sublist

theorem get?_tableOf (hd : m.names.Nodup) (name : String) :
    Table.get? (m.tableOf value?) name = (m.property? name).bind value? := by
  cases hp : m.property? name with
  | none =>
    refine Table.get?_eq_none_iff.mpr fun h => ?_
    have hdeclared : m.declares name = true := declares_iff.mpr (keys_tableOf_sublist.subset h)
    rw [property?_eq_none_iff.mp hp] at hdeclared
    cases hdeclared
  | some property =>
    obtain ⟨hmem, rfl⟩ := property?_eq_some hp
    cases hv : value? property with
    | some value =>
      rw [Option.bind_some, hv]
      exact Table.get?_of_mem (distinct_tableOf hd) (mem_tableOf.mpr ⟨property, hmem, rfl, hv⟩)
    | none =>
      rw [Option.bind_some, hv, Table.get?_eq_none_iff]
      intro h
      obtain ⟨other, ho, hn, hs⟩ := mem_keys_tableOf.mp h
      have heq : other = property := by
        have h := property?_of_mem hd ho
        rw [hn, hp] at h
        exact (Option.some.inj h).symm
      rw [heq, hv] at hs
      cases hs

/-- The keys of a table in order of declaration are the names of those properties that have a
value. -/
theorem keys_tableOf : Table.keys (m.tableOf value?) =
    (m.properties.filter fun property => (value? property).isSome).map Property.name := by
  unfold tableOf Table.keys
  induction m.properties with
  | nil => rfl
  | cons property rest ih =>
    cases hv : value? property with
    | none =>
      rw [List.filterMap_cons_none (by rw [hv]; rfl),
        List.filter_cons_of_neg (by rw [hv]; exact Bool.false_ne_true), ih]
    | some value =>
      rw [List.filterMap_cons_some (b := (property.name, value)) (by rw [hv]; rfl),
        List.filter_cons_of_pos (by rw [hv]; rfl), List.map_cons, List.map_cons, ih]

theorem filter_tableOf (keep : String → Bool) :
    (m.tableOf value?).filter (fun entry => keep entry.1) =
      (m.properties.filter fun property => keep property.name).filterMap fun property =>
        (value? property).map (Prod.mk property.name) := by
  rw [List.filterMap_filter, tableOf, List.filter_filterMap]
  refine List.filterMap_congr fun property _ => ?_
  cases value? property with
  | none => exact (ite_self none).symm
  | some value => exact Option.filter_some

theorem tableOf_congr {other? : Property κ → Option (Value κ)}
    (h : ∀ property ∈ m.properties, value? property = other? property) :
    m.tableOf value? = m.tableOf other? :=
  List.filterMap_congr fun property hp => by rw [h property hp]

/-- Two tables in order of declaration, compared property by property. -/
theorem forall₂_tableOf {other? : Property κ → Option (Value κ)}
    {R : String × Value κ → String × Value κ → Prop}
    (h : ∀ property ∈ m.properties, Option.Rel
      (fun v w => R (property.name, v) (property.name, w)) (value? property) (other? property)) :
    List.Forall₂ R (m.tableOf value?) (m.tableOf other?) := by
  unfold tableOf
  generalize m.properties = properties at h
  induction properties with
  | nil => exact .nil
  | cons property rest ih =>
    have hrest := ih fun other ho => h other (List.mem_cons_of_mem _ ho)
    have hfirst := h property List.mem_cons_self
    generalize hv : value? property = v at hfirst
    generalize hw : other? property = w at hfirst
    cases hfirst with
    | none =>
      rw [List.filterMap_cons_none (by rw [hv]; rfl), List.filterMap_cons_none (by rw [hw]; rfl)]
      exact hrest
    | @some v w hr =>
      rw [List.filterMap_cons_some (b := (property.name, v)) (by rw [hv]; rfl),
        List.filterMap_cons_some (b := (property.name, w)) (by rw [hw]; rfl)]
      exact .cons hr hrest

end Metadata

end TypedRecords
