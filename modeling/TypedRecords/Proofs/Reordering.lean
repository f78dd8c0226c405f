import TypedRecords.Proofs.Acceptance
import TypedRecords.Proofs.FailurePaths

/-!
# Values up to the order of keys

A map is built in some order, and so is the undeclared input that an instance has kept.  Two values
that differ in nothing but such orders, at any depth, look the same from outside: they have the same
shape and the same summary, and they belong to the same types.

* `Value.Reordered`, `Instance.Reordered`: the same up to the order of keys.
* `Table.Reordered`: the same for tables; `Table.Reordered.rel_get?` looks a key up in both.
* `Value.Reordered.accepts`: a property accepts both or neither.
-/

namespace TypedRecords

variable {κ : Type}

/-! ## The same up to the order of keys -/

mutual

/-- The values differ in nothing but the order of keys, in maps and in what instances have kept of
their input. -/
inductive Value.Reordered : Value κ → Value κ → Prop
  | refl (v : Value κ) : Value.Reordered v v
  | list {items items' : List (Value κ)} : List.Forall₂ Value.Reordered items items' →
      Value.Reordered (.list items) (.list items')
  | map {entries middle entries' : List (String × Value κ)} : entries.Perm middle →
      middle.map Prod.fst = entries'.map Prod.fst →
      List.Forall₂ Value.Reordered (middle.map Prod.snd) (entries'.map Prod.snd) →
      Value.Reordered (.map entries) (.map entries')
  | record {origin : Origin} {r r' : Instance κ} : Instance.Reordered r r' →
      Value.Reordered (.record origin r) (.record origin r')
  | collection {origin : Origin} {name itemClass : String}
      {items items' : List (Origin × Instance κ)} :
      items.map Prod.fst = items'.map Prod.fst →
      List.Forall₂ Instance.Reordered (items.map Prod.snd) (items'.map Prod.snd) →
      Value.Reordered (.object origin (.collection name itemClass items))
        (.object origin (.collection name itemClass items'))

/-- The instances have the same class, the same flags and the same defined properties in the same
order, and differ in nothing but the order of keys. -/
inductive Instance.Reordered : Instance κ → Instance κ → Prop
  | intro {r r' : Instance κ} {middle : List (String × Value κ)} : r.metadata = r'.metadata →
      r.flags = r'.flags → r.stored.map Prod.fst = r'.stored.map Prod.fst →
      List.Forall₂ Value.Reordered (r.stored.map Prod.snd) (r'.stored.map Prod.snd) →
      r.tracked.Perm middle → middle.map Prod.fst = r'.tracked.map Prod.fst →
      List.Forall₂ Value.Reordered (middle.map Prod.snd) (r'.tracked.map Prod.snd) →
      Instance.Reordered r r'

end

theorem forall₂_pair_iff {ι α β : Type} {R : α → β → Prop} {pairs : List (ι × α)}
    {pairs' : List (ι × β)} :
    List.Forall₂ (fun p p' => p.1 = p'.1 ∧ R p.2 p'.2) pairs pairs' ↔
      pairs.map Prod.fst = pairs'.map Prod.fst ∧
        List.Forall₂ R (pairs.map Prod.snd) (pairs'.map Prod.snd) := by
  induction pairs generalizing pairs' with
  | nil => cases pairs' <;> simp
  | cons pair rest ih =>
    cases pairs' with
    | nil => simp
    | cons pair' rest' =>
      simp only [List.forall₂_cons, List.map_cons, List.cons.injEq, ih]
      tauto

/-! ## Tables -/

namespace Table

/-- The tables differ in nothing but the order of keys, their own and those within their values. -/
def Reordered (table table' : Table (Value κ)) : Prop :=
  ∃ middle, table.Perm middle ∧
    List.Forall₂ (fun entry entry' => entry.1 = entry'.1 ∧ entry.2.Reordered entry'.2) middle table'

theorem Reordered.refl (table : Table (Value κ)) : Reordered table table :=
  ⟨table, .refl _, List.forall₂_same.mpr fun _ _ => ⟨rfl, .refl _⟩⟩

variable {table table' : Table (Value κ)}

theorem Reordered.keys_perm (h : table.Reordered table') : (keys table).Perm (keys table') := by
  obtain ⟨middle, hp, h⟩ := h
  have hkeys : keys middle = keys table' := (forall₂_pair_iff.mp h).1
  rw [← hkeys]
  exact hp.map Prod.fst

/-- A key has values in both tables, which differ in nothing but the order of keys, or in
neither. -/
theorem Reordered.rel_get? (h : table.Reordered table') (hd : Distinct table) (key : String) :
    Option.Rel Value.Reordered (get? table key) (get? table' key) := by
  obtain ⟨middle, hp, h⟩ := h
  rw [get?_perm hd hp]
  clear hp
  induction h with
  | nil => exact .none
  | @cons entry entry' _ _ hentry _ ih =>
    obtain ⟨k, v⟩ := entry
    obtain ⟨k', v'⟩ := entry'
    obtain ⟨rfl, hv⟩ : k = k' ∧ v.Reordered v' := hentry
    rw [get?_cons, get?_cons]
    by_cases hk : key = k
    · rw [if_pos hk, if_pos hk]
      exact .some hv
    · rw [if_neg hk, if_neg hk]
      exact ih

theorem Reordered.filter (h : table.Reordered table') (keep : String → Bool) :
    Reordered (table.filter fun entry => keep entry.1) (table'.filter fun entry => keep entry.1) := by
  obtain ⟨middle, hp, h⟩ := h
  refine ⟨_, hp.filter _, ?_⟩
  clear hp
  induction h with
  | nil => exact .nil
  | @cons entry entry' _ _ hentry _ ih =>
    rw [List.filter_cons, List.filter_cons, hentry.1]
    split
    · exact .cons hentry ih
    · exact ih

end Table

/-! ## Distinct keys -/

namespace Value

@[simp] theorem keysDistinct_map_iff {entries : List (String × Value κ)} :
    (Value.map entries).KeysDistinct ↔
      Table.Distinct entries ∧ ∀ entry ∈ entries, entry.2.KeysDistinct := by
  constructor
  · exact fun h => ⟨h [] entries .here, fun entry he _ _ hl => h _ _ (.key he hl)⟩
  · rintro ⟨hd, h⟩ path inner hl
    cases hl with
    | here => exact hd
    | key he hl => exact h _ he _ _ hl

@[simp] theorem keysDistinct_list_iff {items : List (Value κ)} :
    (Value.list items).KeysDistinct ↔ ∀ item ∈ items, item.KeysDistinct := by
  constructor
  · intro h item hi
    obtain ⟨index, hindex⟩ := List.mem_iff_getElem?.mp hi
    exact fun _ _ hl => h _ _ (.item hindex hl)
  · intro h path inner hl
    cases hl with
    | item hi hl => exact h _ (List.mem_of_getElem? hi) _ _ hl

theorem keysDistinct_of_isScalar {v : Value κ} (h : v.isScalar = true) : v.KeysDistinct := by
  intro path entries hl
  cases hl <;> cases h

end Value

/-! ## Values of one sort -/

theorem Instance.Reordered.refl (r : Instance κ) : r.Reordered r :=
  .intro rfl rfl rfl (List.forall₂_same.mpr fun _ _ => .refl _) (.refl _) rfl
    (List.forall₂_same.mpr fun _ _ => .refl _)

namespace Value

variable {v v' : Value κ}

theorem Reordered.of_map {entries : List (String × Value κ)} (h : (Value.map entries).Reordered v') :
    ∃ entries', v' = .map entries' ∧ Table.Reordered entries entries' := by
  cases h with
  | refl => exact ⟨entries, rfl, .refl entries⟩
  | map hp hkeys hvalues => exact ⟨_, rfl, _, hp, forall₂_pair_iff.mpr ⟨hkeys, hvalues⟩⟩

theorem Reordered.of_list {items : List (Value κ)} (h : (Value.list items).Reordered v') :
    ∃ items', v' = .list items' ∧ List.Forall₂ Reordered items items' := by
  cases h with
  | refl => exact ⟨items, rfl, List.forall₂_same.mpr fun _ _ => .refl _⟩
  | list hitems => exact ⟨_, rfl, hitems⟩

theorem Reordered.of_record {origin : Origin} {r : Instance κ}
    (h : (Value.record origin r).Reordered v') : ∃ r', v' = .record origin r' ∧ r.Reordered r' := by
  cases h with
  | refl => exact ⟨r, rfl, .refl r⟩
  | record hr => exact ⟨_, rfl, hr⟩

/-! ## What cannot be told apart -/

theorem Reordered.sameShape (h : v.Reordered v') : v.SameShape v' := by
  cases h <;> exact ⟨rfl, rfl, rfl⟩

/-- A failure tells of both values in the same words. -/
theorem Reordered.failure (h : v.Reordered v') (owner path expected : String) :
    Failure.ofValue owner path expected v' = Failure.ofValue owner path expected v := by
  cases h with
  | record hr =>
    cases hr with
    | intro hm =>
      simp [Failure.ofValue, summary, kind, Instance.className, hm]
  | _ => rfl

theorem Reordered.holds (h : v.Reordered v') (type : TypeName) : type.holds v' = type.holds v := by
  cases type with
  | keyword k => cases h <;> cases k <;> rfl
  | named className =>
    cases h with
    | record hr =>
      cases hr with
      | intro hm => simp [TypeName.holds, Instance.isInstanceOf, hm]
    | _ => rfl

/-- **A property accepts both values or neither.** -/
theorem Reordered.accepts (h : v.Reordered v') (property : Property κ) (flags : Flags) :
    property.accepts flags v' = property.accepts flags v := by
  have hholds := h.holds
  cases h with
  | refl => rfl
  | list hitems => exact Property.accepts_list_congr (hitems.imp fun _ _ h => h.holds)
  | map | record | collection => simp [Property.accepts, isNull, UnionType.holds, hholds]

theorem Reordered.keepsElement (h : v.Reordered v') (property : Property κ) :
    property.keepsElement v' = property.keepsElement v := by
  simp [Property.keepsElement, h.holds]

theorem Reordered.readInteger? (h : v.Reordered v') (property : Property κ) :
    property.readInteger? v' = property.readInteger? v := by
  cases h <;> rfl

end Value

end TypedRecords
