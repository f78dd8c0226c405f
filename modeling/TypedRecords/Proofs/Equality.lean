import Mathlib.Data.List.Perm.Subperm
import TypedRecords.Proofs.Reordering
import TypedRecords.Value.Equality

/-!
# Equality of values

Equality goes through two values side by side: through lists item by item, through maps and through
the stored properties of instances key by key.  It does not go into what both share, an instance or
an object, and it compares numbers as doubles do, so that a NaN is not even equal to itself.

Symmetry and transitivity rest on tables that hold no key twice.  If every key of one table is found
in another one, and both are of one length, then there are no other keys in that one: a look from one
side is enough.

* `Table.Rel`, `Table.rel_iff`: tables compared key by key, from both sides and from one.
* `Value.EqualBy`, `Value.equal_iff`: **equality is one step of comparison, with equality of the
  members.**
* `Value.equal_comm`, `Value.equal_trans`, `Value.equal_self_iff`: symmetry, transitivity, and
  reflexivity where there is no NaN.
* `Value.Reordered.equal_congr`: **the order of keys does not matter.**
-/

namespace TypedRecords

variable {κ : Type}

/-! ## Tables key by key -/

namespace Table

variable {α β : Type} {R : α → β → Prop} {table : Table α} {other : Table β}

/-- The tables have the same keys, and under each of them values that are related. -/
structure Rel (R : α → β → Prop) (table : Table α) (other : Table β) : Prop where
  forth : ∀ key a, get? table key = some a → ∃ b, get? other key = some b ∧ R a b
  back : ∀ key b, get? other key = some b → ∃ a, get? table key = some a ∧ R a b

theorem exists_get?_iff {key : String} : (∃ a, get? table key = some a) ↔ key ∈ keys table := by
  rw [← Option.ne_none_iff_exists', ne_eq, get?_eq_none_iff, not_not]

theorem Rel.mem_keys_iff (h : Rel R table other) (key : String) :
    key ∈ keys table ↔ key ∈ keys other := by
  rw [← exists_get?_iff, ← exists_get?_iff]
  constructor
  · rintro ⟨a, ha⟩
    exact (h.forth key a ha).imp fun _ => And.left
  · rintro ⟨b, hb⟩
    exact (h.back key b hb).imp fun _ => And.left

/-- **A look from one side is enough**, if no key is there twice and there are as many entries on
either side. -/
theorem rel_iff (hd : Distinct table) (hd' : Distinct other) : Rel R table other ↔
    table.length = other.length ∧
      ∀ entry ∈ table, ∃ b, get? other entry.1 = some b ∧ R entry.2 b := by
  constructor
  · intro h
    have hperm : (keys table).Perm (keys other) :=
      (List.perm_ext_iff_of_nodup hd hd').mpr h.mem_keys_iff
    exact ⟨by simpa [keys] using hperm.length_eq,
      fun entry he => h.forth entry.1 entry.2 (get?_of_mem hd he)⟩
  · rintro ⟨hlength, hall⟩
    have hforth : ∀ key a, get? table key = some a → ∃ b, get? other key = some b ∧ R a b :=
      fun key a ha => hall (key, a) (mem_of_get? ha)
    have hsub : keys table ⊆ keys other := by
      intro key hk
      obtain ⟨a, ha⟩ := exists_get?_iff.mpr hk
      obtain ⟨b, hb, -⟩ := hforth key a ha
      exact exists_get?_iff.mp ⟨b, hb⟩
    -- as many keys, and all of them in the other table: it has no others
    have hperm : (keys table).Perm (keys other) :=
      (List.subperm_of_subset hd hsub).perm_of_length_le (by simp [keys, hlength])
    refine ⟨hforth, fun key b hb => ?_⟩
    obtain ⟨a, ha⟩ := exists_get?_iff.mpr (hperm.mem_iff.mpr (exists_get?_iff.mp ⟨b, hb⟩))
    obtain ⟨b', hb', hab⟩ := hforth key a ha
    rw [hb] at hb'
    cases hb'
    exact ⟨a, ha, hab⟩

theorem mem_values_of_get? {key : String} {a : α} (h : get? table key = some a) :
    a ∈ table.map Prod.snd :=
  List.mem_map_of_mem (mem_of_get? h)

theorem Rel.symm {R : α → α → Prop} {table other : Table α} (h : Rel R table other)
    (hsymm : ∀ a ∈ table.map Prod.snd, ∀ b ∈ other.map Prod.snd, R a b → R b a) :
    Rel R other table := by
  constructor
  · intro key b hb
    obtain ⟨a, ha, hab⟩ := h.back key b hb
    exact ⟨a, ha, hsymm a (mem_values_of_get? ha) b (mem_values_of_get? hb) hab⟩
  · intro key a ha
    obtain ⟨b, hb, hab⟩ := h.forth key a ha
    exact ⟨b, hb, hsymm a (mem_values_of_get? ha) b (mem_values_of_get? hb) hab⟩

theorem Rel.trans {R : α → α → Prop} {table other third : Table α} (h : Rel R table other)
    (h' : Rel R other third) (htrans : ∀ a ∈ table.map Prod.snd, ∀ b ∈ other.map Prod.snd,
      ∀ c ∈ third.map Prod.snd, R a b → R b c → R a c) : Rel R table third := by
  constructor
  · intro key a ha
    obtain ⟨b, hb, hab⟩ := h.forth key a ha
    obtain ⟨c, hc, hbc⟩ := h'.forth key b hb
    exact ⟨c, hc, htrans a (mem_values_of_get? ha) b (mem_values_of_get? hb) c
      (mem_values_of_get? hc) hab hbc⟩
  · intro key c hc
    obtain ⟨b, hb, hbc⟩ := h'.back key c hc
    obtain ⟨a, ha, hab⟩ := h.back key b hb
    exact ⟨a, ha, htrans a (mem_values_of_get? ha) b (mem_values_of_get? hb) c
      (mem_values_of_get? hc) hab hbc⟩

end Table

namespace Value

variable {u v w : Value κ}

/-! ## What equality goes through -/

/-- The table that equality goes through: the entries of a map, the properties of an instance. -/
def table : Value κ → Table (Value κ)
  | .map entries => entries
  | .record _ r => r.stored
  | _ => []

/-- The values that equality goes on to.  Nothing that an object holds is among them. -/
def members : Value κ → List (Value κ)
  | .list items => items
  | v => v.table.map Prod.snd

/-- Going through the first value, equality may meet the second. -/
inductive Contains : Value κ → Value κ → Prop
  | self (v : Value κ) : Contains v v
  | member {u v w : Value κ} : u ∈ v.members → Contains u w → Contains v w

/-- No table that equality goes through holds a key twice. -/
def Tabular (v : Value κ) : Prop :=
  ∀ w, v.Contains w → Table.Distinct w.table

/-- Every instance that equality meets is the one that there is under its origin. -/
def LivesIn (instances : Origin → Option (Instance κ)) (v : Value κ) : Prop :=
  ∀ origin r, v.Contains (.record origin r) → instances origin = some r

/-- There is no NaN in the value, not counting what is within instances and objects. -/
def NumbersOnly (v : Value κ) : Prop :=
  ∀ path x, Leads path v (.float x) → x.isNaN = false

variable {instances : Origin → Option (Instance κ)}

theorem tabular_iff :
    v.Tabular ↔ Table.Distinct v.table ∧ ∀ u ∈ v.members, u.Tabular := by
  constructor
  · exact fun h => ⟨h v (.self v), fun u hu w hw => h w (.member hu hw)⟩
  · rintro ⟨hd, hmembers⟩ w hw
    cases hw with
    | self => exact hd
    | member hu hw => exact hmembers _ hu w hw

theorem livesIn_iff : v.LivesIn instances ↔
    (∀ origin r, v = .record origin r → instances origin = some r) ∧
      ∀ u ∈ v.members, u.LivesIn instances := by
  constructor
  · intro h
    exact ⟨fun origin r hv => h origin r (hv ▸ .self v),
      fun u hu origin r hr => h origin r (.member hu hr)⟩
  · rintro ⟨hself, hmembers⟩ origin r hr
    cases hr with
    | self => exact hself origin r rfl
    | member hu hr => exact hmembers _ hu origin r hr

theorem numbersOnly_list_iff {items : List (Value κ)} :
    (Value.list items).NumbersOnly ↔ ∀ item ∈ items, item.NumbersOnly := by
  constructor
  · intro h item hi path x hl
    obtain ⟨index, hindex⟩ := List.mem_iff_getElem?.mp hi
    exact h _ x (.item hindex hl)
  · intro h path x hl
    cases hl with
    | item hi hl => exact h _ (List.mem_of_getElem? hi) _ x hl

theorem numbersOnly_map_iff {entries : List (String × Value κ)} :
    (Value.map entries).NumbersOnly ↔ ∀ entry ∈ entries, entry.2.NumbersOnly := by
  constructor
  · exact fun h entry he path x hl => h _ x (.key he hl)
  · intro h path x hl
    cases hl with
    | key he hl => exact h _ he _ x hl

theorem sizeOf_lt_of_mem_members (h : u ∈ v.members) : sizeOf u < sizeOf v := by
  cases v with
  | list items => exact sizeOf_lt_of_mem_list h
  | map entries =>
    obtain ⟨entry, he, rfl⟩ := List.mem_map.mp h
    exact sizeOf_lt_of_mem_map he
  | record origin r =>
    obtain ⟨entry, he, rfl⟩ := List.mem_map.mp h
    exact (r.sizeOf_lt_of_mem_stored he).trans (sizeOf_lt_record origin r)
  | _ => cases h

/-- What holds of a value if it holds of its members holds of every value. -/
theorem members_induction {P : Value κ → Prop} (h : ∀ v, (∀ u ∈ v.members, P u) → P v)
    (v : Value κ) : P v := by
  induction hn : sizeOf v using Nat.strongRecOn generalizing v with
  | ind n ih =>
    subst hn
    exact h v fun u hu => ih _ (sizeOf_lt_of_mem_members hu) u rfl

/-! ## Step by step -/

/-- The values are equal as far as they show by themselves, if `R` tells which members are. -/
inductive EqualBy (R : Value κ → Value κ → Prop) : Value κ → Value κ → Prop
  | null : EqualBy R .null .null
  | bool (b : Bool) : EqualBy R (.bool b) (.bool b)
  | int (n : Int64) : EqualBy R (.int n) (.int n)
  | float {x y : Double} : x.ieeeEq y = true → EqualBy R (.float x) (.float y)
  | text (s : String) : EqualBy R (.text s) (.text s)
  | list {items others : List (Value κ)} : List.Forall₂ R items others →
      EqualBy R (.list items) (.list others)
  | map {entries others : List (String × Value κ)} : Table.Rel R entries others →
      EqualBy R (.map entries) (.map others)
  | same (origin : Origin) (r r' : Instance κ) : EqualBy R (.record origin r) (.record origin r')
  | record (origin origin' : Origin) {r r' : Instance κ} : r.className = r'.className →
      Table.Rel R r.stored r'.stored → EqualBy R (.record origin r) (.record origin' r')
  | object (origin : Origin) (o o' : Object κ) : EqualBy R (.object origin o) (.object origin o')

theorem equalItems_iff {items others : List (Value κ)} : equalItems items others = true ↔
    List.Forall₂ (fun item other => item.equal other = true) items others := by
  induction items generalizing others with
  | nil => cases others <;> simp [equalItems]
  | cons item rest ih =>
    cases others with
    | nil => simp [equalItems]
    | cons other others => rw [equalItems, Bool.and_eq_true, List.forall₂_cons, ih]

theorem equalEntries_iff {entries others : List (String × Value κ)} :
    equalEntries entries others = true ↔ ∀ entry ∈ entries, ∃ other,
      Table.get? others entry.1 = some other ∧ entry.2.equal other = true := by
  induction entries with
  | nil => simp [equalEntries]
  | cons entry rest ih =>
    obtain ⟨key, value⟩ := entry
    rw [equalEntries, Bool.and_eq_true, List.forall_mem_cons, ih]
    refine and_congr_left fun _ => ?_
    dsimp only
    cases Table.get? others key with
    | none => simp
    | some other => simp

/-- The comparison that maps and instances share. -/
def equalTables (table other : Table (Value κ)) : Bool :=
  table.length == other.length && equalEntries table other

theorem equalTables_iff {table other : Table (Value κ)} (hd : Table.Distinct table)
    (hd' : Table.Distinct other) : equalTables table other = true ↔
      Table.Rel (fun a b => a.equal b = true) table other := by
  rw [equalTables, Bool.and_eq_true, beq_iff_eq, equalEntries_iff, Table.rel_iff hd hd']

theorem equal_map (entries others : List (String × Value κ)) :
    (Value.map entries).equal (.map others) = equalTables entries others := by
  rw [equal, equalTables]

theorem equal_record (origin origin' : Origin) (r r' : Instance κ) :
    (Value.record origin r).equal (.record origin' r') =
      (origin == origin' || r.className == r'.className && equalTables r.stored r'.stored) := by
  obtain ⟨metadata, stored, tracked, flags⟩ := r
  rw [equal, Instance.equal, equalTables, Bool.and_assoc]
  rfl

/-- **Equality is one step of comparison, with equality of the members.** -/
theorem equal_iff (hv : Table.Distinct v.table) (hw : Table.Distinct w.table) :
    v.equal w = true ↔ EqualBy (fun a b => a.equal b = true) v w := by
  constructor
  · intro h
    cases v with
    | null =>
      cases w with
      | null => exact .null
      | _ => simp [equal] at h
    | bool b =>
      cases w with
      | bool b' => rw [equal, beq_iff_eq] at h; exact h ▸ .bool b
      | _ => simp [equal] at h
    | int n =>
      cases w with
      | int n' => rw [equal, beq_iff_eq] at h; exact h ▸ .int n
      | _ => simp [equal] at h
    | float x =>
      cases w with
      | float y => rw [equal] at h; exact .float h
      | _ => simp [equal] at h
    | text s =>
      cases w with
      | text s' => rw [equal, beq_iff_eq] at h; exact h ▸ .text s
      | _ => simp [equal] at h
    | list items =>
      cases w with
      | list others => rw [equal, equalItems_iff] at h; exact .list h
      | _ => simp [equal] at h
    | map entries =>
      cases w with
      | map others => rw [equal_map] at h; exact .map ((equalTables_iff hv hw).mp h)
      | _ => simp [equal] at h
    | record origin r =>
      cases w with
      | record origin' r' =>
        rw [equal_record, Bool.or_eq_true, beq_iff_eq, Bool.and_eq_true, beq_iff_eq] at h
        rcases h with rfl | ⟨hname, htable⟩
        · exact .same _ _ _
        · exact .record _ _ hname ((equalTables_iff hv hw).mp htable)
      | _ => simp [equal] at h
    | object origin o =>
      cases w with
      | object origin' o' => rw [equal, beq_iff_eq] at h; exact h ▸ .object origin o o'
      | _ => simp [equal] at h
  · intro h
    cases h with
    | float h => rwa [equal]
    | list h => rwa [equal, equalItems_iff]
    | map h =>
      rw [equal_map]
      exact (equalTables_iff hv hw).mpr h
    | same origin r r' => rw [equal_record, beq_self_eq_true, Bool.true_or]
    | record origin origin' hname h =>
      rw [equal_record, Bool.or_eq_true, Bool.and_eq_true, beq_iff_eq, beq_iff_eq]
      exact .inr ⟨hname, (equalTables_iff hv hw).mpr h⟩
    | _ => simp [equal]

variable {R : Value κ → Value κ → Prop}

theorem EqualBy.symm (h : EqualBy R v w)
    (hsymm : ∀ a ∈ v.members, ∀ b ∈ w.members, R a b → R b a) : EqualBy R w v := by
  cases h with
  | null => exact .null
  | bool b => exact .bool b
  | int n => exact .int n
  | float h => exact .float (Double.ieeeEq_symm h)
  | text s => exact .text s
  | list h => exact .list (forall₂_symm h hsymm)
  | map h => exact .map (h.symm hsymm)
  | same origin r r' => exact .same origin r' r
  | record origin origin' hname h => exact .record origin' origin hname.symm (h.symm hsymm)
  | object origin o o' => exact .object origin o' o

/-- Two steps make one.  Nothing is known of the members of instances with one origin, but these
instances are the same. -/
theorem EqualBy.trans (hu : u.LivesIn instances) (hv : v.LivesIn instances)
    (hw : w.LivesIn instances) (h : EqualBy R u v) (h' : EqualBy R v w)
    (htrans : ∀ a ∈ u.members, ∀ b ∈ v.members, ∀ c ∈ w.members, R a b → R b c → R a c) :
    EqualBy R u w := by
  have known : ∀ {origin : Origin} {r r' : Instance κ}, instances origin = some r →
      instances origin = some r' → r = r' :=
    fun hr hr' => Option.some.inj (hr.symm.trans hr')
  cases h with
  | null | bool | int | text => exact h'
  | float h =>
    cases h' with
    | float h' => exact .float (Double.ieeeEq_trans h h')
  | list h =>
    cases h' with
    | list h' => exact .list (forall₂_trans h h' htrans)
  | map h =>
    cases h' with
    | map h' => exact .map (h.trans h' htrans)
  | object origin o o' =>
    cases h' with
    | object _ _ o'' => exact .object origin o o''
  | same origin r r' =>
    obtain rfl := known (hu origin r (.self _)) (hv origin r' (.self _))
    exact h'
  | @record origin origin' r r' hname h =>
    cases h' with
    | same _ _ r'' =>
      obtain rfl := known (hv origin' r' (.self _)) (hw origin' r'' (.self _))
      exact .record origin origin' hname h
    | record _ origin'' hname' h' =>
      exact .record origin origin'' (hname.trans hname') (h.trans h' htrans)

/-! ## Symmetry and transitivity -/

theorem equal_of_equal (hv : v.Tabular) (hw : w.Tabular) (h : v.equal w = true) :
    w.equal v = true := by
  induction v using members_induction generalizing w with
  | h v ih =>
    obtain ⟨hdv, hmv⟩ := tabular_iff.mp hv
    obtain ⟨hdw, hmw⟩ := tabular_iff.mp hw
    have hstep := (equal_iff hdv hdw).mp h
    exact (equal_iff hdw hdv).mpr
      (hstep.symm fun a ha b hb hab => ih a ha (hmv a ha) (hmw b hb) hab)

/-- **Equality is symmetric.** -/
theorem equal_comm (hv : v.Tabular) (hw : w.Tabular) : v.equal w = w.equal v :=
  Bool.eq_iff_iff.mpr ⟨equal_of_equal hv hw, equal_of_equal hw hv⟩

/-- **Equality is transitive.** -/
theorem equal_trans (hu : u.Tabular) (hv : v.Tabular) (hw : w.Tabular)
    (hlu : u.LivesIn instances) (hlv : v.LivesIn instances) (hlw : w.LivesIn instances)
    (h : u.equal v = true) (h' : v.equal w = true) : u.equal w = true := by
  induction u using members_induction generalizing v w with
  | h u ih =>
    obtain ⟨hdu, hmu⟩ := tabular_iff.mp hu
    obtain ⟨hdv, hmv⟩ := tabular_iff.mp hv
    obtain ⟨hdw, hmw⟩ := tabular_iff.mp hw
    have hstep := (equal_iff hdu hdv).mp h
    have hstep' := (equal_iff hdv hdw).mp h'
    refine (equal_iff hdu hdw).mpr (hstep.trans hlu hlv hlw hstep' fun a ha b hb c hc hab hbc => ?_)
    exact ih a ha (hmu a ha) (hmv b hb) (hmw c hc) ((livesIn_iff.mp hlu).2 a ha)
      ((livesIn_iff.mp hlv).2 b hb) ((livesIn_iff.mp hlw).2 c hc) hab hbc

/-! ## Reflexivity -/

/-- **A value is equal to itself just if there is no NaN in it**, instances and objects apart. -/
theorem equal_self_iff (hd : v.KeysDistinct) : v.equal v = true ↔ v.NumbersOnly := by
  induction v using members_induction with
  | h v ih =>
    cases v with
    | float x =>
      rw [equal, Double.ieeeEq_self, Bool.not_eq_true']
      refine ⟨fun h path y hl => ?_, fun h => h [] x .here⟩
      cases hl
      exact h
    | list items =>
      rw [equal, equalItems_iff, List.forall₂_same, numbersOnly_list_iff]
      exact forall₂_congr fun item hi => ih item hi (keysDistinct_list_iff.mp hd item hi)
    | map entries =>
      obtain ⟨hkeys, hvalues⟩ := keysDistinct_map_iff.mp hd
      rw [equal, beq_self_eq_true, Bool.true_and, equalEntries_iff, numbersOnly_map_iff]
      refine forall₂_congr fun entry he => ?_
      rw [← ih entry.2 (List.mem_map_of_mem he) (hvalues entry he), Table.get?_of_mem hkeys he]
      simp
    | _ =>
      refine iff_of_true (by simp [equal]) fun path x hl => ?_
      cases hl

/-! ## The order of keys -/

theorem equalItems_congr {items items' : List (Value κ)}
    (h : List.Forall₂ (fun a a' => ∀ w, a.equal w = a'.equal w) items items')
    (others : List (Value κ)) : equalItems items others = equalItems items' others := by
  induction h generalizing others with
  | nil => rfl
  | cons hab _ ih =>
    cases others with
    | nil => simp [equalItems]
    | cons other others => rw [equalItems, equalItems, hab other, ih others]

theorem equalEntries_congr {entries entries' : List (String × Value κ)}
    (h : List.Forall₂ (fun e e' => e.1 = e'.1 ∧ ∀ w, e.2.equal w = e'.2.equal w) entries entries')
    (others : List (String × Value κ)) :
    equalEntries entries others = equalEntries entries' others := by
  induction h with
  | nil => rfl
  | @cons e e' _ _ he _ ih =>
    obtain ⟨key, value⟩ := e
    obtain ⟨key', value'⟩ := e'
    obtain ⟨rfl, hvalue⟩ : key = key' ∧ ∀ w, value.equal w = value'.equal w := he
    rw [equalEntries, equalEntries, ih]
    simp only [hvalue]

theorem equalTables_congr {table middle table' : Table (Value κ)} (hperm : table.Perm middle)
    (h : List.Forall₂ (fun e e' => e.1 = e'.1 ∧ ∀ w, e.2.equal w = e'.2.equal w) middle table')
    (other : Table (Value κ)) : equalTables table other = equalTables table' other := by
  have hmiddle : equalEntries table other = equalEntries middle other := by
    rw [Bool.eq_iff_iff, equalEntries_iff, equalEntries_iff]
    exact forall_congr' fun entry => by rw [hperm.mem_iff]
  rw [equalTables, equalTables, hmiddle, hperm.length_eq, h.length_eq, equalEntries_congr h]

theorem Reordered.equal_left {v' : Value κ} (h : v.Reordered v') (w : Value κ) :
    v.equal w = v'.equal w := by
  induction v using members_induction generalizing v' w with
  | h v ih =>
    -- the hypothesis, for entries instead of members
    have hentries : ∀ {entries entries' : List (String × Value κ)},
        (∀ entry ∈ entries, entry.2 ∈ v.members) →
        List.Forall₂ (fun e e' => e.1 = e'.1 ∧ Reordered e.2 e'.2) entries entries' →
        List.Forall₂ (fun e e' => e.1 = e'.1 ∧ ∀ w, e.2.equal w = e'.2.equal w) entries entries' :=
      fun hmem hall => ((List.forall₂_and_left _ _).mpr ⟨hmem, hall⟩).imp
        fun e e' ⟨he, hkey, hvalue⟩ => ⟨hkey, ih e.2 he hvalue⟩
    cases h with
    | refl => rfl
    | @list items items' hitems =>
      have hsame : List.Forall₂ (fun a a' => ∀ w, a.equal w = a'.equal w) items items' :=
        ((List.forall₂_and_left _ _).mpr ⟨fun a ha => ha, hitems⟩).imp
          fun a a' ⟨ha, hreordered⟩ => ih a ha hreordered
      cases w with
      | list others => rw [equal, equal, equalItems_congr hsame]
      | _ => simp [equal]
    | @map entries middle entries' hperm hkeys hvalues =>
      have hsame := hentries (fun entry he => List.mem_map_of_mem (hperm.mem_iff.mpr he))
        (forall₂_pair_iff.mpr ⟨hkeys, hvalues⟩)
      cases w with
      | map others => rw [equal_map, equal_map, equalTables_congr hperm hsame]
      | _ => simp [equal]
    | @record origin r r' hr =>
      cases hr with
      | intro hm _ hkeys hvalues =>
        have hsame : List.Forall₂ (fun e e' => e.1 = e'.1 ∧ ∀ w, e.2.equal w = e'.2.equal w)
            r.stored r'.stored :=
          hentries (fun entry he => List.mem_map_of_mem he)
            (forall₂_pair_iff.mpr ⟨hkeys, hvalues⟩)
        have hname : r.className = r'.className := congrArg Metadata.name hm
        cases w with
        | record origin' other =>
          rw [equal_record, equal_record, hname, equalTables_congr (.refl _) hsame]
        | _ => simp [equal]
    | collection => cases w <;> simp [equal]

/-- **The order of keys does not matter**, on either side. -/
theorem Reordered.equal_congr {v' w' : Value κ} (hv' : v'.Tabular) (hw : w.Tabular)
    (hw' : w'.Tabular) (h : v.Reordered v') (h' : w.Reordered w') : v.equal w = v'.equal w' := by
  calc v.equal w = v'.equal w := h.equal_left w
    _ = w.equal v' := equal_comm hv' hw
    _ = w'.equal v' := h'.equal_left v'
    _ = v'.equal w' := equal_comm hw' hv'

/-- **Equality is a partial equivalence.**  Over values whose tables hold no key twice and whose
instances are known by their origins it is symmetric and transitive.  A value is equal to itself just
if there is no NaN in it, instances and objects apart; and the order of keys does not matter. -/
theorem equal_partialEquivalence :
    (∀ v w : Value κ, v.Tabular → w.Tabular → v.equal w = w.equal v) ∧
    (∀ (instances : Origin → Option (Instance κ)) (u v w : Value κ),
      u.Tabular → v.Tabular → w.Tabular →
      u.LivesIn instances → v.LivesIn instances → w.LivesIn instances →
      u.equal v = true → v.equal w = true → u.equal w = true) ∧
    (∀ v : Value κ, v.KeysDistinct →
      (v.equal v = true ↔ ∀ path x, Leads path v (.float x) → x.isNaN = false)) ∧
    ∀ v v' w w' : Value κ, v.Tabular → v'.Tabular → w.Tabular → w'.Tabular →
      v.Reordered v' → w.Reordered w' → v.equal w = v'.equal w' :=
  ⟨fun _ _ hv hw => equal_comm hv hw,
    fun _ _ _ _ hu hv hw hlu hlv hlw h h' => equal_trans hu hv hw hlu hlv hlw h h',
    fun _ hd => equal_self_iff hd,
    fun _ _ _ _ _ hv' hw hw' h h' => h.equal_congr hv' hw hw' h'⟩

end Value

namespace Atlas

/-- A station at a spring. Its gauge is broken. -/
def station : Instance Empty where
  metadata := ⟨"Station", 0, "Station", [], []⟩
  stored := [("level", .float .nan)]
  tracked := []
  flags := .none

/-- A spring at the given height, and the station there. -/
def spring (height : Double) : Value Empty :=
  .map [("height", .float height), ("station", .record (.given 0) station)]

/-- The same in another order. -/
def springTurned (height : Double) : Value Empty :=
  .map [("station", .record (.given 0) station), ("height", .float height)]

theorem springs_compared :
    (spring ⟨0⟩).equal (spring ⟨0x8000000000000000⟩) = true ∧
      (spring ⟨0⟩).equal (springTurned ⟨0⟩) = true ∧
      (springTurned ⟨0⟩).equal (spring ⟨0⟩) = true ∧
      (spring ⟨0⟩).equal (spring ⟨0⟩) = true ∧ ¬(spring .nan).equal (spring .nan) = true := by
  have hfloat : ∀ x, (Value.float x : Value Empty).Tabular ∧
      (Value.float x : Value Empty).LivesIn fun _ => some station :=
    fun x => ⟨Value.tabular_iff.mpr ⟨List.nodup_nil, nofun⟩, Value.livesIn_iff.mpr ⟨nofun, nofun⟩⟩
  have hstation : (Value.record (.given 0) station).Tabular ∧
      (Value.record (.given 0) station).LivesIn fun _ => some station := by
    refine ⟨Value.tabular_iff.mpr ⟨List.nodup_singleton "level", ?_⟩,
      Value.livesIn_iff.mpr ⟨fun _ _ h => by cases h; rfl, ?_⟩⟩
    · exact List.forall_mem_singleton.mpr (hfloat .nan).1
    · exact List.forall_mem_singleton.mpr (hfloat .nan).2
  have hspring : ∀ x, (spring x).Tabular ∧ (spring x).LivesIn fun _ => some station := by
    refine fun x => ⟨Value.tabular_iff.mpr ⟨?_, ?_⟩, Value.livesIn_iff.mpr ⟨nofun, ?_⟩⟩
    · exact (by decide : ["height", "station"].Nodup)
    · exact List.forall_mem_cons.mpr ⟨(hfloat x).1, List.forall_mem_singleton.mpr hstation.1⟩
    · exact List.forall_mem_cons.mpr ⟨(hfloat x).2, List.forall_mem_singleton.mpr hstation.2⟩
  have hturned : ∀ x, (springTurned x).Tabular ∧
      (springTurned x).LivesIn fun _ => some station := by
    refine fun x => ⟨Value.tabular_iff.mpr ⟨?_, ?_⟩, Value.livesIn_iff.mpr ⟨nofun, ?_⟩⟩
    · exact (by decide : ["station", "height"].Nodup)
    · exact List.forall_mem_cons.mpr ⟨hstation.1, List.forall_mem_singleton.mpr (hfloat x).1⟩
    · exact List.forall_mem_cons.mpr ⟨hstation.2, List.forall_mem_singleton.mpr (hfloat x).2⟩
  have hkeys : ∀ x, (spring x).KeysDistinct := by
    have hrecord : (Value.record (.given 0) station).KeysDistinct := by
      intro path entries hl
      cases hl
    intro x
    refine Value.keysDistinct_map_iff.mpr ⟨(by decide : ["height", "station"].Nodup), ?_⟩
    exact List.forall_mem_cons.mpr
      ⟨Value.keysDistinct_of_isScalar rfl, List.forall_mem_singleton.mpr hrecord⟩
  have hturn : ∀ x, (spring x).Reordered (springTurned x) := fun x =>
    .map (.swap _ _ _) rfl (List.forall₂_same.mpr fun _ _ => .refl _)
  obtain ⟨hsymm, htrans, hself, horder⟩ := @Value.equal_partialEquivalence Empty
  have hsign : (spring ⟨0⟩).equal (spring ⟨0x8000000000000000⟩) = true := by decide +kernel
  have hback : (spring ⟨0x8000000000000000⟩).equal (springTurned ⟨0⟩) = true := by
    rw [← horder _ _ _ _ (hspring _).1 (hspring _).1 (hspring _).1 (hturned _).1 (.refl _) (hturn _),
      hsymm _ _ (hspring _).1 (hspring _).1]
    exact hsign
  have hthere := htrans _ _ _ _ (hspring _).1 (hspring _).1 (hturned _).1 (hspring _).2 (hspring _).2
    (hturned _).2 hsign hback
  refine ⟨hsign, hthere, ?_, (hself _ (hkeys _)).mpr ?_, fun h => ?_⟩
  · rw [hsymm _ _ (hturned _).1 (hspring _).1]
    exact hthere
  · refine Value.numbersOnly_map_iff.mpr
      (List.forall_mem_cons.mpr ⟨?_, List.forall_mem_singleton.mpr ?_⟩)
    · intro path x hl
      cases hl
      rfl
    · intro path x hl
      cases hl
  · have hnan := (hself _ (hkeys _)).mp h [.property "height"] .nan
      (.key List.mem_cons_self .here)
    cases hnan

end Atlas

end TypedRecords
