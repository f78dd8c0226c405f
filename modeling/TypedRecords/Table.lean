/-!
# Tables

A table is a list of keyed entries in the order in which the keys were first given. Writing a key
that is already there replaces its value and keeps its place, so a table built with `Table.put`
never holds a key twice.

* `Table.get?_put`: what a write does to a later look-up.
* `Table.keys_put`: a write adds at most its own key, at the end.
-/

namespace TypedRecords

/-- Keyed entries in order of first insertion. -/
abbrev Table (α : Type) := List (String × α)

namespace Table

variable {α β : Type}

/-- The value under `key`. -/
def get? (table : Table α) (key : String) : Option α :=
  table.lookup key

/-- The keys, in order. -/
def keys (table : Table α) : List String :=
  table.map Prod.fst

/-- Whether `key` has a value. -/
def has (table : Table α) (key : String) : Bool :=
  (get? table key).isSome

/-- Writes `value` under `key`: in place if the key is known, at the end otherwise. -/
def put : Table α → String → α → Table α
  | [], key, value => [(key, value)]
  | (k, v) :: rest, key, value =>
    if k = key then (k, value) :: rest else (k, v) :: put rest key value

/-- Writes the entries of `updates` one by one. -/
def putAll (table : Table α) (updates : List (String × α)) : Table α :=
  updates.foldl (fun t entry => put t entry.1 entry.2) table

/-- The table of a list of entries: a repeated key keeps its first place and its last value. -/
def ofEntries (entries : List (String × α)) : Table α :=
  putAll [] entries

/-- No key occurs twice. -/
def Distinct (table : Table α) : Prop :=
  (keys table).Nodup

/-! ## Look-ups after a write -/

@[simp] theorem get?_nil (key : String) : get? ([] : Table α) key = none := rfl

theorem get?_cons (k : String) (v : α) (rest : Table α) (key : String) :
    get? ((k, v) :: rest) key = if key = k then some v else get? rest key := by
  unfold get?
  rw [List.lookup_cons]
  by_cases h : key = k
  · simp [h]
  · simp [h, beq_eq_false_iff_ne.mpr h]

theorem get?_put (table : Table α) (key other : String) (value : α) :
    get? (put table key value) other = if other = key then some value else get? table other := by
  induction table with
  | nil => simp [put, get?_cons]
  | cons entry rest ih =>
    obtain ⟨k, v⟩ := entry
    by_cases hk : k = key
    · subst hk
      by_cases ho : other = k <;> simp [put, get?_cons, ho]
    · by_cases ho : other = k
      · subst ho
        simp [put, get?_cons, hk]
      · simp [put, get?_cons, hk, ho, ih]

theorem keys_put (table : Table α) (key : String) (value : α) :
    keys (put table key value) =
      if key ∈ keys table then keys table else keys table ++ [key] := by
  induction table with
  | nil => simp [put, keys]
  | cons entry rest ih =>
    obtain ⟨k, v⟩ := entry
    by_cases hk : k = key
    · subst hk
      simp [put, keys]
    · have hk' : key ≠ k := fun h => hk h.symm
      by_cases hm : key ∈ keys rest
      · simp_all [put, keys]
      · simp_all [put, keys]

end Table

end TypedRecords
