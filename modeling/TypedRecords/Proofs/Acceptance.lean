import Mathlib.Data.List.Forall2
import TypedRecords.Class.Property

/-!
# Acceptance

Stored flags hold no override of nullability, so what is accepted under them is what is accepted
under no flags at all (`Property.accepts_withoutTransient`).  A default is accepted, be it explicit
or implicit (`Property.accepts_of_default?`).
-/

namespace TypedRecords

/-! ## Flags without overrides -/

namespace Flags

theorem contains_withoutTransient_of_transient {flag : Flags}
    (h : ~~~transient.bits &&& flag.bits = 0) (hne : (0 : UInt16) ≠ flag.bits) (flags : Flags) :
    flags.withoutTransient.contains flag = false := by
  unfold contains withoutTransient difference
  rw [UInt16.and_assoc, h, UInt16.and_zero]
  exact beq_false_of_ne hne

@[simp] theorem withoutTransient_contains_nullable (flags : Flags) :
    flags.withoutTransient.contains nullable = false :=
  contains_withoutTransient_of_transient (by decide) (by decide) flags

@[simp] theorem withoutTransient_contains_notNullable (flags : Flags) :
    flags.withoutTransient.contains notNullable = false :=
  contains_withoutTransient_of_transient (by decide) (by decide) flags

end Flags

namespace Property

variable {κ : Type}

/-! ## Kept flags and no flags -/

/-- Flags without overrides accept what no flags at all accept. -/
theorem accepts_eq_of_kept {flags : Flags} (hn : flags.contains .nullable = false)
    (hnot : flags.contains .notNullable = false) (property : Property κ) (value : Value κ) :
    property.accepts flags value = property.accepts .none value := by
  have hnone : Flags.none.contains .notNullable = false ∧ Flags.none.contains .nullable = false := by
    decide
  unfold accepts acceptsNull
  rw [hn, hnot, hnone.1, hnone.2]

theorem accepts_withoutTransient (property : Property κ) (flags : Flags) (value : Value κ) :
    property.accepts flags.withoutTransient value = property.accepts .none value :=
  accepts_eq_of_kept (Flags.withoutTransient_contains_nullable flags)
    (Flags.withoutTransient_contains_notNullable flags) property value

theorem accepts_of_not_isNull {property : Property κ} {flags : Flags} {value : Value κ}
    (h : value.isNull = false) : property.accepts flags value = property.union.holds value := by
  simp [accepts, h]

theorem accepts_none_null (property : Property κ) :
    property.accepts .none (.null : Value κ) = property.union.isNullable := by
  have hnone : Flags.none.contains .notNullable = false ∧ Flags.none.contains .nullable = false := by
    decide
  simp [accepts, Value.isNull, acceptsNull, hnone.1, hnone.2]

end Property

/-! ## Values of a type -/

theorem TypeName.holds_list {κ : Type} (type : TypeName) (items : List (Value κ)) :
    type.holds (.list items) = (type.isKeyword .mixed || type.isKeyword .array) := by
  cases type with
  | keyword k => cases k <;> rfl
  | named className => rfl

namespace UnionType

variable {κ : Type}

theorem holds_of_plain {union : UnionType} {type : TypeName} (ht : type ∈ union.plain)
    {value : Value κ} (h : type.holds value = true) : union.holds value = true := by
  have hany : union.plain.any (·.holds value) = true := List.any_eq_true.mpr ⟨type, ht, h⟩
  simp [holds, hany]

theorem mem_plain_of_contains {union : UnionType} {k : Keyword} (h : union.contains k = true) :
    .keyword k ∈ union.plain := by
  obtain ⟨type, ht, hk⟩ := List.any_eq_true.mp h
  cases type with
  | keyword k' =>
    have : k' = k := by simpa [TypeName.isKeyword, TypeName.keyword?] using hk
    exact this ▸ ht
  | named className => simp [TypeName.isKeyword, TypeName.keyword?] at hk

theorem holds_list_iff {union : UnionType} {items : List (Value κ)} :
    union.holds (.list items) = true ↔ union.isMixed = true ∨ union.contains .array = true ∨
      ∃ type ∈ union.elements, ∀ item ∈ items, type.holds item = true := by
  have hplain : union.plain.any (·.holds (.list items)) = true ↔
      union.isMixed = true ∨ union.contains .array = true := by
    simp only [TypeName.holds_list, isMixed, contains, List.any_eq_true, Bool.or_eq_true, and_or_left,
      exists_or]
  unfold holds
  rw [Bool.or_eq_true, Bool.or_eq_true, hplain, ← or_assoc, or_self, or_assoc]
  simp only [List.any_eq_true, List.all_eq_true]

theorem holds_nil_of_isArray {union : UnionType} (h : union.isArray = true) :
    union.holds (.list [] : Value κ) = true := by
  rw [holds_list_iff]
  rcases Bool.or_eq_true_iff.mp h with harray | hlists
  · exact .inr (.inl harray)
  · cases he : union.elements with
    | nil => rw [he] at hlists; cases hlists
    | cons type rest => exact .inr (.inr ⟨type, List.mem_cons_self, nofun⟩)

end UnionType

namespace Property

variable {κ : Type} {property : Property κ} {flags : Flags} {value : Value κ}

/-! ## Lists -/

theorem accepts_list_iff {items : List (Value κ)} :
    property.accepts flags (.list items) = true ↔
      property.union.isMixed = true ∨ property.union.contains .array = true ∨
        ∃ type ∈ property.union.elements, ∀ item ∈ items, type.holds item = true := by
  rw [accepts_of_not_isNull rfl, UnionType.holds_list_iff]

theorem accepts_list_congr {items others : List (Value κ)}
    (h : List.Forall₂ (fun v w : Value κ => ∀ type : TypeName, type.holds w = type.holds v)
      items others) :
    property.accepts flags (.list others) = property.accepts flags (.list items) := by
  have hall : ∀ type : TypeName,
      (∀ w ∈ others, type.holds w = true) ↔ ∀ v ∈ items, type.holds v = true := by
    intro type
    induction h with
    | nil => exact Iff.rfl
    | cons hitem _ ih => rw [List.forall_mem_cons, List.forall_mem_cons, hitem type, ih]
  rw [Bool.eq_iff_iff, accepts_list_iff, accepts_list_iff]
  simp only [hall]

/-! ## Defaults -/

theorem accepts_of_implicitDefault? (h : property.implicitDefault? flags = some value) :
    property.accepts .none value = true := by
  unfold implicitDefault? at h
  split at h
  · next ha =>
    cases h
    exact UnionType.holds_nil_of_isArray (Bool.and_eq_true_iff.mp ha).1
  · split at h
    · next hb =>
      cases h
      exact UnionType.holds_of_plain
        (UnionType.mem_plain_of_contains (Bool.and_eq_true_iff.mp hb).1) rfl
    · split at h
      · next hn =>
        cases h
        rw [accepts_none_null]
        exact (Bool.and_eq_true_iff.mp hn).1
      · cases h

/-- **A default is accepted**, provided that the explicit one is. -/
theorem accepts_of_default?
    (hd : ∀ explicit, property.default = some explicit → property.accepts .none explicit = true)
    (h : property.default? flags = some value) : property.accepts .none value = true := by
  unfold default? at h
  cases hexplicit : property.default with
  | some explicit =>
    rw [hexplicit] at h
    cases h
    exact hd _ hexplicit
  | none =>
    rw [hexplicit] at h
    exact accepts_of_implicitDefault? h

end Property

end TypedRecords
