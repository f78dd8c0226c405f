import TypedRecords.Instance.Access
import TypedRecords.Proofs.Outcomes

/-!
# What an instance settles on

A property settles on what was given for it, cast, or else on its default.  So what an instance
holds, and what is missing, can be told from its input.

* `Construction.stored?_assembled`: the instance holds what its properties settle on.
* `Construction.CastsTo`: input that has been cast.  `CastsTo.settled?_of_supplied` and
  `CastsTo.settled?_of_not_supplied` are the two cases.
* `Construction.CastsTo.unsettled_eq_lacking`: **what is missing can be told from the input.**
-/

namespace TypedRecords

variable {κ : Type}

namespace Construction

variable {bench : Workbench κ} {m : Metadata κ} {site : Site} {flags : Flags}
  {input supplied : Table (Value κ)} {cast : List (Option (String × Value κ))}
  {property : Property κ}

/-! ## Settled properties -/

theorem settled?_eq_none_iff : settled? flags supplied property = none ↔
    Table.get? supplied property.name = none ∧
      (if fillsDefaults flags then property.default? flags else none) = none := by
  unfold settled?
  cases Table.get? supplied property.name <;> simp

theorem stored?_assembled (hd : m.names.Nodup) (hp : property ∈ m.properties) :
    (assembled m flags input supplied).stored? property.name =
      settled? flags supplied property := by
  have hget : (assembled m flags input supplied).stored? property.name =
      (m.property? property.name).bind (settled? flags supplied) :=
    Metadata.get?_tableOf hd property.name
  rw [hget, Metadata.property?_of_mem hd hp, Option.bind_some]

theorem settled?_of_get? {w : Value κ} (h : Table.get? supplied property.name = some w) :
    settled? flags supplied property = some w := by
  unfold settled?
  rw [h]

/-! ## What was given, and what has been cast -/

/-- Every entry of the input is cast, each to what stands at its place. -/
def CastsTo (bench : Workbench κ) (m : Metadata κ) (site : Site) (flags : Flags)
    (input : Table (Value κ)) (cast : List (Option (String × Value κ))) : Prop :=
  List.Forall₂ (fun entry c => (castEntry bench m site flags entry).result = .ok c) input cast

/-- Input that has been cast as a whole has been cast entry by entry. -/
theorem castsTo_of_collect
    (hs : ∀ entry ∈ input, ∀ e, (castEntry bench m site flags entry).result = .error e →
      ¬ e.IsSilent)
    (h : (Build.collect m.name (castEntry bench m site flags) input).result = .ok cast) :
    CastsTo bench m site flags input cast :=
  (Build.collect_eq_ok_iff hs).mp h

theorem CastsTo.rel_get? (h : CastsTo bench m site flags input cast) {name : String}
    (hp : m.property? name = some property) :
    Option.Rel (fun v w => (property.castValue bench site flags v).result = .ok w)
      (Table.get? input name) (Table.get? (cast.filterMap id) name) := by
  induction h with
  | nil => exact .none
  | @cons entry c rest others hentry _ ih =>
    obtain ⟨key, v⟩ := entry
    rw [Table.get?_cons]
    rcases castEntry_eq_ok.mp hentry with ⟨hnone, rfl⟩ | ⟨declared, w, hdeclared, hw, rfl⟩
    · have hne : name ≠ key := by
        rintro rfl
        rw [hnone] at hp
        cases hp
      rw [if_neg hne, List.filterMap_cons_none (f := id) rfl]
      exact ih
    · rw [List.filterMap_cons_some (f := id) rfl, Table.get?_cons]
      by_cases hname : name = key
      · subst hname
        rw [hdeclared] at hp
        cases hp
        rw [if_pos rfl, if_pos rfl]
        exact .some hw
      · rw [if_neg hname, if_neg hname]
        exact ih

/-- A property that is supplied settles on what was given for it, cast. -/
theorem CastsTo.settled?_of_supplied (h : CastsTo bench m site flags input cast)
    (hm : m.names.Nodup) (hp : property ∈ m.properties) {v : Value κ}
    (hget : Table.get? input property.name = some v) :
    ∃ w, (property.castValue bench site flags v).result = .ok w ∧
      settled? flags (cast.filterMap id) property = some w := by
  have hrel := h.rel_get? (Metadata.property?_of_mem hm hp)
  rw [hget] at hrel
  generalize hmade : Table.get? (cast.filterMap id) property.name = made at hrel
  cases hrel with
  | some hw => exact ⟨_, hw, settled?_of_get? hmade⟩

/-- A property that is not supplied settles on its default, if defaults are filled in. -/
theorem CastsTo.settled?_of_not_supplied (h : CastsTo bench m site flags input cast)
    (hm : m.names.Nodup) (hp : property ∈ m.properties)
    (hget : Table.get? input property.name = none) :
    settled? flags (cast.filterMap id) property =
      if fillsDefaults flags then property.default? flags else none := by
  have hrel := h.rel_get? (Metadata.property?_of_mem hm hp)
  rw [hget] at hrel
  generalize hmade : Table.get? (cast.filterMap id) property.name = made at hrel
  cases hrel with
  | none =>
    unfold settled?
    rw [hmade]

/-! ## What is missing -/

/-- The properties that are neither supplied nor have a default, in order of declaration. -/
def lacking (m : Metadata κ) (flags : Flags) (input : Table (Value κ)) : List String :=
  (m.properties.filter fun property =>
    !Table.has input property.name && (property.default? flags).isNone).map Property.name

theorem mem_lacking {name : String} : name ∈ lacking m flags input ↔
    ∃ property ∈ m.properties, property.name = name ∧ name ∉ Table.keys input ∧
      property.default? flags = none := by
  simp only [lacking, List.mem_map, List.mem_filter, Table.has, Bool.and_eq_true,
    Bool.not_eq_true', Option.isSome_eq_false_iff, Option.isNone_iff_eq_none,
    Table.get?_eq_none_iff]
  constructor
  · rintro ⟨property, ⟨hp, hnot, hdefault⟩, rfl⟩
    exact ⟨property, hp, rfl, hnot, hdefault⟩
  · rintro ⟨property, hp, rfl, hnot, hdefault⟩
    exact ⟨property, ⟨hp, hnot, hdefault⟩, rfl⟩

theorem lacking_eq_nil_iff : lacking m flags input = [] ↔
    ∀ property ∈ m.properties, property.name ∉ Table.keys input →
      (property.default? flags).isSome = true := by
  simp [lacking, Table.has, List.filter_eq_nil_iff, ← Table.get?_eq_none_iff,
    Option.isSome_iff_ne_none]

/-- **What is missing can be told from the input**, unless the construction is incomplete. -/
theorem CastsTo.unsettled_eq_lacking (h : CastsTo bench m site flags input cast)
    (hm : m.names.Nodup) (hc : flags.contains .incomplete = false) :
    unsettled m flags (cast.filterMap id) = lacking m flags input := by
  have hfills : fillsDefaults flags = true := by simp [fillsDefaults, hc]
  refine congrArg (List.map Property.name) (List.filter_congr fun property hp => ?_)
  unfold Table.has
  cases hget : Table.get? input property.name with
  | some v =>
    obtain ⟨w, -, hw⟩ := h.settled?_of_supplied hm hp hget
    rw [hw]
    rfl
  | none =>
    rw [h.settled?_of_not_supplied hm hp hget, if_pos hfills]
    rfl

end Construction

end TypedRecords
