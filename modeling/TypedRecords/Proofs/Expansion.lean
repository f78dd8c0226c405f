import TypedRecords.Proofs.FailurePaths
import TypedRecords.Proofs.Filling
import TypedRecords.Proofs.Resubmission

/-!
# Expanding values

To make plain data of a value is to go through it from the outside in, the parts of each value in
their order: items by position, entries as they stand, properties as they are declared.  Whatever
goes through a value in this way fails at the first part that it cannot go through, and tells the way
to it.

* `Value.parts`, `Value.Reaches`: what there is to go through.
* `Value.FirstBar`: the first part that bars the way, and the path to it.
* `Value.GoesThrough.eq_ok_iff`, `Value.GoesThrough.eq_error_iff`: **what goes through a value fails
  just at the first bar.**
* `Value.goesThrough_plain`: making plain data goes through a value, and is barred by objects without
  a data form.
-/

namespace TypedRecords

variable {κ : Type}

namespace Value

/-! ## Parts -/

/-- The parts of a value that go into its data, in order: items by position, entries as they stand,
defined properties as they are declared, members of a collection by position. -/
def parts : Value κ → List (Step × Value κ)
  | .list items => items.zipIdx.map fun entry => (.element entry.2, entry.1)
  | .map entries => entries.map fun entry => (.property entry.1, entry.2)
  | .record _ r => r.metadata.properties.filterMap fun property =>
    (r.stored? property.name).map fun value => (.property property.name, value)
  | .object _ (.collection _ _ items) =>
    items.zipIdx.map fun entry => (.element entry.2, .record entry.1.1 entry.1.2)
  | _ => []

/-- The path leads from a value to a part of it, at any depth. -/
inductive Reaches : List Step → Value κ → Value κ → Prop
  | here {v : Value κ} : Reaches [] v v
  | part {step : Step} {path : List Step} {u v w : Value κ} :
    (step, u) ∈ v.parts → Reaches path u w → Reaches (step :: path) v w

variable {step : Step} {path : List Step} {name : String} {u v w : Value κ}

theorem sizeOf_lt_of_mem_parts {part : Step × Value κ} (h : part ∈ v.parts) :
    sizeOf part.2 < sizeOf v := by
  cases v with
  | list items =>
    obtain ⟨entry, he, rfl⟩ := List.mem_map.mp h
    exact sizeOf_lt_of_mem_list (List.fst_mem_of_mem_zipIdx he)
  | map entries =>
    obtain ⟨entry, he, rfl⟩ := List.mem_map.mp h
    exact sizeOf_lt_of_mem_map he
  | record origin r =>
    obtain ⟨property, hp, hpart⟩ := List.mem_filterMap.mp h
    obtain ⟨value, hv, rfl⟩ := Option.map_eq_some_iff.mp hpart
    have hvalue := Node.size_lt_of_shown hp (Option.or_eq_some_iff.mpr (.inl hv))
    exact hvalue.trans (sizeOf_lt_record origin r)
  | object origin o =>
    cases o with
    | collection name itemClass items =>
      obtain ⟨⟨item, index⟩, he, rfl⟩ := List.mem_map.mp h
      exact sizeOf_record_lt_of_mem_collection origin (List.fst_mem_of_mem_zipIdx he)
    | _ => cases h
  | _ => cases h

theorem parts_induction {P : Value κ → Prop} (h : ∀ v, (∀ part ∈ v.parts, P part.2) → P v)
    (v : Value κ) : P v := by
  induction hn : sizeOf v using Nat.strongRecOn generalizing v with
  | ind n ih =>
    subst hn
    exact h v fun part hp => ih _ (sizeOf_lt_of_mem_parts hp) part.2 rfl

/-- What holds of the value and of all its parts, at any depth. -/
def Throughout (P : Value κ → Prop) (v : Value κ) : Prop :=
  ∀ path w, Reaches path v w → P w

theorem throughout_iff {P : Value κ → Prop} :
    v.Throughout P ↔ P v ∧ ∀ part ∈ v.parts, part.2.Throughout P := by
  constructor
  · intro h
    exact ⟨h [] v .here, fun part hp path w hw => h (part.1 :: path) w (.part hp hw)⟩
  · rintro ⟨hv, hparts⟩ path w hw
    cases hw with
    | here => exact hv
    | part hp hw => exact hparts _ hp _ _ hw

/-! ## Bars -/

/-- What bars the way through a value, and what is told of it. -/
abbrev Bar (κ : Type) := Value κ → Option String

/-- Nothing bars the way. -/
def Clear (bar? : Bar κ) (v : Value κ) : Prop :=
  v.Throughout fun w => bar? w = none

/-- The path leads to the first part that bars the way: the value itself, or what comes first in the
first part whose way is barred. -/
inductive FirstBar (bar? : Bar κ) : List Step → Value κ → String → Prop
  | here {v : Value κ} {name : String} : bar? v = some name → FirstBar bar? [] v name
  | part {v u : Value κ} {name : String} {index : Nat} {step : Step} {path : List Step} :
    bar? v = none → v.parts[index]? = some (step, u) →
      (∀ earlier ∈ v.parts.take index, Clear bar? earlier.2) → FirstBar bar? path u name →
        FirstBar bar? (step :: path) v name

variable {bar? : Bar κ}

/-- **The way is clear, or something is the first to bar it.** -/
theorem clear_or_firstBar (bar? : Bar κ) (v : Value κ) :
    v.Clear bar? ∨ ∃ path name, FirstBar bar? path v name := by
  induction v using parts_induction with
  | h v ih =>
    cases hv : bar? v with
    | some name => exact .inr ⟨[], name, .here hv⟩
    | none =>
      by_cases hclear : ∀ part ∈ v.parts, part.2.Clear bar?
      · exact .inl (throughout_iff.mpr ⟨hv, hclear⟩)
      · -- the first part that is not clear
        obtain ⟨index, part, hindex, hbarred, hearlier⟩ := exists_first_not hclear
        obtain ⟨path, name, hfirst⟩ :=
          (ih part (List.mem_of_getElem? hindex)).resolve_left hbarred
        exact .inr ⟨part.1 :: path, name, .part hv hindex hearlier hfirst⟩

/-! ## Going through -/

section GoingThrough

variable {β : Type} {P : Value κ → Prop} {f : Value κ → Except Error β}

/-- What `f` makes of the parts, each with the step to it; an error tells the step. -/
def labelled (f : Value κ → Except Error β) (v : Value κ) : Except Error (List (String × β)) :=
  v.parts.mapM fun part =>
    Prod.mk part.1.text <$> (f part.2).mapError (.prefixed part.1.text)

/-- The function goes through all values with `P`: it fails at a bar, and makes anything else of what
it makes of the parts. -/
structure GoesThrough (P : Value κ → Prop) (bar? : Bar κ) (f : Value κ → Except Error β) :
    Prop where
  parts : ∀ v, P v → ∀ part ∈ v.parts, P part.2
  barred : ∀ v name, P v → bar? v = some name → f v = .error (.unserializable "" name)
  passed : ∀ v, P v → bar? v = none →
    ∃ compose : List (String × β) → β, f v = compose <$> v.labelled f

namespace GoesThrough

theorem eq_ok_of_clear (hf : GoesThrough P bar? f) (hv : P v) (hc : v.Clear bar?) :
    ∃ result, f v = .ok result := by
  induction v using parts_induction with
  | h v ih =>
    obtain ⟨hnone, hparts⟩ := throughout_iff.mp hc
    obtain ⟨compose, hcompose⟩ := hf.passed v hv hnone
    have hlabelled : ∃ results, v.labelled f = .ok results := by
      refine mapM_isOk_iff.mpr fun part hp => ?_
      obtain ⟨result, hresult⟩ := ih part hp (hf.parts v hv part hp) (hparts part hp)
      exact ⟨(part.1.text, result), by rw [hresult]; rfl⟩
    obtain ⟨results, hresults⟩ := hlabelled
    exact ⟨compose results, by rw [hcompose, hresults]; rfl⟩

theorem eq_error_of_firstBar (hf : GoesThrough P bar? f) (hv : P v)
    (h : FirstBar bar? path v name) : f v = .error (.unserializable (Step.render path) name) := by
  induction h with
  | here hbar => exact hf.barred _ _ hv hbar
  | @part v u name index step path hnone hindex hearlier _ ih =>
    obtain ⟨compose, hcompose⟩ := hf.passed v hv hnone
    have hu : f u = .error (.unserializable (Step.render path) name) :=
      ih (hf.parts v hv _ (List.mem_of_getElem? hindex))
    have hlabelled : v.labelled f =
        .error (.unserializable (Step.render (step :: path)) name) := by
      refine mapM_eq_error_iff.mpr ⟨index, _, hindex, ?_, fun earlier he => ?_⟩
      · rw [hu]
        rfl
      · obtain ⟨result, hresult⟩ := hf.eq_ok_of_clear
          (hf.parts v hv earlier (List.mem_of_mem_take he)) (hearlier earlier he)
        exact ⟨(earlier.1.text, result), by rw [hresult]; rfl⟩
    rw [hcompose, hlabelled]
    rfl

/-- **What goes through a value succeeds iff nothing bars the way.** -/
theorem eq_ok_iff (hf : GoesThrough P bar? f) (hv : P v) :
    (∃ result, f v = .ok result) ↔ v.Clear bar? := by
  refine ⟨fun ⟨result, hresult⟩ => ?_, hf.eq_ok_of_clear hv⟩
  refine (clear_or_firstBar bar? v).resolve_right fun ⟨path, name, hfirst⟩ => ?_
  rw [hf.eq_error_of_firstBar hv hfirst] at hresult
  cases hresult

/-- **What goes through a value fails just at the first bar.** -/
theorem eq_error_iff (hf : GoesThrough P bar? f) (hv : P v) {error : Error} :
    f v = .error error ↔ ∃ path name, FirstBar bar? path v name ∧
      error = .unserializable (Step.render path) name := by
  constructor
  · intro h
    rcases clear_or_firstBar bar? v with hclear | ⟨path, name, hfirst⟩
    · obtain ⟨result, hresult⟩ := hf.eq_ok_of_clear hv hclear
      rw [hresult] at h
      cases h
    · rw [hf.eq_error_of_firstBar hv hfirst] at h
      cases h
      exact ⟨path, name, hfirst, rfl⟩
  · rintro ⟨path, name, hfirst, rfl⟩
    exact hf.eq_error_of_firstBar hv hfirst

end GoesThrough

end GoingThrough

/-! ## Making plain data -/

section Plain

variable {casting : Casting κ} {withDefaults : Bool} {flags : Flags} {data : Value κ}
  {casts : List (TypeName × Cast κ)} {property : Property κ} {r : Instance κ}

/-- An object without a data form; its type is told. -/
def formless? : Bar κ
  | .object _ (.sealed typeName _) => some typeName
  | .object _ (.wrapper typeName _ none _) => some typeName
  | _ => none

/-- An instance has built-in casts only; the data form of an object, if it has one, is plain. -/
def IsUsual : Value κ → Prop
  | .record _ r => ∀ property ∈ r.metadata.properties, property.IsBuiltIn
  | .object _ (.wrapper _ _ (some form) _) => ∃ data, form = .ok data ∧ data.IsPlain
  | _ => True

/-- All instances within the value have built-in casts only, and all data forms are plain. -/
def Ordinary (v : Value κ) : Prop := v.Throughout IsUsual

theorem Ordinary.part (h : v.Ordinary) {part : Step × Value κ} (hp : part ∈ v.parts) :
    part.2.Ordinary :=
  (throughout_iff.mp h).2 part hp

theorem restore_eq_plain (hb : ∀ entry ∈ casts, entry.2.isBuiltIn = true) (v : Value κ) :
    v.restore casting ⟨flags, false⟩ casts = v.plain casting false := by
  cases v with
  | record origin r =>
    rw [restore, plain]
    rcases Cast.restoreFirst_of_isBuiltIn hb with h | h <;> rw [h]
  | object origin o =>
    rw [restore, plain]
    rcases Cast.restoreFirst_of_isBuiltIn hb with h | h <;> rw [h]
    cases o with
    | wrapper typeName aliases form inner =>
      cases form <;> (dsimp only; rw [Object.memberData, Object.nativeData])
    | _ => dsimp only; rw [Object.memberData, Object.nativeData]
  | _ => rw [restore, plain]

theorem restoreItems_eq_plainItems (hb : ∀ entry ∈ casts, entry.2.isBuiltIn = true)
    (items : List (Value κ)) (index : Nat) :
    restoreItems casting ⟨flags, false⟩ casts index items =
      plainItems casting false index items := by
  induction items generalizing index with
  | nil => rfl
  | cons item rest ih => rw [restoreItems, plainItems, restore_eq_plain hb, ih]

theorem dataFor_eq_plain (hb : property.IsBuiltIn) (v : Value κ) :
    v.dataFor casting ⟨flags, false⟩ property =
      (v.plain casting false).mapError (.prefixed property.name) := by
  by_cases hv : v.isList = false
  · rw [dataFor_eq_restore _ hv, restore_eq_plain hb.casts]
  · cases v with
    | list items => rw [dataFor, plain, restoreItems_eq_plainItems hb.elementCasts]
    | _ => exact absurd rfl hv

/-! ### Part by part -/

theorem plainItems_eq_mapM (items : List (Value κ)) (index : Nat) :
    plainItems casting withDefaults index items = (items.zipIdx index).mapM fun entry =>
      (entry.1.plain casting withDefaults).mapError (.prefixed (toString entry.2)) := by
  induction items generalizing index with
  | nil => rfl
  | cons item rest ih =>
    rw [plainItems, ih, List.zipIdx_cons, List.mapM_cons]
    rfl

theorem plainEntries_eq_mapM (entries : List (String × Value κ)) :
    plainEntries casting withDefaults entries = entries.mapM fun entry =>
      Prod.mk entry.1 <$> (entry.2.plain casting withDefaults).mapError (.prefixed entry.1) := by
  induction entries with
  | nil => rfl
  | cons entry rest ih =>
    obtain ⟨key, value⟩ := entry
    rw [plainEntries, ih, List.mapM_cons]
    cases value.plain casting withDefaults <;> rfl

theorem dataItems_eq_mapM (items : List (Origin × Instance κ)) (index : Nat) :
    Instance.dataItems casting withDefaults index items = (items.zipIdx index).mapM fun entry =>
      ((Value.record entry.1.1 entry.1.2).plain casting withDefaults).mapError
        (.prefixed (toString entry.2)) := by
  induction items generalizing index with
  | nil => rfl
  | cons item rest ih =>
    obtain ⟨origin, r⟩ := item
    rw [Instance.dataItems, ih, List.zipIdx_cons, List.mapM_cons, plain]
    cases r.data casting withDefaults <;> rfl

theorem parts_record (origin : Origin) (r : Instance κ) :
    (Value.record origin r).parts = (r.shownAmong false r.metadata.properties).map fun entry =>
      (.property entry.1.name, entry.2) := by
  rw [parts, Instance.shownAmong, List.map_filterMap]
  refine List.filterMap_congr fun property _ => ?_
  rw [Instance.shown?_false, Option.map_map]
  rfl

theorem data_eq_labelled (hb : ∀ property ∈ r.metadata.properties, property.IsBuiltIn)
    (origin : Origin) : r.data casting false =
      (Value.record origin r).labelled fun v => v.plain casting false := by
  rw [Instance.data_eq_dataAll, Instance.dataAll_eq_mapM, labelled, parts_record, List.mapM_map]
  refine mapM_congr fun entry he => ?_
  obtain ⟨property, hp, hentry⟩ := List.mem_filterMap.mp he
  obtain ⟨value, -, rfl⟩ := Option.map_eq_some_iff.mp hentry
  exact congrArg _ (dataFor_eq_plain (hb property hp) value)

/-- What a value is expanded to, given what its parts are expanded to. -/
def assembled : Value κ → List (String × Value κ) → Value κ
  | .list _, results | .object _ (.collection ..), results => .list (results.map Prod.snd)
  | .map _, results | .record .., results => .map results
  | .object _ (.wrapper _ _ (some (.ok data)) _), _ => data
  | v, _ => v

/-- **The data of a value is put together from that of its parts.** -/
theorem plain_eq_assembled (hu : v.IsUsual) (hf : v.formless? = none) :
    v.plain casting false = v.assembled <$> v.labelled fun u => u.plain casting false := by
  cases v with
  | list items =>
    rw [plain, plainItems_eq_mapM, ← mapM_labelled fun entry => toString entry.2, labelled, parts,
      List.mapM_map, ← comp_map]
    rfl
  | map entries =>
    rw [plain, plainEntries_eq_mapM, labelled, parts, List.mapM_map]
    rfl
  | record origin r =>
    rw [plain, data_eq_labelled hu origin]
    rfl
  | object origin o =>
    cases o with
    | sealed typeName inner => cases hf
    | wrapper typeName aliases form inner =>
      cases form with
      | none => cases hf
      | some form =>
        obtain ⟨data, rfl, -⟩ := hu
        rw [plain, Object.nativeData]
        rfl
    | collection name itemClass items =>
      rw [plain, Object.nativeData, dataItems_eq_mapM,
        ← mapM_labelled fun entry => toString entry.2, labelled, parts, List.mapM_map, ← comp_map]
      rfl
  | _ => rw [plain]; rfl

theorem goesThrough_plain (casting : Casting κ) :
    GoesThrough Ordinary formless? fun v : Value κ => v.plain casting false where
  parts := fun v hv part hp => hv.part hp
  barred := by
    intro v name _ hbar
    cases v with
    | object origin o =>
      cases o with
      | sealed typeName inner =>
        cases hbar
        rw [plain, Object.nativeData]
      | wrapper typeName aliases form inner =>
        cases form with
        | none =>
          cases hbar
          rw [plain, Object.nativeData]
        | some form => cases hbar
      | collection name itemClass items => cases hbar
    | _ => cases hbar
  passed := fun v hv hbar => ⟨v.assembled, plain_eq_assembled (hv [] v .here) hbar⟩

/-- **The data of a value is plain.** -/
theorem isPlain_of_plain (hv : v.Ordinary) (h : v.plain casting false = .ok data) :
    data.IsPlain := by
  induction v using parts_induction generalizing data with
  | h v ih =>
    have hclear := (goesThrough_plain casting).eq_ok_iff hv |>.mp ⟨data, h⟩
    rw [plain_eq_assembled (hv [] v .here) (hclear [] v .here)] at h
    obtain ⟨results, hresults, rfl⟩ := except_map_eq_ok.mp h
    have hplain : ∀ result ∈ results, result.2.IsPlain := by
      intro result hr
      obtain ⟨part, hp, hpart⟩ := forall₂_mem_right (mapM_eq_ok_iff.mp hresults) hr
      obtain ⟨data, hdata, rfl⟩ := except_map_eq_ok.mp hpart
      exact ih part hp (hv.part hp) (except_mapError_eq_ok.mp hdata)
    have hitems : (Value.list (results.map Prod.snd)).IsPlain := by
      refine .list fun item hi => ?_
      obtain ⟨result, hr, rfl⟩ := List.mem_map.mp hi
      exact hplain result hr
    cases v with
    | list items => exact hitems
    | map entries => exact .map hplain
    | record origin r => exact .map hplain
    | object origin o =>
      cases o with
      | sealed typeName inner => cases hclear [] _ .here
      | wrapper typeName aliases form inner =>
        cases form with
        | none => cases hclear [] _ .here
        | some form =>
          obtain ⟨data, rfl, hdata⟩ := hv [] _ .here
          exact hdata
      | collection name itemClass items => exact hitems
    | _ => constructor

end Plain

end Value

end TypedRecords
