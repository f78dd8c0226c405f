import TypedRecords.Engine.Remake
import TypedRecords.Proofs.Invariant
import TypedRecords.Proofs.PlainData

/-!
# Views of an instance

An instance shows its data in whole, with defaults filled in, for the named properties only or for all
but these; and it is made anew from some of its properties.  These views agree with each other and
with what is read property by property.

* `Engine.Produced`: the instances that come of engines in use.
* `Instance.get_eq_ok_iff`: a property can be read iff there is something to show for it.
* `Instance.data_eq_dataOf`, `Instance.serializes_iff`: what the data of an instance is made of.
* `Instance.keys_dataOf_false`, `Instance.keys_dataOf_true`: which names there are data for.
* `Table.Divided`: a table comes apart into the entries for given names and the others.
* `Engine.Produced.views`: **the views of an instance agree.**
-/

namespace TypedRecords

variable {κ : Type}

namespace Instance

variable {casting : Casting κ} {record : Instance κ} {withDefaults : Bool} {name : String}
  {names : List String} {value data : Value κ} {property : Property κ}

/-! ## What there is to read -/

/-- **A property can be read iff there is something to show for it.** -/
theorem get_eq_ok_iff : record.get name = .ok value ↔ ∃ property,
    record.metadata.property? name = some property ∧
      record.shown? true property = some value := by
  unfold get shown?
  cases hp : record.metadata.property? name with
  | none => exact ⟨nofun, fun ⟨_, h, _⟩ => nomatch h⟩
  | some property =>
    have hn := (Metadata.property?_eq_some hp).2
    dsimp only
    constructor
    · intro h
      refine ⟨property, rfl, ?_⟩
      rw [hn]
      cases hs : record.stored? name with
      | some w => rw [hs] at h; cases h; rfl
      | none =>
        rw [hs] at h
        cases hd : property.default? record.flags with
        | some w => rw [hd] at h; cases h; rfl
        | none => rw [hd] at h; cases h
    · rintro ⟨other, ho, h⟩
      cases ho
      rw [hn] at h
      cases hs : record.stored? name with
      | some w => rw [hs] at h; cases h; rfl
      | none =>
        rw [hs] at h
        have h : property.default? record.flags = some value := h
        dsimp only
        rw [h]

theorem shown?_true_of_shown? (h : record.shown? withDefaults property = some value) :
    record.shown? true property = some value := by
  cases withDefaults with
  | true => exact h
  | false =>
    rw [shown?_false] at h
    unfold shown?
    rw [h]
    rfl

/-! ## Data -/

/-- All that the instance shows becomes data. -/
def Serializes (casting : Casting κ) (record : Instance κ) (withDefaults : Bool) : Prop :=
  ∀ property ∈ record.metadata.properties, ∀ value,
    record.shown? withDefaults property = some value →
      ∃ data, value.dataFor casting ⟨record.flags, withDefaults⟩ property = .ok data

/-- The data form of what is read under a name. -/
def DataForm (casting : Casting κ) (record : Instance κ) (withDefaults : Bool) (name : String)
    (data : Value κ) : Prop :=
  ∃ property value, record.metadata.property? name = some property ∧ record.get name = .ok value ∧
    value.dataFor casting ⟨record.flags, withDefaults⟩ property = .ok data

/-- The data of what a property shows, as far as there is any. -/
def dataOf (casting : Casting κ) (record : Instance κ) (withDefaults : Bool)
    (property : Property κ) : Option (Value κ) :=
  (record.shown? withDefaults property).bind fun value =>
    (value.dataFor casting ⟨record.flags, withDefaults⟩ property).toOption

theorem isSome_dataOf (hs : record.Serializes casting withDefaults)
    (hp : property ∈ record.metadata.properties) :
    (record.dataOf casting withDefaults property).isSome =
      (record.shown? withDefaults property).isSome := by
  unfold dataOf
  cases hv : record.shown? withDefaults property with
  | none => rfl
  | some value =>
    obtain ⟨data, hdata⟩ := hs property hp value hv
    rw [Option.bind_some, hdata]
    rfl

theorem dataAll_eq_dataOf (hs : record.Serializes casting withDefaults)
    {properties : List (Property κ)}
    (hsub : ∀ property ∈ properties, property ∈ record.metadata.properties) :
    Property.dataAll casting ⟨record.flags, withDefaults⟩
        (Value.storedData casting ⟨record.flags, withDefaults⟩ record.stored) properties =
      .ok (properties.filterMap fun property =>
        (record.dataOf casting withDefaults property).map (Prod.mk property.name)) := by
  let form (property : Property κ) (value : Value κ) : Value κ :=
    (value.dataFor casting ⟨record.flags, withDefaults⟩ property).toOption.getD .null
  have hform : ∀ property ∈ properties, ∀ value,
      record.shown? withDefaults property = some value →
        value.dataFor casting ⟨record.flags, withDefaults⟩ property = .ok (form property value) := by
    intro property hp value hv
    obtain ⟨data, hdata⟩ := hs property (hsub property hp) value hv
    rw [hdata]
    exact congrArg (fun result => Except.ok (result.toOption.getD .null)) hdata.symm
  rw [dataAll_eq_ok hform]
  refine congrArg Except.ok (List.filterMap_congr fun property hp => ?_)
  unfold dataOf
  cases hv : record.shown? withDefaults property with
  | none => rfl
  | some value =>
    rw [Option.bind_some, Option.map_some, hform property hp value hv]
    rfl

theorem data_eq_dataOf (hs : record.Serializes casting withDefaults) :
    record.data casting withDefaults =
      .ok (record.metadata.tableOf (record.dataOf casting withDefaults)) := by
  rw [data_eq_dataAll]
  exact dataAll_eq_dataOf hs fun _ hp => hp

/-- **An instance has data iff all that it shows becomes data.** -/
theorem serializes_iff :
    record.Serializes casting withDefaults ↔ (record.data casting withDefaults).isOk = true := by
  constructor
  · intro hs
    rw [data_eq_dataOf hs]
    rfl
  · intro h property hp value hv
    have hmem : (property, value) ∈ record.shownAmong withDefaults record.metadata.properties :=
      List.mem_filterMap.mpr ⟨property, hp, by rw [hv]; rfl⟩
    cases hdata : record.data casting withDefaults with
    | error error => rw [hdata] at h; cases h
    | ok entries =>
      rw [data_eq_dataAll, dataAll_eq_mapM] at hdata
      obtain ⟨entry, hentry⟩ := mapM_isOk_iff.mp ⟨entries, hdata⟩ _ hmem
      cases hform : value.dataFor casting ⟨record.flags, withDefaults⟩ property with
      | ok data => exact ⟨data, rfl⟩
      | error error => rw [hform] at hentry; cases hentry

theorem dataWhere_eq_dataOf (hs : record.Serializes casting false) (keep : String → Bool) :
    record.dataWhere casting keep =
      .ok ((record.metadata.tableOf (record.dataOf casting false)).filter fun entry =>
        keep entry.1) := by
  rw [Metadata.filter_tableOf]
  exact dataAll_eq_dataOf hs fun _ hp => List.mem_of_mem_filter hp

/-- Every entry of the data is the data form of what is read under its key. -/
theorem dataForm_of_mem (hm : record.metadata.WellFormed)
    (h : (name, data) ∈ record.metadata.tableOf (record.dataOf casting withDefaults)) :
    record.DataForm casting withDefaults name data := by
  obtain ⟨property, hp, rfl, hdata⟩ := Metadata.mem_tableOf.mp h
  obtain ⟨value, hv, hform⟩ := Option.bind_eq_some_iff.mp hdata
  have hproperty := Metadata.property?_of_mem hm.distinct hp
  refine ⟨property, value, hproperty,
    get_eq_ok_iff.mpr ⟨property, hproperty, shown?_true_of_shown? hv⟩, ?_⟩
  cases hresult : value.dataFor casting ⟨record.flags, withDefaults⟩ property with
  | error error => rw [hresult] at hform; cases hform
  | ok other => rw [hresult] at hform; cases hform; rfl

/-! ## Names -/

theorem isOk_get (hm : record.metadata.WellFormed) (hp : property ∈ record.metadata.properties) :
    (record.get property.name).isOk = (record.shown? true property).isSome := by
  have hproperty := Metadata.property?_of_mem hm.distinct hp
  cases hv : record.shown? true property with
  | some value => rw [get_eq_ok_iff.mpr ⟨property, hproperty, hv⟩]; rfl
  | none =>
    cases hg : record.get property.name with
    | error error => rfl
    | ok value =>
      obtain ⟨other, ho, hvalue⟩ := get_eq_ok_iff.mp hg
      rw [hproperty] at ho
      cases ho
      rw [hv] at hvalue
      cases hvalue

/-- **The data with defaults is that of the names that can be read.** -/
theorem keys_dataOf_true (hm : record.metadata.WellFormed) (hs : record.Serializes casting true) :
    Table.keys (record.metadata.tableOf (record.dataOf casting true)) =
      record.metadata.names.filter fun name => (record.get name).isOk := by
  rw [Metadata.keys_tableOf, Metadata.names, List.filter_map]
  refine congrArg _ (List.filter_congr fun property hp => ?_)
  rw [isSome_dataOf hs hp]
  exact (isOk_get hm hp).symm

/-- **The data is that of the defined names.** -/
theorem keys_dataOf_false (h : record.WellFormed) (hs : record.Serializes casting false) :
    Table.keys (record.metadata.tableOf (record.dataOf casting false)) = record.definedNames := by
  have hdefined := filter_mem_of_sublist h.metadata.distinct h.ordered
  rw [Metadata.names, List.filter_map] at hdefined
  rw [Metadata.keys_tableOf, ← hdefined]
  refine congrArg _ (List.filter_congr fun property hp => ?_)
  rw [isSome_dataOf hs hp, shown?_false]
  exact (Bool.eq_iff_iff.mpr (Table.has_iff.trans decide_eq_true_iff.symm))

/-! ## Parts -/

/-- The declared names that are not given. -/
def others (record : Instance κ) (names : List String) : List String :=
  record.metadata.names.filter fun name => !names.contains name

/-- The given names that are not declared, in the order given and as often as given. -/
def undeclared (record : Instance κ) (names : List String) : List String :=
  names.filter fun name => !record.metadata.declares name

theorem checkKnown_of_declared (hd : ∀ name ∈ names, record.metadata.declares name = true) :
    record.checkKnown names = .ok () := by
  have hnone : record.undeclared names = [] :=
    List.filter_eq_nil_iff.mpr fun name hn => by rw [hd name hn]; exact Bool.false_ne_true
  exact if_pos (List.isEmpty_iff.mpr hnone)

theorem checkKnown_of_undeclared (hu : record.undeclared names ≠ []) :
    record.checkKnown names = .error (record.unknown (record.undeclared names)) :=
  if_neg fun hempty => hu (List.isEmpty_iff.mp hempty)

end Instance

/-- A table comes apart into the entries for given names and the others: they have no key in common,
keep their order, and leave nothing out. -/
structure Table.Divided {α : Type} (names : List String) (table part rest : Table α) : Prop where
  disjoint : (Table.keys part).Disjoint (Table.keys rest)
  part_sublist : part.Sublist table
  rest_sublist : rest.Sublist table
  covered : ∀ entry ∈ table, entry ∈ part ∨ entry ∈ rest
  named : ∀ name ∈ Table.keys part, name ∈ names
  unnamed : ∀ name ∈ Table.keys rest, name ∉ names

theorem Table.divided_filter {α : Type} (names : List String) (table : Table α) :
    Table.Divided names table (table.filter fun entry => names.contains entry.1)
      (table.filter fun entry => !names.contains entry.1) := by
  have hnamed : ∀ name ∈ Table.keys (table.filter fun entry => names.contains entry.1),
      name ∈ names := by
    intro name hn
    obtain ⟨entry, he, rfl⟩ := List.mem_map.mp hn
    simpa using (List.mem_filter.mp he).2
  have hunnamed : ∀ name ∈ Table.keys (table.filter fun entry => !names.contains entry.1),
      name ∉ names := by
    intro name hn
    obtain ⟨entry, he, rfl⟩ := List.mem_map.mp hn
    simpa using (List.mem_filter.mp he).2
  refine
    { disjoint := fun name hpart hrest => hunnamed name hrest (hnamed name hpart)
      part_sublist := List.filter_sublist
      rest_sublist := List.filter_sublist
      covered := ?_
      named := hnamed
      unnamed := hunnamed }
  intro entry he
  by_cases hn : entry.1 ∈ names
  · exact .inl (List.mem_filter.mpr ⟨he, by simpa using hn⟩)
  · exact .inr (List.mem_filter.mpr ⟨he, by simpa using hn⟩)

namespace Engine

variable {engine : Engine κ} {record : Instance κ} {names : List String}

/-! ## Making anew -/

/-- **To keep the named properties is to leave out the others.** -/
theorem remakeOnly_eq_remakeExcept (hw : record.WellFormed)
    (hd : ∀ name ∈ names, record.metadata.declares name = true) :
    engine.remakeOnly record names = engine.remakeExcept record (record.others names) := by
  have hothers : ∀ name ∈ record.others names, record.metadata.declares name = true :=
    fun name hn => Metadata.declares_iff.mpr (List.mem_of_mem_filter hn)
  unfold remakeOnly remakeExcept remakeWhere
  rw [Instance.checkKnown_of_declared hd, Instance.checkKnown_of_declared hothers]
  refine congrArg (engine.rebuild record) (List.filter_congr fun entry he => ?_)
  -- what is stored is declared, so it is among the others iff it is not named
  have hdeclared : entry.1 ∈ record.metadata.names :=
    hw.ordered.subset (List.mem_map.mpr ⟨entry, he, rfl⟩)
  simp [Instance.others, hdeclared]

/-- Whoever leaves out or keeps a property that is not declared gets nothing made. -/
theorem remakeWhere_of_undeclared {keep : String → Bool} (hu : record.undeclared names ≠ []) :
    engine.remakeWhere record names keep =
      (.error (record.unknown (record.undeclared names)), engine) := by
  unfold remakeWhere
  rw [Instance.checkKnown_of_undeclared hu]

/-! ## Instances that come of use -/

/-- The instances that come of engines in use: by being made, as such or within another, and by being
written. -/
inductive Produced : Instance κ → Prop
  | made {engine : Engine κ} {entry : Nat × Order κ} {record : Instance κ} :
    Reachable (fun _ => True) engine → engine.Builds entry record → Produced record
  | written {engine : Engine κ} {record written : Instance κ} {name : String} {value : Value κ} :
    Produced record → Reachable (fun _ => True) engine →
      (engine.set record name value).1 = .ok written → Produced written

theorem Produced.make {className : String} {input : Table (Value κ)} {flags : Flags}
    (hr : Reachable (fun _ => True) engine)
    (h : (engine.make className input flags).1 = .ok record) : Produced record :=
  .made hr (show engine.Builds
    (engine.plan.maxDepth + 1, Construction.outerOrder className input flags) record from h)

theorem Produced.wellFormed (h : Produced record) : record.WellFormed := by
  induction h with
  | made hr hb => exact (hr.builds hb).1
  | written _ _ hset ih => exact (set_step ih hset).1

/-- **The views of an instance agree.**  If all that it shows becomes data, then its data is that of
the defined names, and with defaults that of the names that can be read; each entry is the data form
of what is read.  The data of declared names and that of all but these divide the data.  To make an
instance anew from declared names only is to make it without the other ones.  If a name is not
declared, then whoever asks for these properties, or for all but these, is told all such names;
nothing becomes data and nothing is made. -/
theorem Produced.views (h : Produced record) (casting : Casting κ) :
    (record.Serializes casting false → record.Serializes casting true → ∃ table full,
      record.data casting false = .ok table ∧ record.data casting true = .ok full ∧
      record.definedNames.Sublist record.metadata.names ∧
      Table.keys table = record.definedNames ∧
      Table.keys full = record.metadata.names.filter (fun name => (record.get name).isOk) ∧
      (∀ name data, (name, data) ∈ table → record.DataForm casting false name data) ∧
      (∀ name data, (name, data) ∈ full → record.DataForm casting true name data) ∧
      ∀ names : List String, (∀ name ∈ names, record.metadata.declares name = true) →
        ∃ part rest, record.only casting names = .ok part ∧
          record.except casting names = .ok rest ∧ Table.Divided names table part rest) ∧
    ∀ (engine : Engine κ) (names : List String),
      ((∀ name ∈ names, record.metadata.declares name = true) →
        engine.remakeOnly record names = engine.remakeExcept record (record.others names)) ∧
      (record.undeclared names ≠ [] →
        ∀ error, error = .unknownProperties record.className (record.undeclared names) →
          record.only casting names = .error error ∧ record.except casting names = .error error ∧
            engine.remakeOnly record names = (.error error, engine) ∧
              engine.remakeExcept record names = (.error error, engine)) := by
  have hw := h.wellFormed
  constructor
  · intro hstored hshown
    refine ⟨_, _, Instance.data_eq_dataOf hstored, Instance.data_eq_dataOf hshown, hw.ordered,
      Instance.keys_dataOf_false hw hstored, Instance.keys_dataOf_true hw.metadata hshown,
      fun _ _ he => Instance.dataForm_of_mem hw.metadata he,
      fun _ _ he => Instance.dataForm_of_mem hw.metadata he, ?_⟩
    intro names hd
    refine ⟨_, _, ?_, ?_, Table.divided_filter names _⟩
    · unfold Instance.only
      rw [Instance.checkKnown_of_declared hd]
      exact Instance.dataWhere_eq_dataOf hstored _
    · unfold Instance.except
      rw [Instance.checkKnown_of_declared hd]
      exact Instance.dataWhere_eq_dataOf hstored (!names.contains ·)
  · intro engine names
    refine ⟨remakeOnly_eq_remakeExcept hw, ?_⟩
    rintro hu _ rfl
    refine ⟨?_, ?_, remakeWhere_of_undeclared hu, remakeWhere_of_undeclared hu⟩
    · unfold Instance.only
      rw [Instance.checkKnown_of_undeclared hu]
      rfl
    · unfold Instance.except
      rw [Instance.checkKnown_of_undeclared hu]
      rfl

end Engine

namespace Atlas

/-- A country without its ports, whose capital is null by default. -/
theorem views_france : ∃ record table full,
    (engine.make "Country" [("towns", .list []), ("name", .text "France")]
      (Flags.union .incomplete .nullByDefault)).1 = .ok record ∧
    record.data engine.casting false = .ok table ∧ Table.keys table = ["name", "towns"] ∧
    record.data engine.casting true = .ok full ∧ Table.keys full = ["name", "capital", "towns"] ∧
    ∃ part rest, record.only engine.casting ["towns", "ports", "towns"] = .ok part ∧
      record.except engine.casting ["towns", "ports", "towns"] = .ok rest ∧
      Table.Divided ["towns", "ports", "towns"] table part rest := by
  obtain ⟨record, hrecord⟩ : ∃ record, (engine.make "Country"
      [("towns", .list []), ("name", .text "France")]
        (Flags.union .incomplete .nullByDefault)).1 = .ok record := ⟨_, rfl⟩
  have hstored : record.Serializes engine.casting false :=
    Instance.serializes_iff.mpr (by cases hrecord; decide +kernel)
  have hshown : record.Serializes engine.casting true :=
    Instance.serializes_iff.mpr (by cases hrecord; decide +kernel)
  obtain ⟨table, full, htable, hfull, -, hkeys, hfullKeys, -, -, hparts⟩ :=
    (Engine.Produced.views (.make (reachable trivial trivial) hrecord) engine.casting).1
      hstored hshown
  refine ⟨record, table, full, hrecord, htable, hkeys.trans ?_, hfull, hfullKeys.trans ?_,
    hparts ["towns", "ports", "towns"] ?_⟩
  all_goals
    cases hrecord
    decide

end Atlas

end TypedRecords
