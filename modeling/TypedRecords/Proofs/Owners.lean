import TypedRecords.Engine.Remake
import TypedRecords.Proofs.Filling
import TypedRecords.Proofs.NormalForm
import TypedRecords.Proofs.Retagging
import TypedRecords.Proofs.Writing

/-!
# Who reports an error

Failures name a class besides the path: the class that reports them, from which the path leads to
the property at fault.  An instance reports in the name of its own class.  When an error comes from
an instance nested in it, or from an object, the name has to be changed on the way out, and there
are two places where it is not.

* `Error.owners`: the classes that an error names.  `Error.OwnedBy`: there is only one.
* `Instance.definedAlong_eq_error`: asking for a property along a path fails in the name of the
  instance that the path has led to.
* `Value.Faulty`: an object in the value has an error for its data form.  `Value.answers`: otherwise
  serialization names no class.
* `Engine.Reachable.instance_owns_errors`: **the errors of an instance name its class**, these two
  aside.
-/

namespace TypedRecords

variable {κ : Type}

/-! ## The classes that an error names -/

namespace Error

/-- The classes that an error names by itself. -/
def ownOwners : Error → List String
  | unknownProperties owner _ | undefinedProperties owner _ => [owner]
  | invalidType failures => failures.map Failure.owner
  | _ => []

/-- The classes that an error names as the ones that report something, looking through
aggregates. -/
def owners (error : Error) : List String :=
  error.leaves.flatMap ownOwners

/-- Whatever the error reports, it reports in the name of this class. -/
def OwnedBy (owner : String) (error : Error) : Prop :=
  ∀ named ∈ error.owners, named = owner

variable {owner : String} {error : Error}

theorem ownOwners_prefixed (head : String) (error : Error) :
    (error.prefixed head).ownOwners = error.ownOwners := by
  cases error with
  | invalidType failures =>
    show (failures.map (·.prefixed head)).map Failure.owner = failures.map Failure.owner
    rw [List.map_map]
    rfl
  | _ => rfl

theorem owners_prefixed (head : String) (error : Error) :
    (error.prefixed head).owners = error.owners := by
  unfold owners
  rw [leaves_prefixed, List.flatMap_map]
  exact List.flatMap_congr fun leaf _ => ownOwners_prefixed head leaf

theorem ownedBy_aggregate {errors : List Error} (h : ∀ e ∈ errors, e.OwnedBy owner) :
    (aggregate errors).OwnedBy owner := by
  intro named hn
  have hleaves : (aggregate errors).leaves = errors.flatMap leaves := leavesAll_eq_flatMap errors
  unfold owners at hn
  rw [hleaves, List.flatMap_assoc] at hn
  obtain ⟨e, he, hn⟩ := List.mem_flatMap.mp hn
  exact h e he named hn

theorem ownedBy_of_owners_eq_nil (h : error.owners = []) : error.OwnedBy owner := by
  intro named hn
  rw [h] at hn
  cases hn

theorem owners_of_isFatal (h : error.isFatal = true) : error.owners = [] := by
  cases error with
  | unknownProperties | undefinedProperties | invalidType | aggregate => cases h
  | _ => rfl

theorem ownedBy_unknownProperties (owner : String) (paths : List String) :
    (unknownProperties owner paths).OwnedBy owner :=
  fun _ hn => List.mem_singleton.mp hn

theorem ownedBy_undefinedProperties (owner : String) (paths : List String) :
    (undefinedProperties owner paths).OwnedBy owner :=
  fun _ hn => List.mem_singleton.mp hn

theorem ownedBy_invalidType {failures : List Failure}
    (h : ∀ failure ∈ failures, failure.owner = owner) : (invalidType failures).OwnedBy owner := by
  have howners : (invalidType failures).owners = failures.map Failure.owner := List.append_nil _
  intro named hn
  rw [howners] at hn
  obtain ⟨failure, hf, rfl⟩ := List.mem_map.mp hn
  exact h failure hf

theorem ownedBy_withOwner (owner : String) (error : Error) :
    (error.withOwner owner).OwnedBy owner := by
  induction error using tree_induction with
  | leaf error h =>
    cases error with
    | aggregate errors => exact absurd rfl (h errors)
    | unknownProperties _ paths => exact ownedBy_unknownProperties owner paths
    | undefinedProperties _ paths => exact ownedBy_undefinedProperties owner paths
    | invalidType failures =>
      refine ownedBy_invalidType fun failure hf => ?_
      obtain ⟨original, -, rfl⟩ := List.mem_map.mp hf
      rfl
    | _ => exact ownedBy_of_owners_eq_nil rfl
  | aggregate errors ih =>
    rw [withOwner, withOwnerAll_eq_map]
    refine ownedBy_aggregate fun e he => ?_
    obtain ⟨original, ho, rfl⟩ := List.mem_map.mp he
    exact ih original ho

theorem IsPart.ownedBy (h : error.IsPart owner) : error.OwnedBy owner := by
  cases h with
  | invalid _ howner => exact ownedBy_invalidType howner
  | unknown => exact ownedBy_unknownProperties owner _
  | undefined => exact ownedBy_undefinedProperties owner _

theorem IsNormal.ownedBy (h : error.IsNormal owner) : error.OwnedBy owner := by
  cases h with
  | fatal hf => exact ownedBy_of_owners_eq_nil (owners_of_isFatal hf)
  | single hpart => exact hpart.ownedBy
  | several _ hparts _ => exact ownedBy_aggregate fun e he => (hparts e he).ownedBy

end Error

/-! ## Asking along a path -/

namespace Instance

/-- The names lead from an instance to one nested in it, each of them that of a declared property
that holds the next instance. -/
inductive Nests : Instance κ → List String → Instance κ → Prop
  | here {record : Instance κ} : Nests record [] record
  | step {record nested inner : Instance κ} {origin : Origin} {name : String}
    {names : List String} : record.metadata.declares name = true →
      record.stored? name = some (.record origin nested) → Nests nested names inner →
        Nests record (name :: names) inner

variable {record : Instance κ} {head : String} {error : Error}

theorem definedAlong_nil_eq_error : record.definedAlong head [] = .error error ↔
    record.metadata.declares head = false ∧ error = record.unknown [head] := by
  rw [definedAlong]
  cases record.metadata.declares head with
  | false => simp [eq_comm]
  | true => simp

theorem definedAlong_cons_eq_error {next : String} {rest : List String} :
    record.definedAlong head (next :: rest) = .error error ↔
      (record.metadata.declares head = false ∧ error = record.unknown [head]) ∨
        record.metadata.declares head = true ∧ ∃ origin nested inner,
          record.stored? head = some (.record origin nested) ∧
            nested.definedAlong next rest = .error inner ∧ error = inner.prefixed head := by
  rw [definedAlong]
  cases record.metadata.declares head with
  | false => simp [eq_comm]
  | true =>
    rw [if_pos rfl]
    cases hs : record.stored? head with
    | none => simp
    | some value =>
      cases value with
      | record origin nested =>
        change (nested.definedAlong next rest).mapError (.prefixed head) = .error error ↔ _
        rw [except_mapError_eq_error]
        constructor
        · rintro ⟨inner, hinner, rfl⟩
          exact .inr ⟨rfl, origin, nested, inner, rfl, hinner, rfl⟩
        · rintro (⟨hd, -⟩ | ⟨-, _, _, inner, hs, hinner, rfl⟩)
          · cases hd
          · cases hs
            exact ⟨inner, hinner, rfl⟩
      | _ => simp

/-- **Asking for a property along a path fails in the name of the instance that the path has led
to**, if this one does not declare the next name.  The path is told from the outermost instance. -/
theorem definedAlong_eq_error {rest : List String} :
    record.definedAlong head rest = .error error ↔
      ∃ names last others inner, head :: rest = names ++ last :: others ∧
        record.Nests names inner ∧ inner.metadata.declares last = false ∧
        error = .unknownProperties inner.className [names.foldr joinPath last] := by
  induction rest generalizing record head error with
  | nil =>
    rw [definedAlong_nil_eq_error]
    constructor
    · rintro ⟨hd, rfl⟩
      exact ⟨[], head, [], record, rfl, .here, hd, rfl⟩
    · rintro ⟨names, last, others, inner, hpath, hn, hd, rfl⟩
      cases hn with
      | here =>
        cases hpath
        exact ⟨hd, rfl⟩
      | step =>
        rw [List.cons_append, List.cons.injEq] at hpath
        exact absurd hpath.2.symm (by simp)
  | cons next rest ih =>
    rw [definedAlong_cons_eq_error]
    constructor
    · rintro (⟨hd, rfl⟩ | ⟨hd, origin, nested, inner, hs, hinner, rfl⟩)
      · exact ⟨[], head, next :: rest, record, rfl, .here, hd, rfl⟩
      · obtain ⟨names, last, others, innermost, hpath, hn, hlast, rfl⟩ := ih.mp hinner
        exact ⟨head :: names, last, others, innermost, by rw [hpath, List.cons_append],
          .step hd hs hn, hlast, rfl⟩
    · rintro ⟨names, last, others, inner, hpath, hn, hlast, rfl⟩
      cases hn with
      | here =>
        cases hpath
        exact .inl ⟨hlast, rfl⟩
      | step hd hs hn =>
        rw [List.cons_append, List.cons.injEq] at hpath
        obtain ⟨rfl, hpath⟩ := hpath
        exact .inr ⟨hd, _, _, _, hs, ih.mpr ⟨_, _, _, _, hpath, hn, hlast, rfl⟩, rfl⟩

theorem isDefined_eq_error {path : String} : record.isDefined path = .error error ↔
    ∃ names last others inner,
      (Text.pieces '.' path.toList).map String.ofList = names ++ last :: others ∧
        record.Nests names inner ∧ inner.metadata.declares last = false ∧
        error = .unknownProperties inner.className [names.foldr joinPath last] := by
  unfold isDefined
  cases hpieces : (Text.pieces '.' path.toList).map String.ofList with
  | nil => exact absurd (List.map_eq_nil_iff.mp hpieces) (Text.pieces_ne_nil '.' path.toList)
  | cons head rest => exact definedAlong_eq_error

end Instance

/-! ## Serialization -/

/-- No custom cast takes a value back by itself. -/
def Casting.Abstains (casting : Casting κ) : Prop :=
  ∀ handle value request result, (casting handle).restore value request ≠ .done result

/-- Somewhere in the value there is an object that has the error for its data form. -/
inductive Value.Faulty (error : Error) : Value κ → Prop
  | object {origin : Origin} {typeName : String} {aliases : List String} {inner : Value κ} :
    Faulty error (.object origin (.wrapper typeName aliases (some (.error error)) inner))
  | item {items : List (Value κ)} {item : Value κ} :
    item ∈ items → Faulty error item → Faulty error (.list items)
  | entry {entries : List (String × Value κ)} {entry : String × Value κ} :
    entry ∈ entries → Faulty error entry.2 → Faulty error (.map entries)
  | stored {origin : Origin} {r : Instance κ} {entry : String × Value κ} :
    entry ∈ r.stored → Faulty error entry.2 → Faulty error (.record origin r)
  | member {origin : Origin} {name itemClass : String} {items : List (Origin × Instance κ)}
    {item : Origin × Instance κ} {entry : String × Value κ} :
    item ∈ items → entry ∈ item.2.stored → Faulty error entry.2 →
      Faulty error (.object origin (.collection name itemClass items))

/-- The error names no class, unless it names those that the data form of an object in the value
names. -/
def Value.Attributes (v : Value κ) (error : Error) : Prop :=
  error.owners = [] ∨ ∃ cause, v.Faulty cause ∧ error.owners = cause.owners

section Serialization

variable {casting : Casting κ} {request : DataRequest} {casts : List (TypeName × Cast κ)}
  {v w : Value κ} {error : Error}

theorem Value.Attributes.prefixed (h : v.Attributes error) (head : String) :
    v.Attributes (error.prefixed head) := by
  unfold Attributes
  rw [Error.owners_prefixed]
  exact h

theorem Value.Attributes.imp (h : v.Attributes error)
    (hw : ∀ cause, v.Faulty cause → w.Faulty cause) : w.Attributes error :=
  h.imp_right fun ⟨cause, hcause, howners⟩ => ⟨cause, hw cause hcause, howners⟩

theorem Casting.Abstains.restoreFirst (h : casting.Abstains) (result : Except Error (Value κ)) :
    Cast.restoreFirst casting v request casts ≠ .done result := by
  have hmembers : (Restoration.members : Restoration κ) ≠ .done result := by simp
  induction casts with
  | nil => simp [Cast.restoreFirst]
  | cons entry rest ih =>
    obtain ⟨type, cast⟩ := entry
    rw [Cast.restoreFirst]
    cases cast with
    | custom handle =>
      have hanswer := h handle v request
      have hcast : Cast.restore casting v request (.custom handle) =
          (casting handle).restore v request := rfl
      rw [hcast]
      cases hr : (casting handle).restore v request with
      | pass => exact ih
      | members => exact hmembers
      | done other => exact absurd hr (hanswer other)
    | instances =>
      cases v with
      | record => exact hmembers
      | _ => exact ih
    | collections =>
      cases v with
      | object origin o =>
        cases o with
        | collection => exact hmembers
        | _ => exact ih
      | _ => exact ih

theorem Value.restoreItems_eq_error {items : List (Value κ)} {index : Nat}
    (h : restoreItems casting request casts index items = .error error) :
    ∃ item ∈ items, ∃ cause head, item.restore casting request casts = .error cause ∧
      error = cause.prefixed head := by
  induction items generalizing index with
  | nil => cases h
  | cons item rest ih =>
    rw [restoreItems] at h
    rcases except_both_eq_error h with h | h
    · obtain ⟨cause, hcause, rfl⟩ := except_mapError_eq_error.mp h
      exact ⟨item, List.mem_cons_self, cause, _, hcause, rfl⟩
    · obtain ⟨other, ho, hother⟩ := ih h
      exact ⟨other, List.mem_cons_of_mem _ ho, hother⟩

theorem Value.plainEntries_eq_error (request : DataRequest) {entries : List (String × Value κ)}
    (h : plainEntries casting request.withDefaults entries = .error error) :
    ∃ entry ∈ entries, ∃ cause, entry.2.restore casting request [] = .error cause ∧
      error = cause.prefixed entry.1 := by
  induction entries with
  | nil => cases h
  | cons entry rest ih =>
    obtain ⟨key, value⟩ := entry
    rw [plainEntries] at h
    rcases except_both_eq_error h with h | h
    · obtain ⟨cause, hcause, rfl⟩ := except_mapError_eq_error.mp h
      rw [plain_eq_restore] at hcause
      exact ⟨(key, value), List.mem_cons_self, cause, hcause, rfl⟩
    · obtain ⟨other, ho, hother⟩ := ih h
      exact ⟨other, List.mem_cons_of_mem _ ho, hother⟩

theorem Instance.dataItems_eq_error {withDefaults : Bool} {items : List (Origin × Instance κ)}
    {index : Nat} (h : Instance.dataItems casting withDefaults index items = .error error) :
    ∃ item ∈ items, ∃ cause head, item.2.data casting withDefaults = .error cause ∧
      error = cause.prefixed head := by
  induction items generalizing index with
  | nil => cases h
  | cons item rest ih =>
    obtain ⟨origin, r⟩ := item
    rw [Instance.dataItems] at h
    rcases except_both_eq_error h with h | h
    · obtain ⟨cause, hcause, rfl⟩ := except_mapError_eq_error.mp h
      exact ⟨(origin, r), List.mem_cons_self, cause, _, hcause, rfl⟩
    · obtain ⟨other, ho, hother⟩ := ih h
      exact ⟨other, List.mem_cons_of_mem _ ho, hother⟩

theorem Property.dataAll_eq_error {stored : StoredData κ} {properties : List (Property κ)}
    (h : Property.dataAll casting request stored properties = .error error) :
    ∃ property ∈ properties, property.data? casting request stored = some (.error error) := by
  induction properties with
  | nil => cases h
  | cons property rest ih =>
    rw [Property.dataAll] at h
    have hlater : Property.dataAll casting request stored rest = .error error →
        ∃ other ∈ property :: rest, other.data? casting request stored = some (.error error) := by
      intro hrest
      obtain ⟨other, ho, hother⟩ := ih hrest
      exact ⟨other, List.mem_cons_of_mem _ ho, hother⟩
    cases hd : property.data? casting request stored with
    | none =>
      rw [hd] at h
      exact hlater h
    | some data =>
      rw [hd] at h
      rcases except_both_eq_error h with hdata | h
      · exact ⟨property, List.mem_cons_self, by rw [hd, hdata]⟩
      · exact hlater h

/-- Whatever the casts, the error that the data of the value ends with is attributed to an object in
the value, if it names a class. -/
def Value.Answers (casting : Casting κ) (v : Value κ) : Prop :=
  ∀ flags casts error, v.restore casting ⟨flags, false⟩ casts = .error error → v.Attributes error

theorem Value.attributes_of_dataFor {flags : Flags} {property : Property κ} (hv : v.Answers casting)
    (hitems : ∀ items, v = .list items → ∀ item ∈ items, item.Answers casting)
    (h : v.dataFor casting ⟨flags, false⟩ property = .error error) : v.Attributes error := by
  by_cases hlist : v.isList = true
  · cases v with
    | list items =>
      rw [dataFor] at h
      obtain ⟨outer, hdata, rfl⟩ := except_mapError_eq_error.mp h
      obtain ⟨item, hi, cause, head, hcause, rfl⟩ :=
        restoreItems_eq_error (except_map_eq_error.mp hdata)
      have hitem := (hitems items rfl item hi _ _ _ hcause).imp (w := .list items) fun _ => .item hi
      exact (hitem.prefixed head).prefixed property.name
    | _ => cases hlist
  · rw [dataFor_eq_restore _ (Bool.not_eq_true _ ▸ hlist)] at h
    obtain ⟨cause, hcause, rfl⟩ := except_mapError_eq_error.mp h
    exact (hv _ _ _ hcause).prefixed property.name

/-- The data of an instance, or of some of its properties, ends with an error for one of the stored
values. -/
theorem Instance.attributes_of_dataAll {r : Instance κ} {properties : List (Property κ)}
    (hstored : ∀ entry ∈ r.stored, ∀ w : Value κ, sizeOf w ≤ sizeOf entry.2 → w.Answers casting)
    (h : Property.dataAll casting ⟨r.flags, false⟩
      (Value.storedData casting ⟨r.flags, false⟩ r.stored) properties = .error error) :
    ∃ entry ∈ r.stored, entry.2.Attributes error := by
  obtain ⟨property, -, hdata⟩ := Property.dataAll_eq_error h
  rw [Instance.data?_eq, if_neg Bool.false_ne_true, Option.or_none, Option.map_eq_some_iff] at hdata
  obtain ⟨value, hget, hvalue⟩ := hdata
  have hmem := Table.mem_of_get? hget
  refine ⟨_, hmem, Value.attributes_of_dataFor (hstored _ hmem value (Nat.le_refl _)) ?_ hvalue⟩
  rintro items rfl item hi
  exact hstored _ hmem item (Value.sizeOf_lt_of_mem_list hi).le

namespace Value

theorem answers_list {items : List (Value κ)} (h : ∀ item ∈ items, item.Answers casting) :
    (Value.list items).Answers casting := by
  intro flags casts error herror
  rw [restore, plainItems_eq_restoreItems ⟨flags, false⟩] at herror
  obtain ⟨item, hi, cause, head, hcause, rfl⟩ :=
    restoreItems_eq_error (except_map_eq_error.mp herror)
  exact ((h item hi _ _ _ hcause).imp fun _ => .item hi).prefixed head

theorem answers_map {entries : List (String × Value κ)}
    (h : ∀ entry ∈ entries, entry.2.Answers casting) : (Value.map entries).Answers casting := by
  intro flags casts error herror
  rw [restore] at herror
  obtain ⟨entry, he, cause, hcause, rfl⟩ :=
    plainEntries_eq_error ⟨flags, false⟩ (except_map_eq_error.mp herror)
  exact ((h entry he _ _ _ hcause).imp fun _ => .entry he).prefixed entry.1

theorem answers_record (hc : casting.Abstains) {origin : Origin} {r : Instance κ}
    (h : ∀ error, r.data casting false = .error error →
      ∃ entry ∈ r.stored, entry.2.Attributes error) : (Value.record origin r).Answers casting := by
  intro flags casts error herror
  have hdata : r.data casting false = .error error := by
    rw [restore] at herror
    split at herror
    · next result hdone => exact absurd hdone (hc.restoreFirst result)
    · exact except_map_eq_error.mp herror
  obtain ⟨entry, he, hentry⟩ := h error hdata
  exact hentry.imp fun _ => .stored he

theorem answers_object (hc : casting.Abstains) {origin : Origin} {o : Object κ}
    (h : ∀ name itemClass items, o = .collection name itemClass items → ∀ item ∈ items, ∀ error,
      item.2.data casting false = .error error →
        ∃ entry ∈ item.2.stored, entry.2.Attributes error) :
    (Value.object origin o).Answers casting := by
  intro flags casts error herror
  have hdata : o.nativeData casting = .error error := by
    rw [restore] at herror
    split at herror
    · next result hdone => exact absurd hdone (hc.restoreFirst result)
    · cases o with
      | wrapper typeName aliases data inner => cases data <;> exact herror
      | _ => exact herror
    · exact herror
  cases o with
  | sealed typeName inner =>
    cases hdata
    exact .inl rfl
  | wrapper typeName aliases data inner =>
    cases data with
    | none =>
      cases hdata
      exact .inl rfl
    | some data =>
      cases hdata
      exact .inr ⟨error, .object, rfl⟩
  | collection name itemClass items =>
    rw [Object.nativeData] at hdata
    obtain ⟨item, hi, cause, head, hcause, rfl⟩ :=
      Instance.dataItems_eq_error (except_map_eq_error.mp hdata)
    obtain ⟨entry, he, hentry⟩ := h name itemClass items rfl item hi cause hcause
    exact (hentry.imp fun _ => .member hi he).prefixed head

/-- **Serialization names no class by itself**, with the built-in casts: an error that names one is
that of an object that has it for its data form.  By induction on the size of the value. -/
theorem answers (hc : casting.Abstains) (v : Value κ) : v.Answers casting := by
  induction hn : sizeOf v using Nat.strong_induction_on generalizing v with
  | _ n ih =>
    subst hn
    have hdata : ∀ r : Instance κ, sizeOf r < sizeOf v → ∀ error,
        r.data casting false = .error error → ∃ entry ∈ r.stored, entry.2.Attributes error := by
      intro r hr error h
      rw [Instance.data_eq_dataAll] at h
      refine Instance.attributes_of_dataAll (fun entry he w hw => ih (sizeOf w) ?_ w rfl) h
      have hentry := r.sizeOf_lt_of_mem_stored he
      omega
    cases v with
    | list items =>
      exact answers_list fun item hi => ih _ (sizeOf_lt_of_mem_list hi) item rfl
    | map entries =>
      exact answers_map fun entry he => ih _ (sizeOf_lt_of_mem_map he) entry.2 rfl
    | record origin r =>
      exact answers_record hc (hdata r (sizeOf_lt_record origin r))
    | object origin o =>
      refine answers_object hc fun name itemClass items ho item hi => hdata item.2 ?_
      rw [ho]
      exact (sizeOf_lt_record item.1 item.2).trans (sizeOf_record_lt_of_mem_collection origin hi)
    | _ => exact fun _ _ _ h => by cases h

end Value

theorem Instance.attributes_of_dataWhere (hc : casting.Abstains) {record : Instance κ}
    {keep : String → Bool} (h : record.dataWhere casting keep = .error error) :
    ∃ entry ∈ record.stored, entry.2.Attributes error :=
  attributes_of_dataAll (fun _ _ w _ => w.answers hc) h

end Serialization

/-! ## All operations of an instance -/

theorem Instance.ownedBy_of_checkKnown {record : Instance κ} {names : List String} {error : Error}
    (h : record.checkKnown names = .error error) : error.OwnedBy record.className := by
  unfold checkKnown at h
  dsimp only at h
  split at h
  · cases h
  · cases h
    exact Error.ownedBy_unknownProperties record.className _

theorem Instance.ownedBy_of_get {record : Instance κ} {name : String} {error : Error}
    (h : record.get name = .error error) : error.OwnedBy record.className := by
  unfold get at h
  split at h
  · cases h
    exact Error.ownedBy_unknownProperties record.className [name]
  · split at h
    · cases h
    · split at h
      · cases h
      · cases h
        exact Error.ownedBy_undefinedProperties record.className [name]

namespace Engine

variable {D : ClassDeclaration κ → Prop} {engine : Engine κ} {record : Instance κ} {error : Error}

theorem ownedBy_of_set {name : String} {value : Value κ}
    (h : (engine.set record name value).1 = .error error) : error.OwnedBy record.className := by
  by_cases hmutable : record.flags.contains .mutable = true
  · cases hp : record.metadata.property? name with
    | some property =>
      obtain ⟨inner, -, rfl⟩ := set_eq_error hmutable hp h
      exact Error.ownedBy_withOwner record.className inner
    | none =>
      unfold set at h
      rw [hmutable, hp] at h
      cases h
      exact Error.ownedBy_unknownProperties record.className [name]
  · unfold set at h
    rw [if_pos (by simp [hmutable])] at h
    cases h
    exact Error.ownedBy_of_owners_eq_nil rfl

/-- What cannot be made anew is reported by the class under the name that it is looked up by, which
is its own, unless this still begins with a backslash. -/
theorem Reachable.ownedBy_of_rebuild (hr : Reachable D engine) {input : Table (Value κ)}
    (hi : Table.Distinct input) (h : (engine.rebuild record input).1 = .error error) :
    error.OwnedBy record.className ∨ (∃ rest, record.className.toList = '\\' :: rest) ∧
      error.OwnedBy (normalName (normalName record.className)) := by
  have howned := (hr.normal_error hi h).ownedBy
  by_cases hslash : ∃ rest, record.className.toList = '\\' :: rest
  · exact .inr ⟨hslash, howned⟩
  · have hname : normalName record.className = record.className :=
      normalName_eq_self fun rest hrest => hslash ⟨rest, hrest⟩
    rw [hname, hname] at howned
    exact .inl howned

theorem Reachable.ownedBy_of_remakeWhere (hr : Reachable D engine)
    (hd : Table.Distinct record.stored) {names : List String} {keep : String → Bool}
    (h : (engine.remakeWhere record names keep).1 = .error error) :
    error.OwnedBy record.className ∨ (∃ rest, record.className.toList = '\\' :: rest) ∧
      error.OwnedBy (normalName (normalName record.className)) := by
  unfold remakeWhere at h
  split at h
  · next unknown hunknown =>
    cases h
    exact .inl (Instance.ownedBy_of_checkKnown hunknown)
  · exact hr.ownedBy_of_rebuild (hd.sublist (List.filter_sublist.map Prod.fst)) h

/-- **The errors of an instance name its class**, with two exceptions.  Asking along a path fails in
the name of the class that the path has led to, though the path is told from the instance that was
asked.  And if an object in the instance has an error for its data form, this names whatever it
names.  A class that is made anew goes by the name that it is looked up by, which is another one if
its own still begins with a backslash. -/
theorem Reachable.instance_owns_errors (hr : Reachable D engine) (hc : engine.casting.Abstains)
    (record : Instance κ) (hd : Table.Distinct record.stored) :
    (∀ name error, record.get name = .error error → error.OwnedBy record.className) ∧
    (∀ name value error, (engine.set record name value).1 = .error error →
      error.OwnedBy record.className) ∧
    (∀ path error, record.isDefined path = .error error ↔ ∃ names last others inner,
      (Text.pieces '.' path.toList).map String.ofList = names ++ last :: others ∧
        record.Nests names inner ∧ inner.metadata.declares last = false ∧
        error = .unknownProperties inner.className [names.foldr joinPath last]) ∧
    (∀ names error, record.only engine.casting names = .error error ∨
        record.except engine.casting names = .error error →
      error.OwnedBy record.className ∨
        ∃ entry ∈ record.stored, ∃ cause, entry.2.Faulty cause ∧ error.owners = cause.owners) ∧
    (∀ overrides names error, (engine.remake record overrides).1 = .error error ∨
        (engine.remakeOnly record names).1 = .error error ∨
        (engine.remakeExcept record names).1 = .error error →
      error.OwnedBy record.className ∨ (∃ rest, record.className.toList = '\\' :: rest) ∧
        error.OwnedBy (normalName (normalName record.className))) := by
  have hdata : ∀ keep error, record.dataWhere engine.casting keep = .error error →
      error.OwnedBy record.className ∨
        ∃ entry ∈ record.stored, ∃ cause, entry.2.Faulty cause ∧ error.owners = cause.owners := by
    intro keep error h
    obtain ⟨entry, he, howners | hcause⟩ := Instance.attributes_of_dataWhere hc h
    · exact .inl (Error.ownedBy_of_owners_eq_nil howners)
    · exact .inr ⟨entry, he, hcause⟩
  refine ⟨fun _ _ => Instance.ownedBy_of_get, fun _ _ _ => ownedBy_of_set,
    fun _ _ => Instance.isDefined_eq_error, ?_, ?_⟩
  · rintro names error (h | h)
    all_goals
      rcases except_bind_eq_error.mp h with hunknown | ⟨_, -, h⟩
      · exact .inl (Instance.ownedBy_of_checkKnown hunknown)
      · exact hdata _ error h
  · rintro overrides names error (h | h | h)
    · exact hr.ownedBy_of_rebuild (Table.distinct_putAll hd overrides) h
    · exact hr.ownedBy_of_remakeWhere hd h
    · exact hr.ownedBy_of_remakeWhere hd h

end Engine

namespace Atlas

/-- The classes that the error of an outcome names. -/
def ownersOf {α : Type} : Except Error α → List String
  | .error error => error.owners
  | .ok _ => []

/-- The river of the capital is unknown to the city that the capital is, the river of a country to
the country. -/
theorem france_rivers : ∃ record, (engine.make "Country" france .mutable).1 = .ok record ∧
    record.isDefined "capital.river" = .error (.unknownProperties "City" ["capital.river"]) ∧
    ∀ value error, (engine.set record "river" value).1 = .error error →
      error.OwnedBy "Country" := by
  obtain ⟨record, origin, capital, hrecord, hdistinct, hclass, hdeclared, hcapital, hcity, hriver⟩ :
      ∃ record origin capital, (engine.make "Country" france .mutable).1 = .ok record ∧
        (Table.keys record.stored).Nodup ∧ record.className = "Country" ∧
        record.metadata.declares "capital" = true ∧
        record.stored? "capital" = some (.record origin capital) ∧
        capital.className = "City" ∧ capital.metadata.declares "river" = false :=
    ⟨_, _, _, rfl, by decide +kernel, rfl, rfl, rfl, rfl, rfl⟩
  have hpieces : (Text.pieces '.' "capital.river".toList).map String.ofList =
      ["capital"] ++ "river" :: [] := by decide +kernel
  have hpath : ["capital"].foldr joinPath "river" = "capital.river" := by decide +kernel
  obtain ⟨-, hset, hdefined, -⟩ :=
    (reachable (D := fun _ => True) trivial trivial).instance_owns_errors nofun record hdistinct
  refine ⟨record, hrecord, ?_, fun value error h => hclass ▸ hset "river" value error h⟩
  refine (hdefined _ _).mpr ⟨["capital"], "river", [], capital, hpieces,
    .step hdeclared hcapital .here, hriver, ?_⟩
  rw [hcity, hpath]

/-- So the country does not report in its own name what it is asked for. -/
theorem river_reported_by_city : ∃ record error,
    (engine.make "Country" france .mutable).1 = .ok record ∧ record.className = "Country" ∧
      record.isDefined "capital.river" = .error error ∧ ¬error.OwnedBy record.className := by
  have howners : ((engine.make "Country" france .mutable).1.toOption.map fun record =>
      (record.className, ownersOf (record.isDefined "capital.river"))) =
        some ("Country", ["City"]) := by decide +kernel
  cases hrecord : (engine.make "Country" france .mutable).1 with
  | error _ => rw [hrecord] at howners; cases howners
  | ok record =>
    rw [hrecord] at howners
    obtain ⟨hclass, howners⟩ := Prod.mk.inj (Option.some.inj howners)
    cases hdefined : record.isDefined "capital.river" with
    | ok _ => rw [hdefined] at howners; cases howners
    | error error =>
      rw [hdefined] at howners
      have hcity : "City" ∈ error.owners := by
        rw [show error.owners = ["City"] from howners]
        exact List.mem_singleton_self "City"
      refine ⟨record, error, rfl, hclass, hdefined, fun howned => ?_⟩
      exact absurd ((howned _ hcity).trans hclass) (by decide +kernel)

end Atlas

end TypedRecords
