import TypedRecords.Error.Collector
import TypedRecords.Proofs.Lists

/-!
# Absorbing an error

An error is a tree: its inner nodes are aggregates, its leaves errors of the other kinds.  A
collector goes through the leaves from left to right.  It records what the mergeable ones report,
and it stops at the first fatal one, however the leaves are grouped.

* `Error.tree_induction`: induction over the errors in an aggregate.
* `Error.leaves`: the leaves, in order.  `Error.invalidTypes_eq_leaves` and its companions: an error
  reports what its leaves report.
* `Collector.merge`: a collector with what some leaves report added to it.
* `Collector.absorb_eq`: **absorbing an error** merges the leaves before the first fatal one and
  hands that one back.
* `Collector.toError?_eq_some`: the error of a collector reports what is recorded, and
  `Collector.toError?_eq_none_iff`: there is one unless nothing is.
-/

namespace TypedRecords

namespace Error

/-! ## Trees -/

/-- What holds of every error but aggregates, and of an aggregate if it holds of all errors in it,
holds of every error. -/
@[elab_as_elim]
theorem tree_induction {P : Error → Prop}
    (leaf : ∀ error, (∀ errors, error ≠ aggregate errors) → P error)
    (aggregate : ∀ errors, (∀ error ∈ errors, P error) → P (aggregate errors)) (error : Error) :
    P error := by
  induction hn : sizeOf error using Nat.strongRecOn generalizing error with
  | ind n ih =>
    subst hn
    cases error with
    | aggregate errors =>
      refine aggregate errors fun part hpart => ih _ ?_ part rfl
      have hsize := List.sizeOf_lt_of_mem hpart
      rw [Error.aggregate.sizeOf_spec]
      omega
    | _ => exact leaf _ nofun

/-! ## Leaves -/

mutual

/-- The errors of which an error is put together, in order: aggregates are opened. -/
def leaves : Error → List Error
  | aggregate errors => leavesAll errors
  | error => [error]

/-- The leaves of all errors, in order. -/
def leavesAll : List Error → List Error
  | [] => []
  | error :: rest => error.leaves ++ leavesAll rest

end

/-- Whether the error stops a collector. -/
def isFatal (error : Error) : Bool := !error.isAggregatable

/-- Whether no leaf is fatal, so that a collector takes the error in as a whole. -/
def isMergeable (error : Error) : Bool := error.leaves.all (!·.isFatal)

theorem leaves_eq_singleton {error : Error} (h : ∀ errors, error ≠ aggregate errors) :
    error.leaves = [error] := by
  cases error with
  | aggregate errors => exact absurd rfl (h errors)
  | _ => rfl

theorem leavesAll_eq_flatMap (errors : List Error) : leavesAll errors = errors.flatMap leaves := by
  induction errors with
  | nil => rfl
  | cons error rest ih => rw [leavesAll, ih, List.flatMap_cons]

theorem invalidTypesAll_eq_flatMap (errors : List Error) :
    invalidTypesAll errors = errors.flatMap invalidTypes := by
  induction errors with
  | nil => rfl
  | cons error rest ih => rw [invalidTypesAll, ih, List.flatMap_cons]

theorem unknownPathsAll_eq_flatMap (errors : List Error) :
    unknownPathsAll errors = errors.flatMap unknownPaths := by
  induction errors with
  | nil => rfl
  | cons error rest ih => rw [unknownPathsAll, ih, List.flatMap_cons]

theorem undefinedPathsAll_eq_flatMap (errors : List Error) :
    undefinedPathsAll errors = errors.flatMap undefinedPaths := by
  induction errors with
  | nil => rfl
  | cons error rest ih => rw [undefinedPathsAll, ih, List.flatMap_cons]

theorem ne_aggregate_of_mem_leaves {leaf : Error} (errors : List Error) (error : Error)
    (h : leaf ∈ error.leaves) : leaf ≠ aggregate errors := by
  induction error using tree_induction with
  | leaf error hleaf =>
    rw [leaves_eq_singleton hleaf, List.mem_singleton] at h
    rw [h]
    exact hleaf errors
  | aggregate inner ih =>
    rw [leaves, leavesAll_eq_flatMap] at h
    obtain ⟨part, hpart, h⟩ := List.mem_flatMap.mp h
    exact ih part hpart h

/-- What an error reports is what its leaves report, whenever aggregates are looked through. -/
theorem report_eq_leaves {α : Type} {report : Error → List α}
    (hagg : ∀ errors, report (aggregate errors) = errors.flatMap report) (error : Error) :
    report error = error.leaves.flatMap report := by
  induction error using tree_induction with
  | leaf error h => rw [leaves_eq_singleton h, List.flatMap_singleton]
  | aggregate errors ih =>
    rw [hagg, leaves, leavesAll_eq_flatMap, List.flatMap_assoc]
    exact List.flatMap_congr ih

theorem invalidTypes_eq_leaves (error : Error) :
    error.invalidTypes = error.leaves.flatMap invalidTypes :=
  report_eq_leaves invalidTypesAll_eq_flatMap error

theorem unknownPaths_eq_leaves (error : Error) :
    error.unknownPaths = error.leaves.flatMap unknownPaths :=
  report_eq_leaves unknownPathsAll_eq_flatMap error

theorem undefinedPaths_eq_leaves (error : Error) :
    error.undefinedPaths = error.leaves.flatMap undefinedPaths :=
  report_eq_leaves undefinedPathsAll_eq_flatMap error

end Error

namespace Collector

/-! ## Merging -/

/-- The collector with what the errors report added: invalid values as reported by its owner, a path
only if it is new. -/
def merge (report : Collector) (errors : List Error) : Collector where
  owner := report.owner
  invalid := report.invalid ++ (errors.flatMap Error.invalidTypes).map (·.withOwner report.owner)
  unknown := (errors.flatMap Error.unknownPaths).foldl addNew report.unknown
  undefined := (errors.flatMap Error.undefinedPaths).foldl addNew report.undefined

@[simp] theorem merge_nil (report : Collector) : report.merge [] = report := by
  simp [merge]

theorem merge_append (report : Collector) (errors others : List Error) :
    report.merge (errors ++ others) = (report.merge errors).merge others := by
  simp [merge, List.foldl_append]

theorem merge_leavesAll (report : Collector) (errors : List Error) :
    report.merge (Error.leavesAll errors) = report.merge errors := by
  simp only [merge, Error.leavesAll_eq_flatMap, List.flatMap_assoc, ← Error.invalidTypes_eq_leaves,
    ← Error.unknownPaths_eq_leaves, ← Error.undefinedPaths_eq_leaves]

theorem foldl_addInvalid (failures : List Failure) (report : Collector) :
    failures.foldl addInvalid report =
      { report with invalid := report.invalid ++ failures.map (·.withOwner report.owner) } := by
  induction failures generalizing report with
  | nil => simp
  | cons failure rest ih => simp [ih, addInvalid]

theorem foldl_addUnknown (paths : List String) (report : Collector) :
    paths.foldl addUnknown report =
      { report with unknown := paths.foldl addNew report.unknown } := by
  induction paths generalizing report with
  | nil => rfl
  | cons path rest ih => simp [ih, addUnknown]

theorem foldl_addUndefined (paths : List String) (report : Collector) :
    paths.foldl addUndefined report =
      { report with undefined := paths.foldl addNew report.undefined } := by
  induction paths generalizing report with
  | nil => rfl
  | cons path rest ih => simp [ih, addUndefined]

theorem merge_empty (owner : String) (errors : List Error) :
    merge { owner } errors =
      { owner
        invalid := (errors.flatMap Error.invalidTypes).map (·.withOwner owner)
        unknown := (errors.flatMap Error.unknownPaths).eraseDups
        undefined := (errors.flatMap Error.undefinedPaths).eraseDups } := by
  rw [merge, foldl_addNew_eq_eraseDups, foldl_addNew_eq_eraseDups, List.nil_append]

/-! ## Absorbing -/

theorem absorb_of_isFatal {error : Error} (h : error.isFatal = true) (report : Collector) :
    report.absorb error = (report, some error) := by
  cases error <;> first | rfl | simp [Error.isFatal, Error.isAggregatable] at h

theorem absorb_leaf {leaf : Error} (hleaf : ∀ errors, leaf ≠ .aggregate errors)
    (h : leaf.isFatal = false) (report : Collector) :
    report.absorb leaf = (report.merge [leaf], none) := by
  cases leaf with
  | aggregate errors => exact absurd rfl (hleaf errors)
  | invalidType failures =>
    simp [absorb, foldl_addInvalid, merge, Error.invalidTypes, Error.unknownPaths,
      Error.undefinedPaths]
  | unknownProperties owner paths =>
    simp [absorb, foldl_addUnknown, merge, Error.invalidTypes, Error.unknownPaths,
      Error.undefinedPaths]
  | undefinedProperties owner paths =>
    simp [absorb, foldl_addUndefined, merge, Error.invalidTypes, Error.unknownPaths,
      Error.undefinedPaths]
  | _ => simp [Error.isFatal, Error.isAggregatable] at h

theorem absorbAll_append (report : Collector) (errors others : List Error) :
    report.absorbAll (errors ++ others) =
      match report.absorbAll errors with
      | (report, none) => report.absorbAll others
      | (report, some fatal) => (report, some fatal) := by
  induction errors generalizing report with
  | nil => rfl
  | cons error rest ih =>
    rw [List.cons_append, absorbAll, absorbAll]
    rcases report.absorb error with ⟨report', _ | fatal⟩
    · exact ih report'
    · rfl

/-- The grouping of leaves into aggregates does not matter. -/
theorem absorb_eq_absorbAll_leaves (report : Collector) (error : Error) :
    report.absorb error = report.absorbAll error.leaves := by
  induction error using Error.tree_induction generalizing report with
  | leaf error h =>
    rw [Error.leaves_eq_singleton h, absorbAll]
    rcases report.absorb error with ⟨report', _ | fatal⟩ <;> rfl
  | aggregate errors ih =>
    rw [absorb, Error.leaves]
    induction errors generalizing report with
    | nil => rfl
    | cons error rest ihrest =>
      rw [absorbAll, Error.leavesAll, absorbAll_append, ih error List.mem_cons_self]
      rcases report.absorbAll error.leaves with ⟨report', _ | fatal⟩
      · exact ihrest (fun e he => ih e (List.mem_cons_of_mem _ he)) report'
      · rfl

theorem absorbAll_leaves {leaves : List Error}
    (hleaf : ∀ leaf ∈ leaves, ∀ errors, leaf ≠ .aggregate errors) (report : Collector) :
    report.absorbAll leaves =
      (report.merge (leaves.takeWhile (!·.isFatal)), leaves.find? (·.isFatal)) := by
  induction leaves generalizing report with
  | nil => simp [absorbAll]
  | cons leaf rest ih =>
    cases hf : leaf.isFatal with
    | true => simp [absorbAll, absorb_of_isFatal hf, hf]
    | false =>
      rw [absorbAll, absorb_leaf (hleaf leaf (by simp)) hf,
        List.takeWhile_cons_of_pos (by simp [hf]), List.find?_cons_of_neg (by simp [hf])]
      simp only [ih fun leaf' h => hleaf leaf' (List.mem_cons_of_mem _ h)]
      rw [← merge_append, List.singleton_append]

/-- **Absorbing an error** merges its leaves up to the first fatal one, which is handed back. -/
theorem absorb_eq (report : Collector) (error : Error) :
    report.absorb error =
      (report.merge (error.leaves.takeWhile (!·.isFatal)), error.leaves.find? (·.isFatal)) := by
  rw [absorb_eq_absorbAll_leaves]
  exact absorbAll_leaves (fun _ h errors => Error.ne_aggregate_of_mem_leaves errors error h) report

/-! ## The error of a collector -/

theorem toError?_eq_none_iff {report : Collector} :
    report.toError? = none ↔
      report.invalid = [] ∧ report.unknown = [] ∧ report.undefined = [] := by
  obtain ⟨owner, invalid, unknown, undefined⟩ := report
  cases invalid <;> cases unknown <;> cases undefined <;> simp [toError?, errors]

theorem toError?_merge_empty_eq_none_iff {owner : String} {errors : List Error} :
    (merge { owner } errors).toError? = none ↔
      ∀ e ∈ errors, e.invalidTypes = [] ∧ e.unknownPaths = [] ∧ e.undefinedPaths = [] := by
  rw [merge_empty, toError?_eq_none_iff]
  simp only [List.map_eq_nil_iff, eraseDups_eq_nil_iff, List.flatMap_eq_nil_iff]
  exact ⟨fun ⟨hi, hu, hd⟩ e he => ⟨hi e he, hu e he, hd e he⟩,
    fun h => ⟨fun e he => (h e he).1, fun e he => (h e he).2.1, fun e he => (h e he).2.2⟩⟩

/-- The error of a collector reports what is recorded, and none of its leaves is fatal. -/
theorem toError?_eq_some {report : Collector} {error : Error} (h : report.toError? = some error) :
    error.invalidTypes = report.invalid ∧ error.unknownPaths = report.unknown ∧
      error.undefinedPaths = report.undefined ∧ error.isMergeable = true := by
  obtain ⟨owner, invalid, unknown, undefined⟩ := report
  cases invalid <;> cases unknown <;> cases undefined <;>
    simp [toError?, errors] at h <;> subst h <;>
    simp [Error.invalidTypes, Error.unknownPaths, Error.undefinedPaths, Error.invalidTypesAll,
      Error.unknownPathsAll, Error.undefinedPathsAll, Error.isMergeable, Error.leaves,
      Error.leavesAll, Error.isFatal, Error.isAggregatable]

end Collector

end TypedRecords
