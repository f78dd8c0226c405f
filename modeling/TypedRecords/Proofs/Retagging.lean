import TypedRecords.Proofs.Prefixes

/-!
# Re-tagging errors

On its way out an error is re-tagged in two ways: it is seen from further out, which is to change its
paths, and it is reported by another class, which is to change the names in it.  Both go through the
whole tree of errors, leave its shape as it is, and do not interfere.

A collector may take an error in before it is seen from further out or after that.  Paths that differ
stay different when the same name is put in front of them, so a path is new just if it was new before.

* `Error.retag`: an error with other names and other paths; `Error.prefixed_eq_retag` and
  `Error.withOwner_eq_retag`: both ways of re-tagging are of this kind.  `Error.retag_retag`: one after
  the other.
* `Collector.absorb_prefixed`: **what a collector holds of an error from further out is what it holds
  of the error, from further out**, and so is the leaf that it hands back.
* `Error.retagging`: what re-tagging changes and what it leaves.
-/

namespace TypedRecords

namespace Error

/-! ## Other names and other paths -/

mutual

/-- The error with `onOwner` applied to the classes that report something in it, and `onPath` to the
paths. -/
def retag (onOwner onPath : String → String) : Error → Error
  | unknownProperties owner paths => unknownProperties (onOwner owner) (paths.map onPath)
  | undefinedProperties owner paths => undefinedProperties (onOwner owner) (paths.map onPath)
  | invalidType failures =>
    invalidType (failures.map fun failure =>
      { failure with owner := onOwner failure.owner, path := onPath failure.path })
  | aggregate errors => aggregate (retagAll onOwner onPath errors)
  | unserializable path typeName => unserializable (onPath path) typeName
  | castFailed path reason => castFailed (onPath path) reason
  | error => error

/-- Each error with other names and other paths. -/
def retagAll (onOwner onPath : String → String) : List Error → List Error
  | [] => []
  | error :: rest => error.retag onOwner onPath :: retagAll onOwner onPath rest

end

/-- The error with all paths left empty. -/
def withoutPaths (error : Error) : Error := error.retag id fun _ => ""

/-- The error with all names of classes that report something left empty. -/
def withoutOwners (error : Error) : Error := error.retag (fun _ => "") id

theorem retagAll_eq_map (onOwner onPath : String → String) (errors : List Error) :
    retagAll onOwner onPath errors = errors.map (·.retag onOwner onPath) := by
  induction errors with
  | nil => rfl
  | cons error rest ih => rw [retagAll, ih, List.map_cons]

theorem withOwnerAll_eq_map (owner : String) (errors : List Error) :
    withOwnerAll owner errors = errors.map (·.withOwner owner) := by
  induction errors with
  | nil => rfl
  | cons error rest ih => rw [withOwnerAll, ih, List.map_cons]

theorem prefixed_eq_retag (head : String) (error : Error) :
    error.prefixed head = error.retag id (joinPath head) := by
  induction error using tree_induction with
  | leaf error h =>
    cases error with
    | aggregate errors => exact absurd rfl (h errors)
    | _ => rfl
  | aggregate errors ih =>
    rw [prefixed, retag, prefixedAll_eq_map, retagAll_eq_map]
    exact congrArg aggregate (List.map_congr_left ih)

theorem withOwner_eq_retag (owner : String) (error : Error) :
    error.withOwner owner = error.retag (fun _ => owner) id := by
  induction error using tree_induction with
  | leaf error h =>
    cases error with
    | aggregate errors => exact absurd rfl (h errors)
    | unknownProperties | undefinedProperties => rw [withOwner, retag, List.map_id]
    | _ => rfl
  | aggregate errors ih =>
    rw [withOwner, retag, withOwnerAll_eq_map, retagAll_eq_map]
    exact congrArg aggregate (List.map_congr_left ih)

/-- **Re-tagging twice** is re-tagging once. -/
theorem retag_retag (onOwner onPath onOwner' onPath' : String → String) (error : Error) :
    (error.retag onOwner onPath).retag onOwner' onPath' =
      error.retag (onOwner' ∘ onOwner) (onPath' ∘ onPath) := by
  induction error using tree_induction with
  | leaf error h =>
    cases error with
    | aggregate errors => exact absurd rfl (h errors)
    | unknownProperties | undefinedProperties => rw [retag, retag, retag, List.map_map]; rfl
    | invalidType => rw [retag, retag, retag, List.map_map]; rfl
    | _ => rfl
  | aggregate errors ih =>
    rw [retag, retag, retag, retagAll_eq_map, retagAll_eq_map, retagAll_eq_map, List.map_map]
    exact congrArg aggregate (List.map_congr_left ih)

theorem withOwner_prefixed (head owner : String) (error : Error) :
    (error.prefixed head).withOwner owner = (error.withOwner owner).prefixed head := by
  calc (error.prefixed head).withOwner owner
      = (error.retag id (joinPath head)).retag (fun _ => owner) id := by
        rw [prefixed_eq_retag, withOwner_eq_retag]
    _ = error.retag (fun _ => owner) (joinPath head) :=
        retag_retag id (joinPath head) (fun _ => owner) id error
    _ = (error.retag (fun _ => owner) id).retag id (joinPath head) :=
        (retag_retag (fun _ => owner) id id (joinPath head) error).symm
    _ = (error.withOwner owner).prefixed head := by
        rw [prefixed_eq_retag, withOwner_eq_retag]

theorem withoutPaths_prefixed (head : String) (error : Error) :
    (error.prefixed head).withoutPaths = error.withoutPaths := by
  rw [withoutPaths, prefixed_eq_retag]
  exact retag_retag ..

theorem withoutOwners_withOwner (owner : String) (error : Error) :
    (error.withOwner owner).withoutOwners = error.withoutOwners := by
  rw [withoutOwners, withOwner_eq_retag]
  exact retag_retag ..

end Error

/-! ## Collecting from further out -/

namespace Collector

/-- The collector with all that it holds seen from one level further out. -/
def prefixed (head : String) (report : Collector) : Collector where
  owner := report.owner
  invalid := report.invalid.map (·.prefixed head)
  unknown := report.unknown.map (joinPath head)
  undefined := report.undefined.map (joinPath head)

theorem merge_prefixed (head : String) (report : Collector) (errors : List Error) :
    (report.prefixed head).merge (errors.map (·.prefixed head)) =
      (report.merge errors).prefixed head := by
  have hnew := @foldl_addNew_map String _ (joinPath head) (joinPath_injective head)
  simp only [merge, prefixed, List.flatMap_map, Error.invalidTypes_prefixed,
    Error.unknownPaths_prefixed, Error.undefinedPaths_prefixed, ← List.map_flatMap, hnew,
    List.map_append, List.map_map]
  rfl

/-- **A collector may take an error in from further out**, and then holds, and hands back, the same
from further out. -/
theorem absorb_prefixed (head : String) (report : Collector) (error : Error) :
    (report.prefixed head).absorb (error.prefixed head) =
      ((report.absorb error).1.prefixed head, (report.absorb error).2.map (·.prefixed head)) := by
  have hfatal : Error.isFatal ∘ Error.prefixed head = Error.isFatal :=
    funext (Error.isFatal_prefixed head)
  have hmild : (!·.isFatal) ∘ Error.prefixed head = (!·.isFatal) :=
    funext fun leaf => congrArg not (Error.isFatal_prefixed head leaf)
  rw [absorb_eq, absorb_eq, Error.leaves_prefixed, List.takeWhile_map, List.find?_map,
    merge_prefixed, hfatal, hmild]

theorem toError?_prefixed (head : String) (report : Collector) :
    (report.prefixed head).toError? = report.toError?.map (·.prefixed head) := by
  obtain ⟨owner, invalid, unknown, undefined⟩ := report
  cases invalid <;> cases unknown <;> cases undefined <;> rfl

end Collector

/-- **What re-tagging changes and what it leaves.**  To see an error from further out and to report it
in another name can be done in either order; the one changes paths only, the other names only.  What
an error reports from further out is what it reports, with the name put in front of every path; paths
that differ still do.  And a new collector that takes the error in from further out hands the same
leaf back, or nothing, and ends with the same error, each from further out. -/
theorem Error.retagging (head owner reporter : String) (error : Error) :
    (error.prefixed head).withOwner owner = (error.withOwner owner).prefixed head ∧
    (error.prefixed head).withoutPaths = error.withoutPaths ∧
    (error.withOwner owner).withoutOwners = error.withoutOwners ∧
    (error.prefixed head).invalidTypes =
      error.invalidTypes.map (fun failure => { failure with path := joinPath head failure.path }) ∧
    (error.prefixed head).unknownPaths = error.unknownPaths.map (joinPath head) ∧
    (error.prefixed head).undefinedPaths = error.undefinedPaths.map (joinPath head) ∧
    Function.Injective (joinPath head) ∧
    (Collector.absorb { owner := reporter } (error.prefixed head)).2 =
      (Collector.absorb { owner := reporter } error).2.map (·.prefixed head) ∧
    (Collector.absorb { owner := reporter } (error.prefixed head)).1.toError? =
      (Collector.absorb { owner := reporter } error).1.toError?.map (·.prefixed head) := by
  have hnew : Collector.absorb { owner := reporter } (error.prefixed head) = _ :=
    Collector.absorb_prefixed head { owner := reporter } error
  refine ⟨withOwner_prefixed head owner error, withoutPaths_prefixed head error,
    withoutOwners_withOwner owner error, invalidTypes_prefixed head error,
    unknownPaths_prefixed head error, undefinedPaths_prefixed head error, joinPath_injective head,
    ?_⟩
  rw [hnew]
  exact ⟨rfl, Collector.toError?_prefixed head _⟩

end TypedRecords
