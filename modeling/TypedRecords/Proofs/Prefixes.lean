import TypedRecords.Proofs.Collecting

/-!
# Errors from further out

An error that is seen from one level further out reports the same as before, with the name or the
position of that level in front of every path (`Error.invalidTypes_prefixed`,
`Error.unknownPaths_prefixed`, `Error.undefinedPaths_prefixed`), and a collector takes it in just if
it took in the error before (`Error.isMergeable_prefixed`).  Different paths stay different
(`joinPath_injective`).
-/

namespace TypedRecords

/-- A path from further out tells where it came from. -/
theorem joinPath_injective (head : String) : Function.Injective (joinPath head) := by
  intro path other h
  have hgrows : ∀ rest : String, head ≠ head ++ "." ++ rest := by
    intro rest heq
    have hlength := congrArg String.length heq
    simp only [String.length_append] at hlength
    have hdot : ".".length = 1 := rfl
    omega
  unfold joinPath at h
  by_cases hp : path = "" <;> by_cases ho : other = ""
  · rw [hp, ho]
  · rw [if_pos hp, if_neg ho] at h
    exact absurd h (hgrows other)
  · rw [if_neg hp, if_pos ho] at h
    exact absurd h.symm (hgrows path)
  · rw [if_neg hp, if_neg ho] at h
    exact (String.append_right_inj _).mp h

namespace Error

theorem prefixedAll_eq_map (head : String) (errors : List Error) :
    prefixedAll head errors = errors.map (·.prefixed head) := by
  induction errors with
  | nil => rfl
  | cons error rest ih => rw [prefixedAll, ih, List.map_cons]

/-- What is reported from further out, for any report that looks through aggregates and is changed
in every leaf. -/
theorem report_prefixed {α : Type} {report : Error → List α} {change : α → α} {head : String}
    (hagg : ∀ errors, report (aggregate errors) = errors.flatMap report)
    (hleaf : ∀ error : Error, (∀ errors, error ≠ aggregate errors) →
      report (error.prefixed head) = (report error).map change) (error : Error) :
    report (error.prefixed head) = (report error).map change := by
  induction error using tree_induction with
  | leaf error h => exact hleaf error h
  | aggregate errors ih =>
    rw [prefixed, hagg, hagg, prefixedAll_eq_map, List.flatMap_map, List.map_flatMap]
    exact List.flatMap_congr ih

theorem invalidTypes_prefixed (head : String) (error : Error) :
    (error.prefixed head).invalidTypes = error.invalidTypes.map (·.prefixed head) := by
  refine report_prefixed invalidTypesAll_eq_flatMap (fun error h => ?_) error
  cases error with
  | aggregate errors => exact absurd rfl (h errors)
  | _ => rfl

theorem unknownPaths_prefixed (head : String) (error : Error) :
    (error.prefixed head).unknownPaths = error.unknownPaths.map (joinPath head) := by
  refine report_prefixed unknownPathsAll_eq_flatMap (fun error h => ?_) error
  cases error with
  | aggregate errors => exact absurd rfl (h errors)
  | _ => rfl

theorem undefinedPaths_prefixed (head : String) (error : Error) :
    (error.prefixed head).undefinedPaths = error.undefinedPaths.map (joinPath head) := by
  refine report_prefixed undefinedPathsAll_eq_flatMap (fun error h => ?_) error
  cases error with
  | aggregate errors => exact absurd rfl (h errors)
  | _ => rfl

theorem leaves_prefixed (head : String) (error : Error) :
    (error.prefixed head).leaves = error.leaves.map (·.prefixed head) := by
  refine report_prefixed leavesAll_eq_flatMap (fun error h => ?_) error
  cases error with
  | aggregate errors => exact absurd rfl (h errors)
  | _ => rfl

theorem isFatal_prefixed (head : String) (error : Error) :
    (error.prefixed head).isFatal = error.isFatal := by
  cases error <;> rfl

theorem isMergeable_prefixed (head : String) (error : Error) :
    (error.prefixed head).isMergeable = error.isMergeable := by
  unfold isMergeable
  rw [leaves_prefixed, List.all_map]
  exact congrArg error.leaves.all (funext fun leaf => by rw [Function.comp, isFatal_prefixed])

theorem isSilent_prefixed {head : String} {error : Error} :
    (error.prefixed head).IsSilent ↔ error.IsSilent := by
  unfold IsSilent
  rw [isMergeable_prefixed, invalidTypes_prefixed, unknownPaths_prefixed, undefinedPaths_prefixed,
    List.map_eq_nil_iff, List.map_eq_nil_iff, List.map_eq_nil_iff]

end Error

end TypedRecords
