import TypedRecords.Proofs.NormalForm

/-!
# What a collector takes in

A collector takes in errors that report failures.  It goes through the leaves of an error from left
to right, and the first leaf that is no such report is handed back as it is.  What the collector
gains are the failures and the paths of the leaves before that one, and of all leaves if there is
none.

Whether an error can be taken in as a whole is thus a matter of its leaves.  `Error.isAggregatable`
looks at the root only, where an aggregate is as good as a report, whatever there is in it.

* `Error.IsReport`: the errors that report failures.
* `Collector.Gains`: one collector has what another one had, and what some errors report.
  `Collector.Takes`: what is to come of some leaves.
* `Collector.absorb_eq_iff_takes`: **this, and nothing else, comes of absorbing an error**.
* `Collector.absorb_lawful`: the law of collectors as a whole; `Error.isAggregatable_predicts`: what
  a look at the root tells of it.
-/

namespace TypedRecords

/-! ## Reports -/

namespace Error

/-- An error that reports failures of one kind. -/
inductive IsReport : Error → Prop
  | invalidType (failures : List Failure) : IsReport (invalidType failures)
  | unknownProperties (owner : String) (paths : List String) :
      IsReport (unknownProperties owner paths)
  | undefinedProperties (owner : String) (paths : List String) :
      IsReport (undefinedProperties owner paths)

theorem isReport_iff {error : Error} (h : ∀ errors, error ≠ aggregate errors) :
    error.IsReport ↔ error.isFatal = false := by
  cases error with
  | aggregate errors => exact absurd rfl (h errors)
  | invalidType failures => exact iff_of_true (.invalidType failures) rfl
  | unknownProperties owner paths => exact iff_of_true (.unknownProperties owner paths) rfl
  | undefinedProperties owner paths => exact iff_of_true (.undefinedProperties owner paths) rfl
  | _ => exact iff_of_false nofun nofun

theorem isReport_iff_of_mem_leaves {leaf error : Error} (h : leaf ∈ error.leaves) :
    leaf.IsReport ↔ leaf.isFatal = false :=
  isReport_iff fun errors => ne_aggregate_of_mem_leaves errors error h

theorem IsReport.leaves_eq {error : Error} (h : error.IsReport) : error.leaves = [error] := by
  cases h <;> rfl

theorem IsPart.isReport {error : Error} {owner : String} (h : error.IsPart owner) :
    error.IsReport := by
  cases h with
  | invalid => exact .invalidType _
  | unknown => exact .unknownProperties _ _
  | undefined => exact .undefinedProperties _ _

theorem reports_or_split (leaves : List Error) :
    (∀ leaf ∈ leaves, leaf.IsReport) ∨
      ∃ before fatal after, leaves = before ++ fatal :: after ∧
        (∀ leaf ∈ before, leaf.IsReport) ∧ ¬fatal.IsReport := by
  by_cases h : ∀ leaf ∈ leaves, leaf.IsReport
  · exact .inl h
  · obtain ⟨index, fatal, hfatal, hnot, hbefore⟩ := exists_first_not h
    obtain ⟨hlt, rfl⟩ := List.getElem?_eq_some_iff.mp hfatal
    refine .inr ⟨leaves.take index, leaves[index], leaves.drop (index + 1), ?_, hbefore, hnot⟩
    rw [List.getElem_cons_drop, List.take_append_drop]

end Error

/-! ## The law of collectors -/

namespace Collector

variable {report report' : Collector} {error : Error}

/-- The second collector holds what the first one does, and behind it what the errors report:
failures in its own name, and of the paths those that are new, at their first occurrence. -/
structure Gains (report report' : Collector) (errors : List Error) : Prop where
  owner : report'.owner = report.owner
  invalid : report'.invalid =
    report.invalid ++ (errors.flatMap Error.invalidTypes).map (·.withOwner report.owner)
  unknown : report'.unknown = report.unknown ++
    ((errors.flatMap Error.unknownPaths).filter (· ∉ report.unknown)).eraseDups
  undefined : report'.undefined = report.undefined ++
    ((errors.flatMap Error.undefinedPaths).filter (· ∉ report.undefined)).eraseDups

/-- What is to come of some leaves: a collector that gains all of them; or one that gains those
before the first leaf that is no report, and with it that leaf. -/
inductive Takes (report : Collector) (leaves : List Error) : Collector × Option Error → Prop
  | all {report' : Collector} : (∀ leaf ∈ leaves, leaf.IsReport) → report.Gains report' leaves →
      Takes report leaves (report', none)
  | upTo {report' : Collector} {before after : List Error} {fatal : Error} :
      leaves = before ++ fatal :: after → (∀ leaf ∈ before, leaf.IsReport) → ¬fatal.IsReport →
      report.Gains report' before → Takes report leaves (report', some fatal)

theorem gains_iff {errors : List Error} :
    report.Gains report' errors ↔ report' = report.merge errors := by
  constructor
  · rintro ⟨howner, hinvalid, hunknown, hundefined⟩
    obtain ⟨owner, invalid, unknown, undefined⟩ := report'
    rw [merge, foldl_addNew_eq_append, foldl_addNew_eq_append]
    exact congr (congr (congr (congrArg mk howner) hinvalid) hunknown) hundefined
  · rintro rfl
    exact ⟨rfl, rfl, foldl_addNew_eq_append _ _, foldl_addNew_eq_append _ _⟩

theorem absorb_of_reports (h : ∀ leaf ∈ error.leaves, leaf.IsReport) :
    report.absorb error = (report.merge error.leaves, none) := by
  have hmild : ∀ leaf ∈ error.leaves, leaf.isFatal = false := fun leaf hleaf =>
    (Error.isReport_iff_of_mem_leaves hleaf).mp (h leaf hleaf)
  have htake : error.leaves.takeWhile (!·.isFatal) = error.leaves :=
    List.takeWhile_eq_self_iff.mpr fun leaf hleaf => by rw [hmild leaf hleaf]; rfl
  have hfind : error.leaves.find? (·.isFatal) = none :=
    List.find?_eq_none.mpr fun leaf hleaf => by simp [hmild leaf hleaf]
  rw [absorb_eq, htake, hfind]

theorem absorb_of_split {before after : List Error} {fatal : Error}
    (hsplit : error.leaves = before ++ fatal :: after) (hbefore : ∀ leaf ∈ before, leaf.IsReport)
    (hfatal : ¬fatal.IsReport) : report.absorb error = (report.merge before, some fatal) := by
  have hmild : ∀ leaf ∈ before, leaf.isFatal = false := by
    intro leaf hleaf
    have hmem : leaf ∈ error.leaves := by simp [hsplit, hleaf]
    exact (Error.isReport_iff_of_mem_leaves hmem).mp (hbefore leaf hleaf)
  have hstop : fatal.isFatal = true := by
    have hmem : fatal ∈ error.leaves := by simp [hsplit]
    rwa [Error.isReport_iff_of_mem_leaves hmem, Bool.not_eq_false] at hfatal
  have htake : error.leaves.takeWhile (!·.isFatal) = before := by
    rw [hsplit, List.takeWhile_append_of_pos fun leaf hleaf => by rw [hmild leaf hleaf]; rfl,
      List.takeWhile_cons_of_neg (by simp [hstop]), List.append_nil]
  have hfind : error.leaves.find? (·.isFatal) = some fatal :=
    List.find?_eq_some_iff_append.mpr ⟨hstop, before, after, hsplit,
      fun leaf hleaf => by rw [hmild leaf hleaf]; rfl⟩
  rw [absorb_eq, htake, hfind]

/-- **What comes of absorbing an error** is what is to come of its leaves, and nothing else can. -/
theorem absorb_eq_iff_takes {outcome : Collector × Option Error} :
    report.absorb error = outcome ↔ report.Takes error.leaves outcome := by
  constructor
  · rintro rfl
    rcases Error.reports_or_split error.leaves with
      h | ⟨before, fatal, after, hsplit, hbefore, hfatal⟩
    · rw [absorb_of_reports h]
      exact .all h (gains_iff.mpr rfl)
    · rw [absorb_of_split hsplit hbefore hfatal]
      exact .upTo hsplit hbefore hfatal (gains_iff.mpr rfl)
  · intro h
    cases h with
    | all h hgains => rw [absorb_of_reports h, gains_iff.mp hgains]
    | upTo hsplit hbefore hfatal hgains =>
      rw [absorb_of_split hsplit hbefore hfatal, gains_iff.mp hgains]

theorem absorb_snd_eq_none_iff :
    (report.absorb error).2 = none ↔ ∀ leaf ∈ error.leaves, leaf.IsReport := by
  constructor
  · intro h
    cases hr : report.absorb error with
    | mk report' stop =>
      rw [hr] at h
      cases h
      cases absorb_eq_iff_takes.mp hr with
      | all h => exact h
  · intro h
    rw [absorb_of_reports h]

/-- **The law of collectors.**  An error is taken in as a whole just if all its leaves are reports;
otherwise the first leaf that is none is handed back, and the collector has gained the leaves before
it.  To absorb an error is to absorb its leaves one by one, however they are grouped. -/
theorem absorb_lawful (report : Collector) (error : Error) :
    ((report.absorb error).2 = none ↔ ∀ leaf ∈ error.leaves, leaf.IsReport) ∧
    (∀ outcome, report.absorb error = outcome ↔ report.Takes error.leaves outcome) ∧
    report.absorb error = report.absorbAll error.leaves ∧
    ∀ other : Error, other.leaves = error.leaves → report.absorb other = report.absorb error := by
  refine ⟨absorb_snd_eq_none_iff, fun _ => absorb_eq_iff_takes,
    absorb_eq_absorbAll_leaves report error, fun other h => ?_⟩
  rw [absorb_eq_absorbAll_leaves, h, ← absorb_eq_absorbAll_leaves]

end Collector

namespace Atlas

/-- Reports in which a cast that failed stands before the last one. -/
def brokenClutter : Error :=
  .aggregate [clutter,
    .aggregate [.castFailed "lane" "closed", .undefinedProperties "City" ["name"]]]

theorem brokenClutter_taken :
    Collector.absorb { owner := "City", unknown := ["lane"] } brokenClutter =
        ({ owner := "City", invalid := [⟨"City", "", "int", "3", "int"⟩],
           unknown := ["lane", "river"] }, some (.castFailed "lane" "closed")) ∧
      Collector.absorb { owner := "City", unknown := ["lane"] } (.aggregate brokenClutter.leaves) =
        Collector.absorb { owner := "City", unknown := ["lane"] } brokenClutter := by
  obtain ⟨-, htaken, -, hregrouped⟩ :=
    Collector.absorb_lawful { owner := "City", unknown := ["lane"] } brokenClutter
  have hsplit : brokenClutter.leaves =
      [.unknownProperties "Street" ["river", "lane"],
        .invalidType [⟨"Street", "", "int", "3", "int"⟩],
        .unknownProperties "Lane" ["river", "river"]] ++
      .castFailed "lane" "closed" :: [.undefinedProperties "City" ["name"]] := rfl
  refine ⟨(htaken _).mpr (.upTo hsplit ?_ nofun ⟨rfl, rfl, rfl, rfl⟩), hregrouped _ rfl⟩
  intro leaf hleaf
  simp only [List.mem_cons, List.not_mem_nil, or_false] at hleaf
  rcases hleaf with rfl | rfl | rfl
  · exact .unknownProperties _ _
  · exact .invalidType _
  · exact .unknownProperties _ _

end Atlas

/-! ## A look at the root -/

namespace Error

/-- In an aggregate in normal form there are reports only. -/
theorem IsNormal.isReport_of_mem_leavesAll {owner : String} {errors : List Error}
    (h : (aggregate errors).IsNormal owner) : ∀ leaf ∈ leavesAll errors, leaf.IsReport := by
  cases h with
  | fatal h => cases h
  | single h => cases h
  | several _ hparts _ =>
    intro leaf hleaf
    rw [leavesAll_eq_flatMap] at hleaf
    obtain ⟨part, hpart, hleaf⟩ := List.mem_flatMap.mp hleaf
    have hreport := (hparts part hpart).isReport
    rw [hreport.leaves_eq, List.mem_singleton] at hleaf
    rwa [hleaf]

theorem isAggregatable_iff_of_leaf {error : Error} (h : ∀ errors, error ≠ aggregate errors)
    (report : Collector) : error.isAggregatable = true ↔ (report.absorb error).2 = none := by
  rw [Collector.absorb_snd_eq_none_iff, leaves_eq_singleton h, List.forall_mem_singleton,
    isReport_iff h, isFatal, Bool.not_eq_false']

theorem isAggregatable_iff_of_aggregate (errors : List Error) (report : Collector) :
    ((aggregate errors).isAggregatable = true ↔ (report.absorb (aggregate errors)).2 = none) ↔
      ∀ leaf ∈ leavesAll errors, leaf.IsReport := by
  rw [Collector.absorb_snd_eq_none_iff]
  exact ⟨fun h => h.mp rfl, fun h => iff_of_true rfl h⟩

/-- **What a look at the root tells.**  An error that is taken in as a whole is never told to be one
that is not.  The converse holds just if there is no leaf but reports in the error, or it is no
aggregate; errors in normal form are of this kind. -/
theorem isAggregatable_predicts (report : Collector) (error : Error) :
    ((report.absorb error).2 = none → error.isAggregatable = true) ∧
    ((error.isAggregatable = true ↔ (report.absorb error).2 = none) ↔
      ∀ errors, error = aggregate errors → ∀ leaf ∈ leavesAll errors, leaf.IsReport) ∧
    ∀ owner, error.IsNormal owner →
      (error.isAggregatable = true ↔ (report.absorb error).2 = none) := by
  by_cases hagg : ∃ errors, error = aggregate errors
  · obtain ⟨errors, rfl⟩ := hagg
    have hexact := isAggregatable_iff_of_aggregate errors report
    refine ⟨fun _ => rfl, ⟨?_, fun h => hexact.mpr (h errors rfl)⟩,
      fun owner h => hexact.mpr h.isReport_of_mem_leavesAll⟩
    rintro h others hsame
    cases hsame
    exact hexact.mp h
  · have hleaf : ∀ errors, error ≠ aggregate errors := fun errors h => hagg ⟨errors, h⟩
    have hroot := isAggregatable_iff_of_leaf hleaf report
    exact ⟨hroot.mpr, iff_of_true hroot fun errors h => absurd h (hleaf errors), fun _ _ => hroot⟩

end Error

namespace Atlas

theorem sorted_predicted :
    (Error.aggregate [.invalidType [⟨"City", "name", "int", "3", "int"⟩],
        .unknownProperties "City" ["name.river", "name.lane"]]).isAggregatable = true ↔
      (Collector.absorb { owner := "Country" }
        (.aggregate [.invalidType [⟨"City", "name", "int", "3", "int"⟩],
          .unknownProperties "City" ["name.river", "name.lane"]])).2 = none := by
  refine (Error.isAggregatable_predicts _ _).2.2 "City" (.several le_rfl ?_ ?_)
  · refine List.forall_mem_cons.mpr ⟨.invalid (List.cons_ne_nil _ _) ?_,
      List.forall_mem_singleton.mpr (.unknown (List.cons_ne_nil _ _) (by decide))⟩
    exact List.forall_mem_singleton.mpr rfl
  · exact List.pairwise_pair.mpr Nat.zero_lt_one

/-- An aggregate that no collector takes in, and that does not look it. -/
theorem limit_unpredicted :
    (Error.aggregate [.maxDepthExceeded 3]).isAggregatable = true ∧
      (Collector.absorb { owner := "City" } (.aggregate [.maxDepthExceeded 3])).2 =
        some (.maxDepthExceeded 3) :=
  ⟨rfl, rfl⟩

end Atlas

end TypedRecords
