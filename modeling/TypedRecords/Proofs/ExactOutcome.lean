import Mathlib.Data.Nat.Bitwise
import TypedRecords.Proofs.Native
import TypedRecords.Proofs.Reporting
import TypedRecords.Proofs.Settling

/-!
# The exact outcome of a construction

A key of the input is declared or not, a declared one can be cast or not, and a property that is not
supplied has a default or not.  With built-in casts only, this decides what comes of the input,
under any flags: whether there is an instance (`Engine.Admits`), what it holds (`Engine.Yields`), or
else what the error is (`Engine.Refuses`).

* `Engine.Reachable.exact_outcome`: **the outcome is exactly this.**
-/

namespace TypedRecords

variable {κ : Type}

/-! ## Flags of a call and flags that are kept -/

namespace Flags

theorem contains_withoutTransient (flag : Flags) (h : ~~~transient.bits &&& flag.bits = flag.bits)
    (flags : Flags) : flags.withoutTransient.contains flag = flags.contains flag := by
  unfold contains withoutTransient difference
  rw [UInt16.and_assoc, h]

theorem contains_eq_testBit {flag : Flags} {i : Nat} (h : flag.bits.toNat = 2 ^ i)
    (flags : Flags) : flags.contains flag = flags.bits.toNat.testBit i := by
  have hne : ¬ 0 = 2 ^ i := (Nat.two_pow_pos i).ne
  unfold contains
  rw [Bool.eq_iff_iff, beq_iff_eq, ← UInt16.toNat_inj, UInt16.toNat_and, h, Nat.and_two_pow]
  cases flags.bits.toNat.testBit i <;> simp [hne]

/-- Undeclared keys are tolerated in two ways. -/
theorem intersects_lenientUnknown_eq (flags : Flags) : flags.intersects .lenientUnknown =
    (flags.contains .ignoreUnknown || flags.contains .trackUnknown) := by
  have hbits : lenientUnknown.bits.toNat = 2 ^ 2 ||| 2 ^ 3 := rfl
  rw [contains_eq_testBit (i := 2) rfl, contains_eq_testBit (i := 3) rfl]
  unfold intersects
  rw [Bool.eq_iff_iff, bne_iff_ne, ne_eq, ← UInt16.toNat_inj, UInt16.toNat_and, hbits,
    Nat.and_or_distrib_left, Nat.and_two_pow, Nat.and_two_pow]
  cases flags.bits.toNat.testBit 2 <;> cases flags.bits.toNat.testBit 3 <;> simp

end Flags

theorem Property.default?_withoutTransient (property : Property κ) (flags : Flags) :
    property.default? flags.withoutTransient = property.default? flags := by
  unfold default? implicitDefault?
  rw [Flags.contains_withoutTransient .emptyArrays (by decide),
    Flags.contains_withoutTransient .falseByDefault (by decide),
    Flags.contains_withoutTransient .nullByDefault (by decide)]

/-! ## Failures, unknown keys, and what is missing -/

namespace Construction

variable {bench : Workbench κ} {m : Metadata κ} {site : Site} {flags : Flags}
  {input : Table (Value κ)}

theorem mem_suppliedErrors {error : Error} : error ∈ suppliedErrors bench m site flags input ↔
    ∃ entry ∈ input, ∃ property, m.property? entry.1 = some property ∧
      (property.castValue bench site flags entry.2).result = .error error := by
  simp [suppliedErrors, Option.bind_eq_some_iff, Build.errorOf?_eq_some]

theorem lacking_withoutTransient :
    lacking m flags.withoutTransient input = lacking m flags input := by
  unfold lacking
  simp only [Property.default?_withoutTransient]

theorem unknownKeys_eq_nil_iff :
    unknownKeys m input = [] ↔ ∀ key ∈ Table.keys input, m.declares key = true := by
  simp [unknownKeys, List.filter_eq_nil_iff]

end Construction

/-! ## The outcome -/

namespace Engine

variable {engine : Engine κ} {m : Metadata κ} {className : String} {flags : Flags}
  {input : Table (Value κ)}

/-- All keys of the input are declared, or the flags tolerate others. -/
def Tolerates (m : Metadata κ) (input : Table (Value κ)) (flags : Flags) : Prop :=
  (∀ key ∈ Table.keys input, m.declares key = true) ∨
    flags.contains .ignoreUnknown = true ∨ flags.contains .trackUnknown = true

/-- Every value that is given for a declared property can be cast. -/
def CastsAll (engine : Engine κ) (m : Metadata κ) (input : Table (Value κ)) (flags : Flags) :
    Prop :=
  ∀ entry ∈ input, ∀ property, m.property? entry.1 = some property →
    ∃ w, (engine.castValue property entry.2 flags.withoutTransient).1 = .ok w

/-- Every property is supplied or has a default, unless the instance may be incomplete. -/
def Completes (m : Metadata κ) (input : Table (Value κ)) (flags : Flags) : Prop :=
  flags.contains .incomplete = true ∨ ∀ property ∈ m.properties,
    property.name ∉ Table.keys input → (property.default? flags).isSome = true

/-- Input of which an instance can be made. -/
structure Admits (engine : Engine κ) (m : Metadata κ) (input : Table (Value κ)) (flags : Flags) :
    Prop where
  tolerated : Tolerates m input flags
  cast : engine.CastsAll m input flags
  complete : Completes m input flags

/-- The instance that is made of input. -/
structure Yields (engine : Engine κ) (m : Metadata κ) (input : Table (Value κ)) (flags : Flags)
    (r : Instance κ) : Prop where
  metadata : r.metadata = m
  kept : r.flags = flags.withoutTransient
  ordered : r.definedNames.Sublist m.names
  supplied : ∀ entry ∈ input, ∀ property, m.property? entry.1 = some property →
    ∃ w, (engine.castValue property entry.2 flags.withoutTransient).1 = .ok w ∧
      r.stored? entry.1 = some w
  unsupplied : ∀ property ∈ m.properties, property.name ∉ Table.keys input →
    r.stored? property.name =
      if flags.contains .incomplete = false ∨ flags.contains .withDefaults = true
      then property.default? flags else none
  tracked : r.tracked =
    if flags.contains .trackUnknown then input.filter fun entry => !m.declares entry.1 else []

/-- The error for input of which no instance can be made. -/
inductive Refuses (engine : Engine κ) (m : Metadata κ) (input : Table (Value κ)) (flags : Flags) :
    Error → Prop
  /-- Undeclared keys come first, all of them in order of the input. -/
  | unknown : ¬ Tolerates m input flags →
      Refuses engine m input flags
        (.unknownProperties m.name ((Table.keys input).filter fun key => !m.declares key))
  /-- Then values that cannot be cast: the first fatal failure. -/
  | fatal {error : Error} : Tolerates m input flags →
      (Error.leavesAll (engine.entryErrors m flags input)).find? (·.isFatal) = some error →
      Refuses engine m input flags error
  /-- Without a fatal failure, a report on all values that cannot be cast. -/
  | invalid {error : Error} : Tolerates m input flags → engine.entryErrors m flags input ≠ [] →
      (Error.leavesAll (engine.entryErrors m flags input)).find? (·.isFatal) = none →
      error.Reports m.name (engine.entryErrors m flags input) →
      Refuses engine m input flags error
  /-- Then properties without value, all of them in order of declaration. -/
  | undefined : Tolerates m input flags → engine.CastsAll m input flags →
      ¬ Completes m input flags →
      Refuses engine m input flags
        (.undefinedProperties m.name (Construction.lacking m flags input))

theorem tolerates_iff : Construction.unknownKeys m input = [] ∨
    flags.withoutTransient.intersects .lenientUnknown = true ↔ Tolerates m input flags := by
  rw [Flags.intersects_lenientUnknown, Flags.intersects_lenientUnknown_eq, Bool.or_eq_true,
    Construction.unknownKeys_eq_nil_iff]
  rfl

theorem errorsOf_castEntry : Build.errorsOf (Construction.castEntry
    (Construction.outerBench engine.plan engine.calls) m ⟨0, engine.calls, []⟩
    flags.withoutTransient) input = engine.entryErrors m flags input := by
  rw [entryErrors_eq, Construction.errorsOf_castEntry]

theorem entryErrors_eq_nil_iff :
    engine.entryErrors m flags input = [] ↔ engine.CastsAll m input flags := by
  rw [entryErrors_eq, List.eq_nil_iff_forall_not_mem]
  constructor
  · intro h entry he property hp
    cases hr : (engine.castValue property entry.2 flags.withoutTransient).1 with
    | ok w => exact ⟨w, rfl⟩
    | error error =>
      exact absurd (Construction.mem_suppliedErrors.mpr ⟨entry, he, property, hp, hr⟩) (h error)
  · intro h error he
    obtain ⟨entry, he, property, hp, hr⟩ := Construction.mem_suppliedErrors.mp he
    obtain ⟨w, hw⟩ := h entry he property hp
    have hsame : (engine.castValue property entry.2 flags.withoutTransient).1 = .error error := hr
    rw [hw] at hsame
    cases hsame

theorem castsAll_of_castsTo {cast : List (Option (String × Value κ))}
    (h : Construction.CastsTo (Construction.outerBench engine.plan engine.calls) m
      ⟨0, engine.calls, []⟩ flags.withoutTransient input cast) : engine.CastsAll m input flags := by
  intro entry he property hp
  obtain ⟨c, -, hentry⟩ := forall₂_mem_right h.flip he
  rcases Construction.castEntry_eq_ok.mp hentry with ⟨hnone, -⟩ | ⟨declared, w, hdeclared, hw, -⟩
  · rw [hp] at hnone
    cases hnone
  · rw [hp] at hdeclared
    cases hdeclared
    exact ⟨w, hw⟩

theorem completes_iff : Completes m input flags ↔
    Construction.lacking m flags.withoutTransient input = [] ∨
      flags.withoutTransient.contains .incomplete = true := by
  rw [Construction.lacking_withoutTransient, Construction.lacking_eq_nil_iff,
    Flags.contains_withoutTransient .incomplete (by decide)]
  exact or_comm

variable (hr : Reachable ClassDeclaration.WithoutCasts engine) (hcasts : engine.casts = [])
  (hm : engine.metadata className = .ok m)

include hr hcasts hm

theorem Reachable.not_isSilent_of_castEntry (site : Site) (kept : Flags)
    {entry : String × Value κ} {error : Error}
    (h : (Construction.castEntry (Construction.outerBench engine.plan engine.calls) m site kept
      entry).result = .error error) : ¬ error.IsSilent := by
  have hp : engine.plan.Native := hr.native (fun _ hd => hd) hcasts
  exact Construction.not_isSilent_of_castEntry (hp.properties _ m hm)
    (Construction.not_isSilent_of_benchOf hp.reported engine.calls engine.plan.maxDepth) h

/-- What is made of input is all that the input gives. -/
theorem Reachable.yields (hi : Table.Distinct input) {r : Instance κ}
    (h : (engine.make className input flags).1 = .ok r) :
    engine.Admits m input flags ∧ engine.Yields m input flags r := by
  have hd : m.names.Nodup := (hr.wellFormed hm).distinct
  rw [result_make hm] at h
  obtain ⟨hknown, cast, hcollect, hcomplete, rfl⟩ := Construction.construct_eq_ok.mp h
  have hall := Construction.castsTo_of_collect (fun entry _ e he =>
    hr.not_isSilent_of_castEntry hcasts hm _ _ he) hcollect
  have hsupplied : ∀ entry ∈ input, ∀ property, m.property? entry.1 = some property →
      ∃ w, (engine.castValue property entry.2 flags.withoutTransient).1 = .ok w ∧
        (Construction.assembled m flags.withoutTransient input (cast.filterMap id)).stored?
          entry.1 = some w := by
    intro entry he property hp
    obtain ⟨hmem, hname⟩ := Metadata.property?_eq_some hp
    have hget : Table.get? input property.name = some entry.2 :=
      Table.get?_of_mem hi (hname ▸ he)
    obtain ⟨w, hw, hsettled⟩ := hall.settled?_of_supplied hd hmem hget
    refine ⟨w, hw, ?_⟩
    rw [← hname, Construction.stored?_assembled hd hmem, hsettled]
  refine ⟨⟨tolerates_iff.mp hknown, fun entry he property hp => ?_, ?_⟩, ?_⟩
  · obtain ⟨w, hw, -⟩ := hsupplied entry he property hp
    exact ⟨w, hw⟩
  · rw [completes_iff]
    by_cases hc : flags.withoutTransient.contains .incomplete = true
    · exact .inr hc
    · rw [Bool.not_eq_true] at hc
      rw [← hall.unsettled_eq_lacking hd hc]
      exact hcomplete
  · refine ⟨rfl, rfl, Metadata.keys_tableOf_sublist, hsupplied, fun property hp hnot => ?_, ?_⟩
    · rw [Construction.stored?_assembled hd hp, hall.settled?_of_not_supplied hd hp
        (Table.get?_eq_none_iff.mpr hnot), Property.default?_withoutTransient]
      unfold Construction.fillsDefaults
      rw [Flags.contains_withoutTransient .incomplete (by decide),
        Flags.contains_withoutTransient .withDefaults (by decide)]
      simp
    · have htrack := Flags.contains_withoutTransient .trackUnknown (by decide) flags
      unfold Construction.assembled Construction.trackedEntries
      dsimp only
      rw [htrack]

/-- An instance is made of all input that admits one. -/
theorem Reachable.exists_of_admits (h : engine.Admits m input flags) :
    ∃ r, (engine.make className input flags).1 = .ok r := by
  have hd : m.names.Nodup := (hr.wellFormed hm).distinct
  have herrors := errorsOf_castEntry.trans (entryErrors_eq_nil_iff.mpr h.cast)
  have hcollect := Build.collect_of_errorsOf_eq_nil m.name herrors
  have hall := Construction.castsTo_of_collect (fun entry _ e he =>
    hr.not_isSilent_of_castEntry hcasts hm _ _ he) hcollect
  refine ⟨_, (result_make hm).trans (Construction.construct_eq_ok.mpr
    ⟨tolerates_iff.mpr h.tolerated, _, hcollect, ?_, rfl⟩)⟩
  by_cases hc : flags.withoutTransient.contains .incomplete = true
  · exact .inr hc
  · rw [Bool.not_eq_true] at hc
    rw [hall.unsettled_eq_lacking hd hc]
    exact completes_iff.mp h.complete

/-- What is refused is refused for the first of the reasons there are. -/
theorem Reachable.refuses {error : Error} (h : (engine.make className input flags).1 = .error error) :
    engine.Refuses m input flags error := by
  have hd : m.names.Nodup := (hr.wellFormed hm).distinct
  rw [result_make hm] at h
  rcases Construction.construct_eq_error.mp h with
    ⟨hunknown, rfl⟩ | ⟨hknown, h | ⟨cast, hcollect, hundefined, rfl⟩⟩
  · exact .unknown fun ht => hunknown (tolerates_iff.mpr ht)
  · have ht : Tolerates m input flags := tolerates_iff.mp hknown
    have hnot : engine.entryErrors m flags input ≠ [] := by
      intro hnil
      rw [Build.collect_of_errorsOf_eq_nil _ (errorsOf_castEntry.trans hnil)] at h
      cases h
    have hfirst := Build.find?_leavesAll_of_collect h
    have hfailure := Build.collect_eq_error h
    rw [errorsOf_castEntry] at hfirst hfailure
    rcases hfirst with hf | hnone
    · exact .fatal ht hf
    · rcases hfailure with ⟨hf, e, he, hleaf⟩ | ⟨-, -, hi, hu, hd⟩
      · rw [Error.leavesAll_eq_flatMap] at hnone
        exact absurd hf (List.find?_eq_none.mp hnone error (List.mem_flatMap.mpr ⟨e, he, hleaf⟩))
      · exact .invalid ht hnot hnone ⟨hi, hu, hd⟩
  · have hall := Construction.castsTo_of_collect (fun entry _ e he =>
      hr.not_isSilent_of_castEntry hcasts hm _ _ he) hcollect
    have hc : flags.withoutTransient.contains .incomplete = false :=
      Bool.eq_false_iff.mpr fun h => hundefined (.inr h)
    rw [hall.unsettled_eq_lacking hd hc] at hundefined ⊢
    have hcomplete : ¬ Completes m input flags := mt completes_iff.mp hundefined
    rw [Construction.lacking_withoutTransient]
    exact .undefined (tolerates_iff.mp hknown) (castsAll_of_castsTo hall) hcomplete

/-- **The exact outcome.**  Without custom casts, an instance of a class that resolves is made of
the input if and only if the input admits one.  It holds what the input and the defaults give and
nothing else, and whatever is refused is refused for the first of the reasons there are. -/
theorem Reachable.exact_outcome (hi : Table.Distinct input) (flags : Flags) :
    ((∃ r, (engine.make className input flags).1 = .ok r) ↔ engine.Admits m input flags) ∧
      (∀ r, (engine.make className input flags).1 = .ok r → engine.Yields m input flags r) ∧
      ∀ error, (engine.make className input flags).1 = .error error →
        engine.Refuses m input flags error := by
  refine ⟨⟨?_, hr.exists_of_admits hcasts hm⟩, fun r h => (hr.yields hcasts hm hi h).2,
    fun error h => hr.refuses hcasts hm h⟩
  rintro ⟨r, h⟩
  exact (hr.yields hcasts hm hi h).1

end Engine

namespace Atlas

/-- Input for a city with a river, which cities do not have. -/
def paris : Table (Value Empty) := [("river", .text "Seine"), ("name", .text "Paris")]

/-- Undeclared input is kept, the instance may be incomplete, and null is accepted for this call. -/
def lenient : Flags := ((Flags.trackUnknown).union .incomplete).union .nullable

theorem paris_made : ∃ m r, engine.metadata "City" = .ok m ∧
    (engine.make "City" paris lenient).1 = .ok r ∧ engine.Yields m paris lenient r ∧
    r.tracked = [("river", .text "Seine")] ∧ r.stored? "people" = none ∧
    (engine.make "City" paris .none).1 = .error (.unknownProperties "City" ["river"]) ∧
    engine.Refuses m paris .none (.unknownProperties "City" ["river"]) := by
  obtain ⟨m, hm⟩ : ∃ m, engine.metadata "City" = .ok m := ⟨_, rfl⟩
  obtain ⟨r, h⟩ : ∃ r, (engine.make "City" paris lenient).1 = .ok r := ⟨_, rfl⟩
  have herror : (engine.make "City" paris .none).1 =
      .error (.unknownProperties "City" ["river"]) := rfl
  have hd : Table.Distinct paris := by simp [Table.Distinct, Table.keys, paris]
  have hr : Engine.Reachable ClassDeclaration.WithoutCasts engine := reachable ⟨rfl, rfl⟩ ⟨rfl, rfl⟩
  obtain ⟨-, hyields, -⟩ := hr.exact_outcome rfl hm hd lenient
  obtain ⟨-, -, hrefuses⟩ := hr.exact_outcome rfl hm hd .none
  refine ⟨m, r, hm, h, hyields r h, ?_, ?_, herror, hrefuses _ herror⟩
  · rw [(hyields r h).tracked]
    cases hm
    rfl
  · cases h
    rfl

end Atlas

end TypedRecords
