import Mathlib.Data.Finset.Card
import TypedRecords.Class.Ancestry
import TypedRecords.Proofs.Tables

/-!
# Walks up the ancestry

A walk goes round by round: in each it asks for a name, and either comes to its end there or passes
on to the parent of what it has found.  What is asked for in a round does not depend on the number
of steps that are allowed (`Ancestry.asked`), and as long as the rounds pass the walk is where they
lead (`Ancestry.walk_eq`).

What a round asks for next depends only on the class it has found, and there are finitely many
classes.  So the rounds repeat themselves sooner or later, and they do so for ever
(`Ancestry.reaches_of_reaches`): **a walk that is not over after two rounds through all classes
never ends** (`Ancestry.walk_enoughSteps`).

A walk ends in time if parents are asked for by the names that they bear.  Then **it has ended after
one round for each class and one more**, at a name that is not declared, at the second occurrence of
a declaration, or at a root (`Registry.Built.walk_settled`).  A parent that is written with a
backslash too many is found all the same, but is not recognised: a cycle through it is noticed late
(`Atlas.late_cycle`) or not at all (`Atlas.endless_cycle`).
-/

namespace TypedRecords

variable {κ : Type}

namespace Ancestry

variable (registry : Registry κ) (name : String)

/-- The name that a walk up from `name` asks for in a round, if it gets there. -/
def asked : Nat → Option String
  | 0 => some name
  | round + 1 => ((asked round).bind registry.class?).bind ClassDeclaration.parent

/-- The declaration that is found in a round. -/
def found (round : Nat) : Option (ClassDeclaration κ) :=
  (asked registry name round).bind registry.class?

/-- The declarations that are found before a round, in order. -/
def met (round : Nat) : List (ClassDeclaration κ) :=
  (List.range round).filterMap (found registry name)

/-- A round asks for a name that no declaration met before bears, and finds a class with a
parent. -/
def Passes (round : Nat) : Prop :=
  ∃ asks declaration parent, asked registry name round = some asks ∧
    (∀ earlier ∈ met registry name round, earlier.name ≠ asks) ∧
    registry.class? asks = some declaration ∧ declaration.parent = some parent

/-- All rounds before this one pass. -/
def Reaches (round : Nat) : Prop :=
  ∀ earlier < round, Passes registry name earlier

/-- What a walk comes to in a round. -/
inductive EndsAt (round : Nat) : Outcome κ → Prop
  /-- The name that is asked for is not declared. -/
  | unknown (asks : String) : asked registry name round = some asks →
      registry.class? asks = none → EndsAt round (.failed (.unknownClass asks))
  /-- A declaration met before bears the name that is asked for. -/
  | circular (before : List (ClassDeclaration κ)) (again : ClassDeclaration κ)
      (between : List (ClassDeclaration κ)) :
      met registry name round = before ++ again :: between →
      asked registry name round = some again.name →
      EndsAt round (.failed (.circularInheritance
        ((again :: between).map ClassDeclaration.name ++ [again.name])))
  /-- The class that is found has no parent, and is none of those met before. -/
  | root (asks : String) (declaration : ClassDeclaration κ) :
      asked registry name round = some asks → registry.class? asks = some declaration →
      declaration.parent = none → declaration ∉ met registry name round →
      EndsAt round (.root (met registry name round ++ [declaration]))

variable {registry : Registry κ} {name : String} {round : Nat}

/-! ## Rounds -/

theorem found_eq {asks : String} (h : asked registry name round = some asks) :
    found registry name round = registry.class? asks := by
  unfold found
  rw [h]
  rfl

theorem asked_succ {asks : String} {declaration : ClassDeclaration κ}
    (h : asked registry name round = some asks) (hd : registry.class? asks = some declaration) :
    asked registry name (round + 1) = declaration.parent := by
  change (found registry name round).bind _ = _
  rw [found_eq h, hd]
  rfl

theorem met_succ {declaration : ClassDeclaration κ}
    (h : found registry name round = some declaration) :
    met registry name (round + 1) = met registry name round ++ [declaration] := by
  unfold met
  rw [List.range_succ, List.filterMap_append]
  simp [h]

theorem mem_met {declaration : ClassDeclaration κ} :
    declaration ∈ met registry name round ↔
      ∃ earlier < round, found registry name earlier = some declaration := by
  simp [met]

theorem Reaches.succ (h : Reaches registry name round) (hp : Passes registry name round) :
    Reaches registry name (round + 1) := by
  intro earlier he
  rcases Nat.lt_succ_iff_lt_or_eq.mp he with he | rfl
  · exact h earlier he
  · exact hp

theorem Reaches.mono {later : Nat} (h : Reaches registry name later) (hle : round ≤ later) :
    Reaches registry name round :=
  fun earlier he => h earlier (Nat.lt_of_lt_of_le he hle)

theorem Reaches.asked (h : Reaches registry name round) :
    ∃ asks, asked registry name round = some asks := by
  cases round with
  | zero => exact ⟨name, rfl⟩
  | succ round =>
    obtain ⟨asks, declaration, parent, ha, -, hd, hp⟩ := h round (Nat.lt_succ_self round)
    exact ⟨parent, (asked_succ ha hd).trans hp⟩

theorem Reaches.parent_of_mem_met (h : Reaches registry name round)
    {declaration : ClassDeclaration κ} (hm : declaration ∈ met registry name round) :
    declaration.parent.isSome := by
  obtain ⟨earlier, he, hf⟩ := mem_met.mp hm
  obtain ⟨asks, d, parent, ha, -, hd, hp⟩ := h earlier he
  rw [found_eq ha, hd] at hf
  cases hf
  simp [hp]

theorem Reaches.length_met (h : Reaches registry name round) :
    (met registry name round).length = round := by
  induction round with
  | zero => rfl
  | succ round ih =>
    obtain ⟨asks, declaration, parent, ha, -, hd, -⟩ := h round (Nat.lt_succ_self round)
    rw [met_succ ((found_eq ha).trans hd), List.length_append,
      ih (h.mono (Nat.le_succ round))]
    rfl

/-! ## Walks -/

theorem findIdx?_name {chain : List (ClassDeclaration κ)} {asks : String} {start : Nat}
    (h : chain.findIdx? (·.name == asks) = some start) :
    ∃ before again between, chain = before ++ again :: between ∧ again.name = asks ∧
      chain.drop start = again :: between := by
  obtain ⟨hlt, hname, -⟩ := List.findIdx?_eq_some_iff_getElem.mp h
  refine ⟨chain.take start, chain[start], chain.drop (start + 1), ?_, by simpa using hname,
    List.drop_eq_getElem_cons hlt⟩
  rw [← List.drop_eq_getElem_cons hlt, List.take_append_drop]

/-- One round of a walk: it passes, or the walk comes to its end. -/
theorem passes_or_endsAt (hr : Reaches registry name round) {asks : String}
    (ha : asked registry name round = some asks) :
    Passes registry name round ∨ ∃ outcome, EndsAt registry name round outcome ∧
      ∀ steps, walk registry (steps + 1) (met registry name round) asks = outcome := by
  cases hi : (met registry name round).findIdx? (·.name == asks) with
  | some start =>
    obtain ⟨before, again, between, hmet, rfl, hdrop⟩ := findIdx?_name hi
    refine .inr ⟨_, .circular before again between hmet ha, fun steps => ?_⟩
    simp only [walk, hi, hdrop]
  | none =>
    cases hd : registry.class? asks with
    | none =>
      refine .inr ⟨_, .unknown asks ha hd, fun steps => ?_⟩
      simp only [walk, hi, hd]
    | some declaration =>
      cases hp : declaration.parent with
      | none =>
        have hnew : declaration ∉ met registry name round := by
          intro hm
          have := hr.parent_of_mem_met hm
          simp [hp] at this
        refine .inr ⟨_, .root asks declaration ha hd hp hnew, fun steps => ?_⟩
        simp only [walk, hi, hd, hp]
      | some parent =>
        refine .inl ⟨asks, declaration, parent, ha, fun earlier he => ?_, hd, hp⟩
        simpa using List.findIdx?_eq_none_iff.mp hi earlier he

/-- As long as the rounds pass, the walk goes where they lead. -/
theorem walk_eq (hr : Reaches registry name round) {asks : String}
    (ha : asked registry name round = some asks) (steps : Nat) :
    walk registry (round + steps) [] name = walk registry steps (met registry name round) asks := by
  induction round generalizing asks steps with
  | zero =>
    cases ha
    rw [Nat.zero_add]
    rfl
  | succ round ih =>
    obtain ⟨before, declaration, parent, hb, hfresh, hd, hp⟩ := hr round (Nat.lt_succ_self round)
    have hnext : asks = parent := by
      have := asked_succ hb hd
      rw [ha, hp] at this
      exact Option.some.inj this
    have hi : (met registry name round).findIdx? (·.name == before) = none :=
      List.findIdx?_eq_none_iff.mpr fun earlier he => by simpa using hfresh earlier he
    rw [Nat.succ_add_eq_add_succ, ih (hr.mono (Nat.le_succ round)) hb (steps + 1),
      met_succ ((found_eq hb).trans hd), hnext]
    simp only [walk, hi, hd, hp]

/-- A walk that gets to a round passes it, or has its end there, however many steps are allowed. -/
theorem Reaches.settle (hr : Reaches registry name round) :
    Passes registry name round ∨ ∃ outcome, EndsAt registry name round outcome ∧
      ∀ steps, round < steps → walk registry steps [] name = outcome := by
  obtain ⟨asks, ha⟩ := hr.asked
  refine (passes_or_endsAt hr ha).imp_right ?_
  rintro ⟨outcome, he, hw⟩
  refine ⟨outcome, he, fun steps hs => ?_⟩
  obtain ⟨rest, rfl⟩ : ∃ rest, steps = round + (rest + 1) := ⟨steps - round - 1, by omega⟩
  rw [walk_eq hr ha, hw]

theorem exists_endsAt_of_not_reaches (h : ¬ Reaches registry name round) :
    ∃ last < round, Reaches registry name last ∧ ∃ outcome, EndsAt registry name last outcome ∧
      ∀ steps, last < steps → walk registry steps [] name = outcome := by
  induction round with
  | zero => exact absurd (fun _ he => absurd he (Nat.not_lt_zero _)) h
  | succ round ih =>
    by_cases hr : Reaches registry name round
    · rcases hr.settle with hp | he
      · exact absurd (hr.succ hp) h
      · exact ⟨round, Nat.lt_succ_self round, hr, he⟩
    · obtain ⟨last, hlast, he⟩ := ih hr
      exact ⟨last, Nat.lt_succ_of_lt hlast, he⟩

theorem EndsAt.ne_unfinished {outcome : Outcome κ} (h : EndsAt registry name round outcome) :
    outcome ≠ .unfinished := by
  rintro rfl
  cases h

theorem walk_eq_unfinished_iff {steps : Nat} :
    walk registry steps [] name = .unfinished ↔ Reaches registry name steps := by
  constructor
  · intro hw
    by_contra hr
    obtain ⟨last, hlast, -, outcome, he, hall⟩ := exists_endsAt_of_not_reaches hr
    exact he.ne_unfinished ((hall steps hlast).symm.trans hw)
  · intro hr
    obtain ⟨asks, ha⟩ := hr.asked
    exact walk_eq hr ha 0

/-! ## Rounds that repeat themselves -/

/-- The name under which the class of a round is looked up. -/
def key (registry : Registry κ) (name : String) (round : Nat) : Option String :=
  (asked registry name round).map normalName

theorem found_eq_bind_key :
    found registry name round = (key registry name round).bind (Table.get? registry.classes) := by
  unfold found key
  cases asked registry name round <;> rfl

theorem asked_succ_congr {i j : Nat} (h : key registry name i = key registry name j) :
    asked registry name (i + 1) = asked registry name (j + 1) := by
  have hf : found registry name i = found registry name j := by
    rw [found_eq_bind_key, h, found_eq_bind_key]
  exact congrArg (Option.bind · ClassDeclaration.parent) hf

/-- Two rounds that look up the same class are followed by the same rounds. -/
theorem asked_congr {i j : Nat} (h : key registry name i = key registry name j) (n : Nat) :
    asked registry name (i + 1 + n) = asked registry name (j + 1 + n) := by
  induction n with
  | zero => exact asked_succ_congr h
  | succ n ih => exact congrArg (fun a => (a.bind registry.class?).bind ClassDeclaration.parent) ih

/-- Of the rounds that pass, two look up the same class if there are more of them than classes. -/
theorem Reaches.exists_key_eq (h : Reaches registry name (registry.size + 1)) :
    ∃ i j, i < j ∧ j ≤ registry.size ∧ key registry name i = key registry name j := by
  have hcard : ((Table.keys registry.classes).map some).toFinset.card <
      (Finset.range (registry.size + 1)).card := by
    refine lt_of_le_of_lt (List.toFinset_card_le _) ?_
    simp [Registry.size, Table.keys]
  have hmaps : ∀ round ∈ Finset.range (registry.size + 1), key registry name round ∈
      ((Table.keys registry.classes).map some).toFinset := by
    intro round hround
    obtain ⟨asks, declaration, -, ha, -, hd, -⟩ := h round (Finset.mem_range.mp hround)
    have hkey : normalName asks ∈ Table.keys registry.classes :=
      Table.mem_keys_of_mem (Table.mem_of_get? hd)
    simp [key, ha, hkey]
  obtain ⟨i, hi, j, hj, hne, hkey⟩ := Finset.exists_ne_map_eq_of_card_lt_of_maps_to hcard hmaps
  rw [Finset.mem_range] at hi hj
  rcases Nat.lt_or_gt_of_ne hne with hlt | hgt
  · exact ⟨i, j, hlt, by omega, hkey⟩
  · exact ⟨j, i, hgt, by omega, hkey.symm⟩

/-- Once two rounds have looked up the same class, a round passes if the corresponding one before it
does: it asks for the same name, and nothing new has been met since. -/
theorem Passes.again {i j : Nat} (hij : i < j) (h : key registry name i = key registry name j)
    (hround : j < round) (hp : Passes registry name round) :
    Passes registry name (round + (j - i)) := by
  have hback : ∀ later, i < later →
      asked registry name (later + (j - i)) = asked registry name later := by
    intro later hl
    have hsame := asked_congr h (later - i - 1)
    rw [show i + 1 + (later - i - 1) = later by omega,
      show j + 1 + (later - i - 1) = later + (j - i) by omega] at hsame
    exact hsame.symm
  have hmet : ∀ d ∈ met registry name (round + (j - i)), d ∈ met registry name round := by
    intro d hd
    obtain ⟨earlier, he, hf⟩ := mem_met.mp hd
    by_cases hlt : earlier < round
    · exact mem_met.mpr ⟨earlier, hlt, hf⟩
    · refine mem_met.mpr ⟨earlier - (j - i), by omega, ?_⟩
      have hsame := hback (earlier - (j - i)) (by omega)
      rw [show earlier - (j - i) + (j - i) = earlier by omega] at hsame
      unfold found at hf ⊢
      rw [← hsame, hf]
  obtain ⟨asks, declaration, parent, ha, hfresh, hd⟩ := hp
  exact ⟨asks, declaration, parent, (hback round (by omega)).trans ha,
    fun earlier he => hfresh earlier (hmet earlier he), hd⟩

/-- Rounds that pass two times through all classes pass for ever. -/
theorem reaches_of_reaches (h : Reaches registry name (2 * registry.size + 1)) (round : Nat) :
    Reaches registry name round := by
  obtain ⟨i, j, hij, hj, hkey⟩ := (h.mono (by omega)).exists_key_eq
  intro later _
  induction later using Nat.strongRecOn with
  | ind later ih =>
    by_cases hlater : later < 2 * registry.size + 1
    · exact h later hlater
    · obtain ⟨before, rfl⟩ : ∃ before, later = before + (j - i) := ⟨later - (j - i), by omega⟩
      exact (ih before (by omega) (by omega)).again hij hkey (by omega)

/-- **Two rounds through all classes decide**: a walk that comes to its end at all has done so. -/
theorem walk_enoughSteps {steps : Nat} (h : walk registry steps [] name ≠ .unfinished) :
    walk registry (enoughSteps registry) [] name = walk registry steps [] name := by
  have hr : ¬ Reaches registry name (enoughSteps registry) := by
    intro hr
    have hall := reaches_of_reaches (hr.mono (by unfold enoughSteps; omega)) steps
    exact h (walk_eq_unfinished_iff.mpr hall)
  obtain ⟨last, hlast, hreach, outcome, -, hw⟩ := exists_endsAt_of_not_reaches hr
  have hsteps : last < steps := by
    by_contra hle
    exact h (walk_eq_unfinished_iff.mpr (hreach.mono (Nat.le_of_not_lt hle)))
  rw [hw _ hlast, hw _ hsteps]

end Ancestry

namespace Registry

variable {registry : Registry κ} {name : String}

/-- **An ancestry is given up exactly if it has no end.** -/
theorem ancestry_eq_endless_iff :
    registry.ancestry name = .error (.endlessInheritance name) ↔
      ∀ steps, Ancestry.walk registry steps [] name = .unfinished := by
  constructor
  · intro h steps
    by_contra hw
    obtain ⟨last, hlast, -, outcome, he, hall⟩ := Ancestry.exists_endsAt_of_not_reaches
      (mt Ancestry.walk_eq_unfinished_iff.mpr hw)
    unfold ancestry at h
    rw [Ancestry.walk_enoughSteps hw, hall steps hlast] at h
    cases he <;> cases h
  · intro h
    unfold ancestry
    rw [h]

/-- A class whose parent is written as itself with two backslashes in front comes round for ever. -/
example (steps : Nat) :
    Ancestry.walk (({} : Registry Unit).register ((ClassDeclaration.named "City").extending
      "\\\\City")) steps [] "City" = .unfinished :=
  ancestry_eq_endless_iff.mp (rfl) steps

/-! ## Registries as they are built -/

/-- The registries that come of declaring classes and collections. -/
inductive Built : Registry κ → Prop
  | empty : Built {}
  | register {registry : Registry κ} (declaration : ClassDeclaration κ) : Built registry →
      Built (registry.register declaration)
  | registerCollection {registry : Registry κ} (declaration : CollectionDeclaration) :
      Built registry → Built (registry.registerCollection declaration)

theorem Built.distinct (hb : registry.Built) : Table.Distinct registry.classes := by
  induction hb with
  | empty => exact List.nodup_nil
  | register declaration _ ih => exact Table.distinct_put ih _ _
  | registerCollection _ _ ih => exact ih

theorem Built.name_eq (hb : registry.Built) {entry : String × ClassDeclaration κ}
    (h : entry ∈ registry.classes) : entry.2.name = entry.1 := by
  induction hb with
  | empty => cases h
  | register declaration _ ih =>
    rcases Table.mem_put h with rfl | h
    · rfl
    · exact ih h
  | registerCollection _ _ ih => exact ih h

/-- The name that a parent is asked for by, as it stands, is the name that it is looked up by. -/
def RecognisesParents (registry : Registry κ) : Prop :=
  ∀ entry ∈ registry.classes, ∀ parent ∈ entry.2.parent,
    registry.class? parent = Table.get? registry.classes parent

/-- It is enough that no parent is written with more than one backslash in front. -/
theorem recognisesParents_of_normal
    (h : ∀ entry ∈ registry.classes, ∀ parent ∈ entry.2.parent, normalName parent = parent) :
    registry.RecognisesParents := by
  intro entry he parent hp
  unfold class?
  rw [h entry he parent hp]

end Registry

namespace Ancestry

variable {registry : Registry κ} {name : String} {round : Nat}

theorem mem_classes_of_mem_met {declaration : ClassDeclaration κ} (hb : registry.Built)
    (h : declaration ∈ met registry name round) :
    (declaration.name, declaration) ∈ registry.classes := by
  obtain ⟨earlier, -, hf⟩ := mem_met.mp h
  unfold found at hf
  obtain ⟨asks, -, hd⟩ := Option.bind_eq_some_iff.mp hf
  have hmem := Table.mem_of_get? hd
  have hname : declaration.name = normalName asks := hb.name_eq hmem
  rw [hname]
  exact hmem

theorem class?_asked (hp : registry.RecognisesParents) {asks : String}
    (ha : asked registry name (round + 1) = some asks) :
    registry.class? asks = Table.get? registry.classes asks := by
  obtain ⟨declaration, hf, hparent⟩ := Option.bind_eq_some_iff.mp ha
  obtain ⟨earlier, -, hd⟩ := Option.bind_eq_some_iff.mp hf
  exact hp _ (Table.mem_of_get? hd) asks hparent

theorem name_eq_of_asked (hb : registry.Built) (hp : registry.RecognisesParents) {asks : String}
    (ha : asked registry name (round + 1) = some asks) {declaration : ClassDeclaration κ}
    (hd : registry.class? asks = some declaration) : declaration.name = asks := by
  rw [class?_asked hp ha] at hd
  exact hb.name_eq (Table.mem_of_get? hd)

theorem asked_eq_name_iff (hb : registry.Built) (hp : registry.RecognisesParents)
    {earlier : ClassDeclaration κ} (h : earlier ∈ met registry name round) :
    asked registry name round = some earlier.name ↔
      found registry name round = some earlier := by
  cases round with
  | zero => cases h
  | succ round =>
    constructor
    · intro ha
      rw [found_eq ha, class?_asked hp ha]
      exact Table.get?_of_mem hb.distinct (mem_classes_of_mem_met hb h)
    · intro hf
      obtain ⟨asks, ha, hd⟩ := Option.bind_eq_some_iff.mp hf
      rw [ha, name_eq_of_asked hb hp ha hd]

theorem Reaches.nodup_met (hb : registry.Built) (hp : registry.RecognisesParents)
    (hr : Reaches registry name round) :
    ((met registry name round).map ClassDeclaration.name).Nodup := by
  induction round with
  | zero => exact List.nodup_nil
  | succ round ih =>
    obtain ⟨asks, declaration, parent, ha, hfresh, hd, -⟩ := hr round (Nat.lt_succ_self round)
    have hnew : ∀ earlier ∈ met registry name round, earlier.name ≠ declaration.name := by
      cases round with
      | zero => exact fun _ he => absurd he List.not_mem_nil
      | succ round =>
        rw [name_eq_of_asked hb hp ha hd]
        exact hfresh
    rw [met_succ ((found_eq ha).trans hd), List.map_append, List.map_singleton]
    refine (ih (hr.mono (Nat.le_succ round))).append (List.nodup_singleton _) ?_
    intro other hother hlast
    obtain ⟨earlier, he, rfl⟩ := List.mem_map.mp hother
    exact hnew earlier he (List.mem_singleton.mp hlast)

theorem Reaches.le_size (hb : registry.Built) (hp : registry.RecognisesParents)
    (hr : Reaches registry name round) : round ≤ registry.size := by
  have hsub : (met registry name round).map ClassDeclaration.name ⊆ Table.keys registry.classes := by
    intro other hother
    obtain ⟨earlier, he, rfl⟩ := List.mem_map.mp hother
    exact Table.mem_keys_of_mem (mem_classes_of_mem_met hb he)
  have hlength := ((hr.nodup_met hb hp).subperm hsub).length_le
  rw [List.length_map, hr.length_met] at hlength
  simpa [Table.keys, Registry.size] using hlength

end Ancestry

/-- **A walk is settled in time if it recognises parents.**  After at most one round for each
declared class it has met only different declarations, and comes to its end: at a name that is not
declared, at a declaration met before, or at a root. -/
theorem Registry.Built.walk_settled {registry : Registry κ} (hb : registry.Built)
    (hp : registry.RecognisesParents) (name : String) :
    ∃ round ≤ registry.size, ∃ outcome, Ancestry.EndsAt registry name round outcome ∧
      (Ancestry.met registry name round).length = round ∧
      ((Ancestry.met registry name round).map ClassDeclaration.name).Nodup ∧
      (∀ earlier ∈ Ancestry.met registry name round,
        Ancestry.asked registry name round = some earlier.name ↔
          Ancestry.found registry name round = some earlier) ∧
      ∀ steps, round < steps → Ancestry.walk registry steps [] name = outcome := by
  have hr : ¬ Ancestry.Reaches registry name (registry.size + 1) :=
    fun hr => absurd (hr.le_size hb hp) (by omega)
  obtain ⟨round, hround, hreach, outcome, he, hw⟩ := Ancestry.exists_endsAt_of_not_reaches hr
  exact ⟨round, Nat.lt_succ_iff.mp hround, outcome, he, hreach.length_met, hreach.nodup_met hb hp,
    fun earlier hm => Ancestry.asked_eq_name_iff hb hp hm, hw⟩

namespace Atlas

/-- Two classes, each the parent of the other. -/
def circle : Registry Unit :=
  (({} : Registry Unit).register ((ClassDeclaration.named "City").extending "\\Place")).register
    ((ClassDeclaration.named "Place").extending "City")

theorem circle_settled :
    circle.Built ∧ circle.RecognisesParents ∧
      (∃ round ≤ circle.size, ∃ outcome, Ancestry.EndsAt circle "City" round outcome ∧
        (Ancestry.met circle "City" round).length = round ∧
        ((Ancestry.met circle "City" round).map ClassDeclaration.name).Nodup ∧
        (∀ earlier ∈ Ancestry.met circle "City" round,
          Ancestry.asked circle "City" round = some earlier.name ↔
            Ancestry.found circle "City" round = some earlier) ∧
        ∀ steps, round < steps → Ancestry.walk circle steps [] "City" = outcome) ∧
      Ancestry.walk circle 3 [] "City" =
        .failed (.circularInheritance ["City", "Place", "City"]) := by
  have hbuilt : circle.Built := .register _ (.register _ .empty)
  have hparents : circle.RecognisesParents :=
    Registry.recognisesParents_of_normal (by decide +kernel)
  exact ⟨hbuilt, hparents, hbuilt.walk_settled hparents "City", rfl⟩

/-- The same two classes, with a backslash too many at a parent. -/
def blurredCircle : Registry Unit :=
  (({} : Registry Unit).register ((ClassDeclaration.named "City").extending "Place")).register
    ((ClassDeclaration.named "Place").extending "\\\\City")

/-- The walk finds the class that it started from again in its third round, and goes on. -/
theorem late_cycle :
    blurredCircle.Built ∧ blurredCircle.size = 2 ∧
      Ancestry.found blurredCircle "City" 2 = Ancestry.found blurredCircle "City" 0 ∧
      Ancestry.walk blurredCircle 3 [] "City" = .unfinished ∧
      Ancestry.walk blurredCircle 4 [] "City" =
        .failed (.circularInheritance ["Place", "City", "Place"]) :=
  ⟨.register _ (.register _ .empty), rfl, rfl, rfl, rfl⟩

end Atlas

end TypedRecords
