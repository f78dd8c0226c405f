import TypedRecords.Proofs.Ancestry
import TypedRecords.Proofs.Resolution

/-!
# Lines of ancestors

`Ancestry.Line` lists the declarations from a class up to the root, without a walk that could go
astray.  A class that has an ancestry has such a line (`Registry.line_of_ancestry`), and one at most
(`Ancestry.Line.eq`).

Where declarations have been put together step by step, nothing is declared twice
(`ClassDeclaration.Built.distinct`).  Where names are plain besides, no class is its own ancestor
(`Ancestry.Line.nodup`), and the ancestry of a class is its line
(`Registry.Plain.ancestry_eq_ok_iff`).
-/

namespace TypedRecords

variable {κ : Type}

/-! ## Declarations that are put together -/

namespace ClassDeclaration

/-- The declaration has been put together step by step. -/
inductive Built : ClassDeclaration κ → Prop
  | named (name : String) : Built (named name)
  | extending {declaration : ClassDeclaration κ} (parent : String) :
    Built declaration → Built (declaration.extending parent)
  | implementing {declaration : ClassDeclaration κ} (interface : String) :
    Built declaration → Built (declaration.implementing interface)
  | withProperty {declaration : ClassDeclaration κ} (name : String) (types : List String) :
    Built declaration → Built (declaration.withProperty name types)
  | withDefault {declaration : ClassDeclaration κ} (name : String) (value : Value κ) :
    Built declaration → Built (declaration.withDefault name value)
  | withPropertyCast {declaration : ClassDeclaration κ} (name : String) (cast : κ) :
    Built declaration → Built (declaration.withPropertyCast name cast)
  | withCast {declaration : ClassDeclaration κ} (cast : κ) :
    Built declaration → Built (declaration.withCast cast)

/-- Nothing is declared twice. -/
structure Distinct (declaration : ClassDeclaration κ) : Prop where
  properties : Table.Distinct declaration.properties
  defaults : Table.Distinct declaration.defaults
  propertyCasts : Table.Distinct declaration.propertyCasts

theorem Built.distinct {declaration : ClassDeclaration κ} (h : declaration.Built) :
    declaration.Distinct := by
  induction h with
  | named name => exact ⟨List.nodup_nil, List.nodup_nil, List.nodup_nil⟩
  | extending parent _ ih => exact ⟨ih.properties, ih.defaults, ih.propertyCasts⟩
  | implementing interface _ ih => exact ⟨ih.properties, ih.defaults, ih.propertyCasts⟩
  | withProperty name types _ ih =>
    exact ⟨Table.distinct_put ih.properties _ _, ih.defaults, ih.propertyCasts⟩
  | withDefault name value _ ih =>
    exact ⟨ih.properties, Table.distinct_put ih.defaults _ _, ih.propertyCasts⟩
  | withPropertyCast name cast _ ih =>
    exact ⟨ih.properties, ih.defaults, Table.distinct_put ih.propertyCasts _ _⟩
  | withCast cast _ ih => exact ⟨ih.properties, ih.defaults, ih.propertyCasts⟩

/-- The names of the declared properties, in order. -/
def propertyNames (declaration : ClassDeclaration κ) : List String :=
  Table.keys declaration.properties

/-- The declaration gives a default or a cast for a property of this name. -/
def Mentions (declaration : ClassDeclaration κ) (name : String) : Prop :=
  name ∈ Table.keys declaration.defaults ∨ name ∈ Table.keys declaration.propertyCasts

end ClassDeclaration

/-! ## Lines of ancestors -/

namespace Ancestry

/-- The declarations from the class `name` up to a root, each followed by that of its parent. -/
inductive Line (registry : Registry κ) : String → List (ClassDeclaration κ) → Prop
  | root {name : String} {declaration : ClassDeclaration κ} :
    registry.class? name = some declaration → declaration.parent = none →
      Line registry name [declaration]
  | child {name parent : String} {declaration : ClassDeclaration κ}
    {line : List (ClassDeclaration κ)} :
    registry.class? name = some declaration → declaration.parent = some parent →
      Line registry parent line → Line registry name (declaration :: line)

variable {registry : Registry κ} {name : String} {line : List (ClassDeclaration κ)}

theorem line_of_walk {steps : Nat} {chain found : List (ClassDeclaration κ)}
    (h : walk registry steps chain name = .root found) :
    ∃ line, Line registry name line ∧ found = chain ++ line := by
  induction steps generalizing chain name with
  | zero => cases h
  | succ steps ih =>
    unfold walk at h
    split at h
    · cases h
    · split at h
      · cases h
      · next declaration hd =>
        split at h
        · next hp =>
          cases h
          exact ⟨[declaration], .root hd hp, rfl⟩
        · next parent hp =>
          obtain ⟨line, hline, rfl⟩ := ih h
          exact ⟨declaration :: line, .child hd hp hline, List.append_assoc ..⟩

theorem Line.eq (h : Line registry name line) {other : List (ClassDeclaration κ)}
    (ho : Line registry name other) : line = other := by
  induction h generalizing other with
  | root hd hp =>
    cases ho with
    | root hd' _ => rw [Option.some.inj (hd.symm.trans hd')]
    | child hd' hp' _ =>
      rw [← Option.some.inj (hd.symm.trans hd'), hp] at hp'
      cases hp'
  | child hd hp _ ih =>
    cases ho with
    | root hd' hp' =>
      rw [← Option.some.inj (hd.symm.trans hd'), hp] at hp'
      cases hp'
    | child hd' hp' hline =>
      obtain rfl := Option.some.inj (hd.symm.trans hd')
      rw [hp] at hp'
      obtain rfl := Option.some.inj hp'
      rw [ih hline]

end Ancestry

theorem Registry.line_of_ancestry {registry : Registry κ} {name : String}
    {chain : List (ClassDeclaration κ)} (h : registry.ancestry name = .ok chain) :
    Ancestry.Line registry name chain := by
  unfold Registry.ancestry at h
  split at h
  · next hw =>
    cases h
    obtain ⟨line, hline, rfl⟩ := Ancestry.line_of_walk hw
    exact hline
  · cases h
  · cases h

/-! ## Plain names -/

namespace Registry

/-- Classes have been declared step by step, and neither a class nor a parent has a backslash left in
front of its name: it was written with one at most. -/
structure Plain (registry : Registry κ) : Prop where
  built : registry.Built
  declarations : registry.All ClassDeclaration.Built
  names : registry.All fun declaration => normalName declaration.name = declaration.name
  parents : registry.All fun declaration =>
    ∀ parent ∈ declaration.parent, normalName parent = parent

variable {registry : Registry κ} {name : String} {declaration : ClassDeclaration κ}
  {line : List (ClassDeclaration κ)}

theorem Plain.name_eq (h : registry.Plain) (hd : registry.class? name = some declaration) :
    declaration.name = normalName name :=
  h.built.name_eq (Table.mem_of_get? hd)

theorem Plain.class?_name (h : registry.Plain) (hd : registry.class? name = some declaration) :
    registry.class? declaration.name = some declaration := by
  unfold Registry.class?
  rw [h.names.class? hd, h.name_eq hd]
  exact hd

end Registry

namespace Ancestry

variable {registry : Registry κ} {name : String} {declaration : ClassDeclaration κ}
  {line : List (ClassDeclaration κ)}

theorem Line.exists_class? (h : Line registry name line) (hd : declaration ∈ line) :
    ∃ asks, registry.class? asks = some declaration := by
  induction h with
  | root hfound _ => exact ⟨_, by rw [List.mem_singleton.mp hd]; exact hfound⟩
  | child hfound _ _ ih =>
    rcases List.mem_cons.mp hd with rfl | hd
    · exact ⟨_, hfound⟩
    · exact ih hd

theorem Line.of_suffix (hr : registry.Plain) (h : Line registry name line)
    {above : List (ClassDeclaration κ)} (hs : declaration :: above <:+ line) :
    Line registry declaration.name (declaration :: above) := by
  induction h with
  | root hd hp =>
    rcases List.suffix_cons_iff.mp hs with hs | hs
    · cases hs
      exact .root (hr.class?_name hd) hp
    · cases List.suffix_nil.mp hs
  | child hd hp hline ih =>
    rcases List.suffix_cons_iff.mp hs with hs | hs
    · cases hs
      exact .child (hr.class?_name hd) hp hline
    · exact ih hs

/-- No class is its own ancestor. -/
theorem Line.nodup (hr : registry.Plain) (h : Line registry name line) :
    (line.map ClassDeclaration.name).Nodup := by
  induction h with
  | root => exact List.nodup_singleton _
  | @child name parent declaration line hd hp hline ih =>
    refine List.nodup_cons.mpr ⟨fun hmem => ?_, ih⟩
    obtain ⟨again, hagain, hname⟩ := List.mem_map.mp hmem
    obtain ⟨below, above, rfl⟩ := List.append_of_mem hagain
    have hfirst : Line registry declaration.name (declaration :: (below ++ again :: above)) :=
      .child (hr.class?_name hd) hp hline
    have hsecond := hline.of_suffix hr (List.suffix_append below (again :: above))
    rw [hname] at hsecond
    have hlength := congrArg List.length (hfirst.eq hsecond)
    simp only [List.length_cons, List.length_append] at hlength
    omega

/-- A walk goes on at a class if none that it has met bears the same name. -/
theorem walk_fresh {steps : Nat} {chain : List (ClassDeclaration κ)}
    (hfound : registry.class? name = some declaration)
    (hchain : ∀ earlier ∈ chain, registry.class? earlier.name = some earlier)
    (hd : ((chain ++ declaration :: line).map ClassDeclaration.name).Nodup) :
    walk registry (steps + 1) chain name = match declaration.parent with
      | none => .root (chain ++ [declaration])
      | some parent => walk registry steps (chain ++ [declaration]) parent := by
  have hnone : chain.findIdx? (·.name == name) = none := by
    refine List.findIdx?_eq_none_iff.mpr fun earlier he => ?_
    refine beq_eq_false_iff_ne.mpr fun hname => ?_
    -- what was met under this name is found under it again
    have hsame := hchain earlier he
    rw [hname, hfound] at hsame
    cases hsame
    rw [List.map_append, List.map_cons] at hd
    exact (List.nodup_append.mp hd).2.2 _ (List.mem_map_of_mem he) _ List.mem_cons_self rfl
  cases hp : declaration.parent <;> simp only [walk, hnone, hfound, hp]

/-- A walk with enough steps goes along the line. -/
theorem walk_of_line (hr : registry.Plain) (h : Line registry name line) {steps : Nat}
    (hs : line.length ≤ steps) {chain : List (ClassDeclaration κ)}
    (hchain : ∀ earlier ∈ chain, registry.class? earlier.name = some earlier)
    (hd : ((chain ++ line).map ClassDeclaration.name).Nodup) :
    walk registry steps chain name = .root (chain ++ line) := by
  induction h generalizing steps chain with
  | root hfound hp =>
    obtain ⟨steps, rfl⟩ : ∃ n, steps = n + 1 := ⟨steps - 1, by simp at hs; omega⟩
    rw [walk_fresh hfound hchain hd, hp]
  | @child name parent declaration line hfound hp hline ih =>
    obtain ⟨steps, rfl⟩ : ∃ n, steps = n + 1 := ⟨steps - 1, by simp at hs; omega⟩
    rw [walk_fresh hfound hchain hd, hp]
    dsimp only
    rw [ih (by simpa using hs), List.append_assoc]
    · rfl
    · intro earlier he
      rcases List.mem_append.mp he with he | he
      · exact hchain earlier he
      · rw [List.mem_singleton.mp he]
        exact hr.class?_name hfound
    · rwa [List.append_assoc]

theorem Line.length_le (hr : registry.Plain) (h : Line registry name line) :
    line.length ≤ registry.size := by
  have hsub : line.map ClassDeclaration.name ⊆ Table.keys registry.classes := by
    intro other hother
    obtain ⟨declaration, hd, rfl⟩ := List.mem_map.mp hother
    obtain ⟨asks, hfound⟩ := h.exists_class? hd
    rw [hr.name_eq hfound]
    exact Table.mem_keys_of_mem (Table.mem_of_get? hfound)
  have hlength := ((h.nodup hr).subperm hsub).length_le
  rw [List.length_map] at hlength
  simpa [Table.keys, Registry.size] using hlength

end Ancestry

/-- **Where names are plain, the ancestry of a class is its line.** -/
theorem Registry.Plain.ancestry_eq_ok_iff {registry : Registry κ} (hr : registry.Plain)
    {name : String} {chain : List (ClassDeclaration κ)} :
    registry.ancestry name = .ok chain ↔ Ancestry.Line registry name chain := by
  refine ⟨Registry.line_of_ancestry, fun h => ?_⟩
  have hlength := h.length_le hr
  have hwalk : Ancestry.walk registry (Ancestry.enoughSteps registry) [] name = .root chain :=
    Ancestry.walk_of_line hr h (by unfold Ancestry.enoughSteps; omega) nofun (h.nodup hr)
  unfold Registry.ancestry
  rw [hwalk]

end TypedRecords
