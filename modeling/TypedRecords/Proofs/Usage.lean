import TypedRecords.Engine.Remake
import TypedRecords.Proofs.Orders
import TypedRecords.Proofs.Resolution

/-!
# Engines in use

An engine starts with nothing declared and no metadata.  Then classes are declared and declared
anew, instances are made and written, metadata is consulted and dropped, in any order, and calls may
fail.  `Engine.Reachable D` holds of the engines that come of this, as long as every declaration
satisfies `D`.

What an engine keeps may be out of date, but it is never made up: `Engine.Reachable.metadata` says
that **the metadata of a class is always what the class came to under some declarations**, all of
which satisfy `D`, with no collection that is not there any more.  A use keeps just what it comes by
(`Engine.after_eq_foldl_keep`), and what is kept by a call does not matter for the next one
(`Engine.Reachable.plan_grows`).
-/

namespace TypedRecords

variable {κ : Type}

/-- What may be done with an engine. -/
inductive Operation (κ : Type) where
  | register (declaration : ClassDeclaration κ)
  | registerCollection (declaration : CollectionDeclaration)
  | clearCache
  | consult (className : String)
  | make (className : String) (input : Table (Value κ)) (flags : Flags)
  | castValue (property : Property κ) (value : Value κ) (flags : Flags)
  | set (record : Instance κ) (name : String) (value : Value κ)
  | remake (record : Instance κ) (overrides : Table (Value κ))

/-- Whether an operation leaves alone what is declared, and drops nothing. -/
def Operation.isUse : Operation κ → Bool
  | register _ | registerCollection _ | clearCache => false
  | _ => true

namespace Engine

/-- The engine after an operation, be it successful or not. -/
def after (engine : Engine κ) : Operation κ → Engine κ
  | .register declaration => engine.register declaration
  | .registerCollection declaration => engine.registerCollection declaration
  | .clearCache => engine.clearCache
  | .consult className => (engine.consult className).2
  | .make className input flags => (engine.make className input flags).2
  | .castValue property value flags => (engine.castValue property value flags).2
  | .set record name value => (engine.set record name value).2
  | .remake record overrides => (engine.remake record overrides).2

/-- The engines that come of use, with all declarations satisfying `D`. -/
inductive Reachable (D : ClassDeclaration κ → Prop) : Engine κ → Prop
  | new {engine : Engine κ} : engine.registry = {} → engine.cache = [] → Reachable D engine
  | after {engine : Engine κ} (operation : Operation κ) : Reachable D engine →
      (∀ declaration, operation = .register declaration → D declaration) →
      Reachable D (engine.after operation)

/-! ## What an operation keeps -/

/-- `later` is `engine` after it has kept some of the metadata that it gives for classes. -/
def Grows (engine later : Engine κ) : Prop :=
  ∃ (kept : List (Metadata κ)) (calls : Nat),
    (∀ m ∈ kept, ∃ className, engine.metadata className = .ok m) ∧
      later = kept.foldl keep { engine with calls }

/-- The metadata that an operation comes by, in order, be it successful or not. -/
def consulted (engine : Engine κ) : Operation κ → List (Metadata κ)
  | .register _ | .registerCollection _ | .clearCache => []
  | .consult className => (Build.consult (engine.metadata className)).consulted
  | .make className input flags =>
    (Construction.make engine.plan engine.calls className input flags).consulted
  | .castValue property value flags =>
    (Construction.castValue engine.plan engine.calls property flags value).consulted
  | .set record name value =>
    if !record.flags.contains .mutable then []
    else match record.metadata.property? name with
      | none => []
      | some property =>
        (Construction.castValue engine.plan engine.calls property record.flags value).consulted
  | .remake record overrides =>
    (Construction.make engine.plan engine.calls record.className
      (Table.putAll record.stored overrides) record.flags).consulted

theorem metadata_of_mem_consulted_make {engine : Engine κ} {call : Nat} {className : String}
    {input : Table (Value κ)} {flags : Flags} {m : Metadata κ}
    (h : m ∈ (Construction.make engine.plan call className input flags).consulted) :
    ∃ name, engine.metadata name = .ok m := by
  obtain ⟨entry, -, hentry⟩ := Construction.mem_consulted_makeWithin
    (Construction.outerOrder className input flags) h
  exact ⟨_, hentry⟩

theorem metadata_of_mem_consulted_castValue {engine : Engine κ} {call : Nat}
    {property : Property κ} {value : Value κ} {flags : Flags} {m : Metadata κ}
    (h : m ∈ (Construction.castValue engine.plan call property flags value).consulted) :
    ∃ name, engine.metadata name = .ok m := by
  obtain ⟨order, -, ho⟩ := Property.mem_consulted h
  obtain ⟨entry, -, hentry⟩ := Construction.mem_consulted_makeWithin order ho
  exact ⟨_, hentry⟩

theorem metadata_of_mem_consulted {engine : Engine κ} {operation : Operation κ} {m : Metadata κ}
    (h : m ∈ engine.consulted operation) : ∃ name, engine.metadata name = .ok m := by
  cases operation with
  | consult className =>
    have h : m ∈ (Build.consult (engine.metadata className)).consulted := h
    unfold Build.consult at h
    cases hc : engine.metadata className with
    | error error => rw [hc] at h; cases h
    | ok metadata => rw [hc] at h; rw [List.mem_singleton.mp h]; exact ⟨className, hc⟩
  | make className input flags => exact metadata_of_mem_consulted_make h
  | castValue property value flags => exact metadata_of_mem_consulted_castValue h
  | set record name value =>
    dsimp only [consulted] at h
    split at h
    · cases h
    · split at h
      · cases h
      · exact metadata_of_mem_consulted_castValue h
  | remake record overrides => exact metadata_of_mem_consulted_make h
  | _ => cases h

/-- A use keeps what it comes by, and changes nothing else. -/
theorem after_eq_foldl_keep (engine : Engine κ) {operation : Operation κ}
    (hu : operation.isUse = true) :
    ∃ calls, engine.after operation =
      (engine.consulted operation).foldl keep { engine with calls } := by
  cases operation with
  | set record name value =>
    dsimp only [after, consulted]
    unfold set
    split
    · exact ⟨engine.calls, rfl⟩
    · cases record.metadata.property? name with
      | none => exact ⟨engine.calls, rfl⟩
      | some property => exact ⟨engine.calls + 1, rfl⟩
  | register | registerCollection | clearCache => cases hu
  | _ => exact ⟨engine.calls + 1, rfl⟩

theorem grows_after {engine : Engine κ} {operation : Operation κ} (hu : operation.isUse = true) :
    engine.Grows (engine.after operation) := by
  obtain ⟨calls, h⟩ := engine.after_eq_foldl_keep hu
  exact ⟨_, calls, fun _ => metadata_of_mem_consulted, h⟩

theorem grows_make (engine : Engine κ) (className : String) (input : Table (Value κ))
    (flags : Flags) : engine.Grows (engine.make className input flags).2 := by
  have h : engine.Grows (engine.after (.make className input flags)) := grows_after rfl
  exact h

theorem cache_keep (engine : Engine κ) (m : Metadata κ) :
    (engine.keep m).cache =
      if Table.has engine.cache m.key then engine.cache else engine.cache ++ [(m.key, m)] := by
  unfold keep
  split
  · rfl
  · next h => exact Table.put_eq_append (Bool.eq_false_iff.mpr h) m

theorem prefix_cache_keep (engine : Engine κ) (m : Metadata κ) :
    engine.cache <+: (engine.keep m).cache := by
  rw [cache_keep]
  split
  · exact List.prefix_rfl
  · exact List.prefix_append _ _

theorem prefix_cache_foldl_keep (kept : List (Metadata κ)) (engine : Engine κ) :
    engine.cache <+: (kept.foldl keep engine).cache := by
  induction kept generalizing engine with
  | nil => exact List.prefix_rfl
  | cons m rest ih => exact (prefix_cache_keep engine m).trans (ih (engine.keep m))

/-- What is kept after metadata has been kept: what was kept before, or some of it for classes for
which nothing was kept. -/
theorem mem_cache_foldl_keep {kept : List (Metadata κ)} {engine : Engine κ}
    {entry : String × Metadata κ} (h : entry ∈ (kept.foldl keep engine).cache) :
    entry ∈ engine.cache ∨
      Table.get? engine.cache entry.1 = none ∧ entry.2 ∈ kept ∧ entry.1 = entry.2.key := by
  induction kept generalizing engine with
  | nil => exact .inl h
  | cons m rest ih =>
    rcases ih h with h | ⟨hnone, hm, hk⟩
    · rw [cache_keep] at h
      split at h
      · exact .inl h
      · next hhas =>
        rcases List.mem_append.mp h with h | h
        · exact .inl h
        · rw [List.mem_singleton.mp h]
          refine .inr ⟨?_, List.mem_cons_self, rfl⟩
          exact Option.not_isSome_iff_eq_none.mp hhas
    · refine .inr ⟨?_, List.mem_cons_of_mem _ hm, hk⟩
      cases hget : Table.get? engine.cache entry.1 with
      | none => rfl
      | some w =>
        rw [Table.get?_of_prefix (prefix_cache_keep engine m) hget] at hnone
        cases hnone

/-- Keeping metadata changes nothing but what is kept. -/
theorem foldl_keep_eq (kept : List (Metadata κ)) (engine : Engine κ) :
    kept.foldl keep engine = { engine with cache := (kept.foldl keep engine).cache } := by
  induction kept generalizing engine with
  | nil => rfl
  | cons m rest ih =>
    rw [List.foldl_cons, ih (engine.keep m)]
    unfold keep
    split <;> rfl

theorem Grows.eq {engine later : Engine κ} (h : engine.Grows later) :
    later = { engine with cache := later.cache, calls := later.calls } := by
  obtain ⟨kept, calls, -, rfl⟩ := h
  rw [foldl_keep_eq]

/-! ## Kept metadata comes from declarations -/

/-- The metadata `m` for `key` came from declarations of which `R` holds. -/
def Explained (engine : Engine κ) (R : Registry κ → Prop) (key : String) (m : Metadata κ) : Prop :=
  ∃ registry generation, R registry ∧
    Metadata.resolve engine.casting registry engine.casts generation key = .ok m

theorem Explained.key_eq {engine : Engine κ} {R : Registry κ → Prop} {key : String}
    {m : Metadata κ} (h : engine.Explained R key m) : m.key = key := by
  obtain ⟨registry, generation, -, h⟩ := h
  obtain ⟨_, _, -, -, hk, -⟩ := Metadata.resolve_eq_ok h
  exact hk

/-- All that is kept, and all that is declared, is as `R` says. -/
structure Sound (R : Registry κ → Prop) (engine : Engine κ) : Prop where
  source : R engine.source
  cache : ∀ entry ∈ engine.cache, engine.Explained R entry.1 entry.2

theorem Sound.metadata {R : Registry κ → Prop} {engine : Engine κ} (hs : engine.Sound R)
    {className : String} {m : Metadata κ} (h : engine.metadata className = .ok m) :
    engine.Explained R (normalName className) m := by
  unfold Engine.metadata at h
  dsimp only at h
  split at h
  · next hc =>
    cases h
    exact hs.cache (normalName className, m) (Table.mem_of_get? hc)
  · exact ⟨_, _, hs.source, h⟩

theorem Sound.grows {R : Registry κ → Prop} {engine later : Engine κ} (hs : engine.Sound R)
    (h : engine.Grows later) : later.Sound R := by
  have heq := h.eq
  obtain ⟨kept, calls, hkept, hlater⟩ := h
  rw [heq]
  refine ⟨hs.source, fun entry hentry => ?_⟩
  rcases mem_cache_foldl_keep (hlater ▸ hentry) with hentry | ⟨-, hm, hk⟩
  · exact hs.cache entry hentry
  · obtain ⟨className, hc⟩ := hkept _ hm
    have hx := hs.metadata hc
    rw [hk, hx.key_eq]
    exact hx

end Engine

/-- All classes are declared as `D` says, and collections are kept under their own names. -/
structure Registry.Holds (D : ClassDeclaration κ → Prop) (registry : Registry κ) : Prop where
  classes : registry.All D
  collections : ∀ entry ∈ registry.collections, entry.2.name = entry.1

namespace Registry

variable {D : ClassDeclaration κ → Prop} {registry : Registry κ}

theorem holds_empty : Holds D ({} : Registry κ) :=
  ⟨fun _ h => absurd h List.not_mem_nil, fun _ h => absurd h List.not_mem_nil⟩

theorem Holds.register (h : registry.Holds D) {declaration : ClassDeclaration κ}
    (hd : D declaration) : (registry.register declaration).Holds D := by
  refine ⟨fun entry he => ?_, h.collections⟩
  rcases Table.mem_put he with rfl | he
  · exact hd
  · exact h.classes entry he

theorem Holds.registerCollection (h : registry.Holds D) (declaration : CollectionDeclaration) :
    (registry.registerCollection declaration).Holds D := by
  refine ⟨h.classes, fun entry he => ?_⟩
  rcases Table.mem_put he with rfl | he
  · rfl
  · exact h.collections entry he

theorem Holds.collection? (h : registry.Holds D) {name : String}
    {declaration : CollectionDeclaration} (hc : registry.collection? name = some declaration) :
    declaration.name = normalName name :=
  h.collections _ (Table.mem_of_get? hc)

end Registry

namespace Engine

variable {D : ClassDeclaration κ → Prop} {engine later : Engine κ}

theorem holds_source (h : engine.registry.Holds D) : engine.source.Holds D := by
  unfold source
  split
  · exact h
  · exact ⟨h.classes, fun _ he => absurd he List.not_mem_nil⟩

/-- The declarations that an engine may have made use of: they satisfy `D`, and their collections
are still declared. -/
structure Past (D : ClassDeclaration κ → Prop) (engine : Engine κ) (registry : Registry κ) :
    Prop where
  holds : registry.Holds D
  within : registry.Within engine.source

theorem within_source_register (engine : Engine κ) (declaration : ClassDeclaration κ) :
    engine.source.Within (engine.register declaration).source := by
  unfold source register
  dsimp only
  split <;> exact fun _ h => h

theorem within_source_registerCollection (engine : Engine κ)
    (declaration : CollectionDeclaration) :
    engine.source.Within (engine.registerCollection declaration).source := by
  unfold source registerCollection
  dsimp only
  split
  · intro name h
    show (Table.get? (Table.put engine.registry.collections declaration.name declaration)
      (normalName name)).isSome = true
    rw [Table.get?_put]
    split
    · rfl
    · exact h
  · exact fun _ h => h

theorem Grows.registry_eq (h : engine.Grows later) : later.registry = engine.registry := by
  rw [h.eq]

/-- Explanations outlast whatever leaves casts and collections in place. -/
theorem Sound.past {D : ClassDeclaration κ → Prop} (hs : engine.Sound (engine.Past D))
    (hcasting : later.casting = engine.casting) (hcasts : later.casts = engine.casts)
    (hcache : later.cache = engine.cache) (hwithin : engine.source.Within later.source)
    (hholds : later.registry.Holds D) : later.Sound (later.Past D) := by
  refine ⟨⟨holds_source hholds, fun _ h => h⟩, fun entry he => ?_⟩
  rw [hcache] at he
  obtain ⟨registry, generation, hpast, h⟩ := hs.cache entry he
  refine ⟨registry, generation,
    ⟨hpast.holds, fun name hn => hwithin name (hpast.within name hn)⟩, ?_⟩
  rw [hcasting, hcasts]
  exact h

theorem Sound.past_grows {D : ClassDeclaration κ → Prop} (hs : engine.Sound (engine.Past D))
    (hg : engine.Grows later) : later.Sound (later.Past D) := by
  have hsource : later.source = engine.source := by rw [hg.eq]; rfl
  have hpast : later.Past D = engine.Past D := by
    funext registry
    refine propext ⟨fun h => ⟨h.holds, ?_⟩, fun h => ⟨h.holds, ?_⟩⟩
    · rw [← hsource]; exact h.within
    · rw [hsource]; exact h.within
  rw [hpast]
  exact hs.grows hg

/-- The invariant of use: what is declared is as `D` says, and so was what is kept. -/
theorem Reachable.invariant (h : Reachable D engine) :
    engine.registry.Holds D ∧ engine.Sound (engine.Past D) := by
  induction h with
  | @new engine hr hc =>
    have hholds : engine.registry.Holds D := hr ▸ Registry.holds_empty
    exact ⟨hholds, ⟨holds_source hholds, fun _ h => h⟩, fun entry he => by rw [hc] at he; cases he⟩
  | @after engine operation _ hd ih =>
    obtain ⟨hholds, hsound⟩ := ih
    have hgrows : engine.Grows (engine.after operation) →
        (engine.after operation).registry.Holds D ∧
          (engine.after operation).Sound ((engine.after operation).Past D) :=
      fun hg => ⟨hg.registry_eq ▸ hholds, hsound.past_grows hg⟩
    cases operation with
    | register declaration =>
      have hnew : (engine.register declaration).registry.Holds D :=
        hholds.register (hd declaration rfl)
      exact ⟨hnew, hsound.past rfl rfl rfl (within_source_register engine declaration) hnew⟩
    | registerCollection declaration =>
      have hnew : (engine.registerCollection declaration).registry.Holds D :=
        hholds.registerCollection declaration
      exact ⟨hnew,
        hsound.past rfl rfl rfl (within_source_registerCollection engine declaration) hnew⟩
    | clearCache =>
      exact ⟨hholds, ⟨hsound.source.holds, fun _ h => h⟩, fun _ he => absurd he List.not_mem_nil⟩
    | _ => exact hgrows (grows_after rfl)

/-- **The metadata of a class is what it came to under some declarations**, as `D` says. -/
theorem Reachable.metadata (h : Reachable D engine) {className : String} {m : Metadata κ}
    (hm : engine.metadata className = .ok m) :
    engine.Explained (engine.Past D) (normalName className) m :=
  h.invariant.2.metadata hm

/-- Metadata is well-formed, whatever has been declared. -/
theorem Reachable.wellFormed (hr : Reachable D engine) {className : String}
    {m : Metadata κ} (hm : engine.metadata className = .ok m) : m.WellFormed := by
  obtain ⟨_, _, -, h⟩ := hr.metadata hm
  exact Metadata.wellFormed_of_resolve h

/-! ## While nothing is declared anew -/

theorem metadata_of_get? {className : String} {m : Metadata κ}
    (h : Table.get? engine.cache (normalName className) = some m) :
    engine.metadata className = .ok m := by
  unfold Engine.metadata
  dsimp only
  rw [h]

theorem metadata_congr {className other : String} (h : normalName className = normalName other) :
    engine.metadata className = engine.metadata other := by
  unfold Engine.metadata
  rw [h]

/-- Keeping metadata that an engine gives does not change the metadata it gives. -/
theorem metadata_keep (hkey : ∀ className m, engine.metadata className = .ok m →
    m.key = normalName className) {kept : Metadata κ} {keptName : String}
    (hkept : engine.metadata keptName = .ok kept) :
    (engine.keep kept).metadata = engine.metadata := by
  funext className
  unfold keep
  split
  · rfl
  · by_cases hname : normalName className = kept.key
    · have hget : Table.get? (Table.put engine.cache kept.key kept) (normalName className) =
          some kept := by
        rw [Table.get?_put, if_pos hname]
      refine (metadata_of_get? hget).trans ?_
      rw [← hkept]
      exact metadata_congr (hname.trans (hkey keptName kept hkept)).symm
    · unfold Engine.metadata
      dsimp only
      rw [Table.get?_put, if_neg hname]
      rfl

theorem metadata_foldl_keep (engine : Engine κ)
    (hkey : ∀ className m, engine.metadata className = .ok m → m.key = normalName className)
    {kept : List (Metadata κ)}
    (hkept : ∀ m ∈ kept, ∃ className, engine.metadata className = .ok m) :
    (kept.foldl keep engine).metadata = engine.metadata := by
  induction kept generalizing engine with
  | nil => rfl
  | cons m rest ih =>
    obtain ⟨keptName, hm⟩ := hkept m List.mem_cons_self
    have hstep := metadata_keep hkey hm
    rw [List.foldl_cons, ih, hstep]
    · intro className m' hm'
      exact hkey className m' (by rw [← hstep]; exact hm')
    · intro m' hm'
      rw [hstep]
      exact hkept m' (List.mem_cons_of_mem _ hm')

/-- Nor does it change what constructions rely on. -/
theorem plan_foldl_keep (engine : Engine κ)
    (hkey : ∀ className m, engine.metadata className = .ok m → m.key = normalName className)
    {kept : List (Metadata κ)}
    (hkept : ∀ m ∈ kept, ∃ className, engine.metadata className = .ok m) :
    (kept.foldl keep engine).plan = engine.plan := by
  unfold plan
  rw [metadata_foldl_keep engine hkey hkept, foldl_keep_eq]
  rfl

/-- **What an engine keeps on the way changes nothing for later constructions.** -/
theorem Reachable.plan_grows (h : Reachable D engine) (hg : engine.Grows later) :
    later.plan = engine.plan := by
  obtain ⟨kept, calls, hkept, rfl⟩ := hg
  have hkey : ∀ className m, engine.metadata className = .ok m → m.key = normalName className :=
    fun className m hm => (h.metadata hm).key_eq
  exact plan_foldl_keep { engine with calls } hkey hkept

end Engine

/-! ## An atlas -/

namespace Atlas

/-- A city with its name and its inhabitants. -/
def city : ClassDeclaration Empty :=
  ((ClassDeclaration.named "City").withProperty "name" ["string"]).withProperty "people" ["int"]

/-- A country with its capital, its towns and its ports. -/
def country : ClassDeclaration Empty :=
  ((((ClassDeclaration.named "Country").withProperty "name" ["string"]).withProperty "capital"
    ["?City"]).withProperty "towns" ["City[]"]).withProperty "ports" ["Ports"]

/-- An engine for cities and countries. -/
def engine : Engine Empty :=
  ((({ casting := nofun } : Engine Empty).register city).register country).registerCollection
    (.of "Ports" "City")

/-- Input for a country; the number of people is given as a text once. -/
def france : Table (Value Empty) :=
  [("name", .text "France"),
    ("capital", .map [("name", .text "Paris"), ("people", .text "2102650")]),
    ("towns", .list [.map [("name", .text "Lyon"), ("people", .int 522250)]]),
    ("ports", .list [.map [("name", .text "Brest"), ("people", .int 139456)]])]

/-- Input for a country that fails in several ways. -/
def muddle : Table (Value Empty) :=
  [("name", .int 7),
    ("capital", .map [("name", .text "Paris"), ("river", .text "Seine")]),
    ("towns", .list [.map [("name", .text "Lyon")]]),
    ("ports", .list [.int 3, .map [("name", .text "Brest"), ("people", .text "many")]])]

theorem reachable {D : ClassDeclaration Empty → Prop} (hcity : D city) (hcountry : D country) :
    Engine.Reachable D engine := by
  have hnew : Engine.Reachable D ({ casting := nofun } : Engine Empty) := .new rfl rfl
  have hfirst := hnew.after (.register city) fun _ ho => by cases ho; exact hcity
  have hsecond := hfirst.after (.register country) fun _ ho => by cases ho; exact hcountry
  exact hsecond.after (.registerCollection (.of "Ports" "City")) nofun

end Atlas

end TypedRecords
