import Mathlib.Data.List.Induction
import TypedRecords.Proofs.Outcomes
import TypedRecords.Proofs.Usage

/-!
# The cache

An engine keeps the metadata that it comes by, in nested constructions too, and also if the call
fails in the end.  What is declared may change meanwhile.  So what is kept is tied to the past:
every entry of the cache was put there by some operation (`Engine.Inserts`), and is what its class
came to under the declarations of that time.

* `Engine.mem_cache_after`: what one operation does to the cache.  `Engine.insertedBy_of_mem_cache`:
  what a history does to it.
* `Engine.get?_cache_of_mem_consulted`: metadata that has been come by goes on to be used.
  `Engine.plan_of_consulted`: so it is in the course of an operation.
* `Engine.cache_stable`: **what is kept was resolved when it was put there, and is used until it is
  dropped.**
* `Engine.Fresh`: nothing in the cache is out of date.  `Engine.cache_transparent`: **as long as
  nothing is declared anew, the cache makes no difference.**
-/

namespace TypedRecords

variable {κ : Type}

theorem normalName_backslash (className : String) :
    normalName ("\\" ++ className) = className := by
  unfold normalName
  rw [String.toList_append]
  exact String.ofList_toList

namespace Engine

variable {engine start later : Engine κ} {operation : Operation κ} {operations : List (Operation κ)}
  {className : String} {m : Metadata κ} {entry : String × Metadata κ}

/-! ## What one operation does -/

/-- What a class comes to under the declarations as they are now. -/
def current (engine : Engine κ) (key : String) : Except Error (Metadata κ) :=
  Metadata.resolve engine.casting engine.source engine.casts engine.generation key

theorem key_eq_of_current {key : String} (h : engine.current key = .ok m) : m.key = key := by
  obtain ⟨_, _, -, -, hkey, -⟩ := Metadata.resolve_eq_ok h
  exact hkey

theorem metadata_cases (h : engine.metadata className = .ok m) :
    Table.get? engine.cache (normalName className) = some m ∨
      Table.get? engine.cache (normalName className) = none ∧
        engine.current (normalName className) = .ok m := by
  unfold Engine.metadata at h
  dsimp only at h
  split at h
  · next hget =>
    cases h
    exact .inl hget
  · next hget => exact .inr ⟨hget, h⟩

/-- Metadata is kept under its own key. -/
def KeepsByKey (engine : Engine κ) : Prop :=
  ∀ entry ∈ engine.cache, entry.2.key = entry.1

theorem KeepsByKey.key_eq (hk : engine.KeepsByKey) (h : engine.metadata className = .ok m) :
    m.key = normalName className := by
  rcases metadata_cases h with hget | ⟨-, hresolve⟩
  · exact hk _ (Table.mem_of_get? hget)
  · exact key_eq_of_current hresolve

/-- An operation puts an entry into the cache, with what its class comes to at that time. -/
structure Inserts (engine : Engine κ) (operation : Operation κ) (entry : String × Metadata κ) :
    Prop where
  absent : Table.get? engine.cache entry.1 = none
  present : entry ∈ (engine.after operation).cache
  resolved : engine.current entry.1 = .ok entry.2

theorem mem_cache_after (hk : engine.KeepsByKey) (h : entry ∈ (engine.after operation).cache) :
    operation ≠ .clearCache ∧ entry ∈ engine.cache ∨ engine.Inserts operation entry := by
  by_cases hu : operation.isUse = true
  · obtain ⟨calls, heq⟩ := engine.after_eq_foldl_keep hu
    have hmem := h
    rw [heq] at hmem
    rcases mem_cache_foldl_keep hmem with hmem | ⟨habsent, hconsulted, hkey⟩
    · refine .inl ⟨?_, hmem⟩
      rintro rfl
      cases hu
    · refine .inr ⟨habsent, h, ?_⟩
      obtain ⟨name, hname⟩ := metadata_of_mem_consulted hconsulted
      rw [hkey, hk.key_eq hname] at habsent ⊢
      rcases metadata_cases hname with hget | ⟨-, hresolve⟩
      · have habsent : Table.get? engine.cache (normalName name) = none := habsent
        rw [hget] at habsent
        cases habsent
      · exact hresolve
  · cases operation with
    | register declaration => exact .inl ⟨nofun, h⟩
    | registerCollection declaration => exact .inl ⟨nofun, h⟩
    | clearCache => cases h
    | _ => exact absurd rfl hu

/-- Only dropping all metadata takes anything from the cache. -/
theorem prefix_cache_after (hd : operation ≠ .clearCache) :
    engine.cache <+: (engine.after operation).cache := by
  by_cases hu : operation.isUse = true
  · obtain ⟨calls, heq⟩ := engine.after_eq_foldl_keep hu
    rw [heq]
    exact prefix_cache_foldl_keep _ { engine with calls }
  · cases operation with
    | register declaration => exact List.prefix_rfl
    | registerCollection declaration => exact List.prefix_rfl
    | clearCache => exact absurd rfl hd
    | _ => exact absurd rfl hu

/-- A class that does not resolve is not put into the cache. -/
theorem get?_cache_after (hk : engine.KeepsByKey) (hd : operation ≠ .clearCache) {key : String}
    {error : Error} (h : engine.current key = .error error) :
    Table.get? (engine.after operation).cache key = Table.get? engine.cache key := by
  cases hget : Table.get? engine.cache key with
  | some w => exact Table.get?_of_prefix (prefix_cache_after hd) hget
  | none =>
    cases hlater : Table.get? (engine.after operation).cache key with
    | none => rfl
    | some w =>
      rcases mem_cache_after hk (Table.mem_of_get? hlater) with ⟨-, hmem⟩ | hinserts
      · exact absurd (Table.mem_keys_of_mem hmem) (Table.get?_eq_none_iff.mp hget)
      · have hresolved := hinserts.resolved
        rw [h] at hresolved
        cases hresolved

/-! ## What a history does -/

/-- The engine after operations, one after another. -/
def afterAll (engine : Engine κ) (operations : List (Operation κ)) : Engine κ :=
  operations.foldl after engine

theorem afterAll_append (engine : Engine κ) (operations others : List (Operation κ)) :
    engine.afterAll (operations ++ others) = (engine.afterAll operations).afterAll others :=
  List.foldl_append

/-- One of the operations put the entry into the cache, and it has not been dropped since. -/
def InsertedBy (start : Engine κ) (operations : List (Operation κ)) (entry : String × Metadata κ) :
    Prop :=
  ∃ before operation rest, operations = before ++ operation :: rest ∧
    (start.afterAll before).Inserts operation entry ∧ .clearCache ∉ rest

theorem InsertedBy.key_eq (h : InsertedBy start operations entry) : entry.2.key = entry.1 := by
  obtain ⟨_, _, _, -, hinserts, -⟩ := h
  exact key_eq_of_current hinserts.resolved

/-- **Whatever is in the cache was put there** by one of the operations. -/
theorem insertedBy_of_mem_cache (hstart : start.cache = [])
    (h : entry ∈ (start.afterAll operations).cache) : InsertedBy start operations entry := by
  induction operations using List.reverseRecOn generalizing entry with
  | nil =>
    have h : entry ∈ start.cache := h
    rw [hstart] at h
    cases h
  | append_singleton earlier operation ih =>
    rw [afterAll_append] at h
    have hk : (start.afterAll earlier).KeepsByKey := fun _ he => (ih he).key_eq
    rcases mem_cache_after hk h with ⟨hd, hmem⟩ | hinserts
    · obtain ⟨before, inserting, rest, rfl, hinserts, hnot⟩ := ih hmem
      refine ⟨before, inserting, rest ++ [operation], List.append_assoc .., hinserts, ?_⟩
      intro hclear
      rcases List.mem_append.mp hclear with hclear | hclear
      · exact hnot hclear
      · exact hd (List.mem_singleton.mp hclear).symm
    · exact ⟨earlier, operation, [], rfl, hinserts, List.not_mem_nil⟩

theorem keepsByKey_afterAll (hstart : start.cache = []) (operations : List (Operation κ)) :
    (start.afterAll operations).KeepsByKey :=
  fun _ he => (insertedBy_of_mem_cache hstart he).key_eq

theorem prefix_cache_afterAll (hd : .clearCache ∉ operations) :
    engine.cache <+: (engine.afterAll operations).cache := by
  induction operations generalizing engine with
  | nil => exact List.prefix_rfl
  | cons operation rest ih =>
    have hfirst : operation ≠ .clearCache := fun h => hd (h ▸ List.mem_cons_self)
    exact (prefix_cache_after hfirst).trans (ih fun h => hd (List.mem_cons_of_mem _ h))

/-! ## Metadata in use -/

theorem has_cache_keep (engine : Engine κ) (m : Metadata κ) :
    Table.has (engine.keep m).cache m.key = true := by
  unfold keep
  split
  · next h => exact h
  · unfold Table.has
    rw [Table.get?_put, if_pos rfl]
    rfl

theorem has_cache_foldl_keep {kept : List (Metadata κ)} (h : m ∈ kept) (engine : Engine κ) :
    Table.has (kept.foldl keep engine).cache m.key = true := by
  induction kept generalizing engine with
  | nil => cases h
  | cons first rest ih =>
    rcases List.mem_cons.mp h with rfl | h
    · obtain ⟨w, hw⟩ := Option.isSome_iff_exists.mp (has_cache_keep engine m)
      unfold Table.has
      rw [List.foldl_cons, Table.get?_of_prefix (prefix_cache_foldl_keep rest _) hw]
      rfl
    · exact ih h _

/-- What an operation comes by is kept, under a key that is a class name without backslash. -/
theorem get?_cache_of_mem_consulted (hk : engine.KeepsByKey) (h : m ∈ engine.consulted operation)
    (hn : normalName m.key = m.key) :
    Table.get? (engine.after operation).cache m.key = some m := by
  have hu : operation.isUse = true := by
    cases operation with
    | register | registerCollection | clearCache => cases h
    | _ => rfl
  obtain ⟨calls, heq⟩ := engine.after_eq_foldl_keep hu
  obtain ⟨name, hname⟩ := metadata_of_mem_consulted h
  have hmetadata : (engine.after operation).metadata m.key = .ok m := by
    have hsame : ((engine.consulted operation).foldl keep { engine with calls }).metadata =
        ({ engine with calls } : Engine κ).metadata :=
      metadata_foldl_keep { engine with calls } (fun _ _ => hk.key_eq) fun _ hm => by
        obtain ⟨name, hname⟩ := metadata_of_mem_consulted hm
        exact ⟨name, hname⟩
    rw [heq, hsame]
    exact (metadata_congr (hn.trans (hk.key_eq hname))).trans hname
  obtain ⟨w, hw⟩ := Option.isSome_iff_exists.mp (heq ▸ has_cache_foldl_keep h { engine with calls })
  rcases metadata_cases hmetadata with hget | ⟨hget, -⟩
  · rw [hn] at hget
    exact hget
  · rw [hn, hw] at hget
    cases hget

/-- In the course of an operation, when a part of what it comes by has been kept, constructions rely
on the same as at its start. -/
theorem plan_of_consulted (hk : engine.KeepsByKey) {kept rest : List (Metadata κ)}
    (h : engine.consulted operation = kept ++ rest) :
    (kept.foldl keep engine).plan = engine.plan := by
  refine plan_foldl_keep engine (fun _ _ => hk.key_eq) fun m hm => ?_
  have hconsulted : m ∈ engine.consulted operation := h ▸ List.mem_append_left rest hm
  exact metadata_of_mem_consulted hconsulted

/-- The engine makes instances of the class, by the given name, from the given metadata, be they
nested in others or not. -/
structure MakesFrom (engine : Engine κ) (name : String) (m : Metadata κ) : Prop where
  metadata : engine.metadata name = .ok m
  consult : (engine.consult name).1 = .ok m
  make : ∀ input flags, (engine.make name input flags).1 =
    (Construction.construct (Construction.outerBench engine.plan engine.calls) m
      (Construction.siteOf engine.plan engine.calls engine.plan.maxDepth []) input
      flags.withoutTransient).result
  nested : ∀ call levels place input flags,
    (Construction.makeWithin engine.plan call (levels + 1) place name input flags).result =
      (Construction.construct (Construction.benchOf engine.plan call levels) m
        (Construction.siteOf engine.plan call levels place) input flags.withoutTransient).result
  record : ∀ input flags record, (engine.make name input flags).1 = .ok record →
    record.metadata = m

theorem makesFrom_of_metadata {name : String} (h : engine.metadata name = .ok m) :
    engine.MakesFrom name m := by
  have hplan : engine.plan.metadata name = .ok m := h
  have hmake : ∀ input flags, (engine.make name input flags).1 =
      (Construction.construct (Construction.outerBench engine.plan engine.calls) m
        (Construction.siteOf engine.plan engine.calls engine.plan.maxDepth []) input
        flags.withoutTransient).result := fun _ _ => Construction.result_makeWithin hplan
  refine ⟨h, h, hmake, fun _ _ _ _ _ => Construction.result_makeWithin hplan, ?_⟩
  intro input flags record hr
  obtain ⟨-, _, -, -, rfl⟩ := Construction.construct_eq_ok.mp ((hmake input flags).symm.trans hr)
  rfl

/-- **What is kept was resolved when it was put there, and is used until it is dropped**, whatever
is declared in the meantime.  In the course of an operation constructions rely on the same all the
time.  A class that does not resolve is not kept, and nothing but dropping everything removes what
is kept. -/
theorem cache_stable (hstart : start.cache = []) (operations : List (Operation κ)) :
    (∀ entry ∈ (start.afterAll operations).cache, InsertedBy start operations entry) ∧
    (∀ before operation rest, operations = before ++ operation :: rest → .clearCache ∉ rest →
      ∀ m ∈ (start.afterAll before).consulted operation, ∀ className,
        className.toList.head? ≠ some '\\' → m.key = className →
          (start.afterAll operations).MakesFrom className m ∧
            (start.afterAll operations).MakesFrom ("\\" ++ className) m) ∧
    (∀ operation kept rest, (start.afterAll operations).consulted operation = kept ++ rest →
      (kept.foldl keep (start.afterAll operations)).plan = (start.afterAll operations).plan) ∧
    (∀ name error, ((start.afterAll operations).consult name).1 = .error error →
      ((start.afterAll operations).consult name).2.cache = (start.afterAll operations).cache) ∧
    ∀ operation : Operation κ, operation ≠ .clearCache →
      (start.afterAll operations).cache <+: ((start.afterAll operations).after operation).cache ∧
      ∀ key error, (start.afterAll operations).current key = .error error →
        Table.get? ((start.afterAll operations).after operation).cache key =
          Table.get? (start.afterAll operations).cache key := by
  have hk : (start.afterAll operations).KeepsByKey := keepsByKey_afterAll hstart operations
  refine ⟨fun entry => insertedBy_of_mem_cache hstart, ?_, fun _ _ _ => plan_of_consulted hk, ?_,
    fun operation hd => ⟨prefix_cache_after hd, fun key error => get?_cache_after hk hd⟩⟩
  · rintro before operation rest rfl hnot m hm className hhead rfl
    have hn : normalName m.key = m.key :=
      normalName_eq_self fun rest h => hhead (by rw [h]; rfl)
    have hkept := get?_cache_of_mem_consulted (keepsByKey_afterAll hstart before) hm hn
    have hget : Table.get? (start.afterAll (before ++ operation :: rest)).cache m.key = some m := by
      rw [afterAll_append]
      exact Table.get?_of_prefix (prefix_cache_afterAll hnot) hkept
    constructor
    · exact makesFrom_of_metadata (metadata_of_get? (by rw [hn]; exact hget))
    · exact makesFrom_of_metadata (metadata_of_get? (by rw [normalName_backslash]; exact hget))
  · intro name error h
    have h : (start.afterAll operations).metadata name = .error error := h
    unfold consult perform Build.consult
    rw [h]
    rfl

end Engine

/-- The city that a country was made with is used on, though cities have been declared anew. -/
theorem Atlas.city_kept : ∃ m,
    let later := engine.afterAll
      [.make "Country" france .none, .register (.named "City"), .consult "City"]
    m.properties.map Property.name = ["name", "people"] ∧
      (later.current "City").map (fun now => now.properties.length) = .ok 0 ∧
      later.MakesFrom "City" m ∧ later.MakesFrom "\\City" m := by
  obtain ⟨m, hm, hkey, hnames⟩ : ∃ m ∈ engine.consulted (.make "Country" france .none),
      m.key = "City" ∧ m.properties.map Property.name = ["name", "people"] :=
    ⟨_, List.mem_cons_of_mem _ List.mem_cons_self, rfl, rfl⟩
  obtain ⟨-, huse, -⟩ := Engine.cache_stable (rfl : engine.cache = [])
    [.make "Country" france .none, .register (.named "City"), .consult "City"]
  exact ⟨m, hnames, rfl, huse [] _ _ rfl (by simp) m hm "City" (by decide) hkey⟩

namespace Engine

variable {engine start : Engine κ} {operations : List (Operation κ)} {m : Metadata κ}

/-! ## While nothing is declared anew -/

/-- Nothing in the cache is out of date. -/
def Fresh (engine : Engine κ) : Prop :=
  ∀ entry ∈ engine.cache, engine.current entry.1 = .ok entry.2

/-- The same engine with nothing in its cache. -/
def bare (engine : Engine κ) : Engine κ :=
  { engine with cache := [] }

theorem afterAll_eq_of_isUse (hu : ∀ operation ∈ operations, operation.isUse = true) :
    ∃ cache calls, start.afterAll operations = { start with cache, calls } := by
  induction operations generalizing start with
  | nil => exact ⟨_, _, rfl⟩
  | cons operation rest ih =>
    have hfirst : (start.after operation) = { start with cache := _, calls := _ } :=
      (grows_after (hu operation List.mem_cons_self)).eq
    obtain ⟨cache, calls, hrest⟩ : ∃ cache calls,
        (start.after operation).afterAll rest = { start.after operation with cache, calls } :=
      ih fun later hl => hu later (List.mem_cons_of_mem _ hl)
    refine ⟨cache, calls, hrest.trans ?_⟩
    rw [hfirst]

theorem fresh_afterAll (hstart : start.cache = [])
    (hu : ∀ operation ∈ operations, operation.isUse = true) :
    (start.afterAll operations).Fresh := by
  intro entry he
  obtain ⟨before, operation, rest, rfl, hinserts, -⟩ := insertedBy_of_mem_cache hstart he
  have hbefore := hinserts.resolved
  have hsame : ∀ uses : List (Operation κ), (∀ operation ∈ uses, operation.isUse = true) →
      (start.afterAll uses).current entry.1 = start.current entry.1 := by
    intro uses huses
    obtain ⟨_, _, heq⟩ : ∃ cache calls, start.afterAll uses = { start with cache, calls } :=
      afterAll_eq_of_isUse huses
    rw [heq]
    rfl
  rw [hsame before fun other ho => hu other (List.mem_append_left _ ho)] at hbefore
  rw [hsame _ hu]
  exact hbefore

/-- **A fresh cache makes no difference** to the metadata of a class. -/
theorem Fresh.metadata (hf : engine.Fresh) : engine.metadata = engine.bare.metadata := by
  funext className
  have hbare : engine.bare.metadata className = engine.current (normalName className) := rfl
  rw [hbare]
  cases hget : Table.get? engine.cache (normalName className) with
  | some m => rw [metadata_of_get? hget, hf _ (Table.mem_of_get? hget)]
  | none =>
    unfold Engine.metadata
    dsimp only
    rw [hget]
    rfl

theorem Fresh.plan (hf : engine.Fresh) : engine.plan = engine.bare.plan := by
  unfold Engine.plan
  rw [hf.metadata]
  rfl

theorem Fresh.make (hf : engine.Fresh) (className : String) (input : Table (Value κ))
    (flags : Flags) :
    (engine.make className input flags).1 = (engine.bare.make className input flags).1 := by
  show (Construction.make engine.plan engine.calls className input flags).result = _
  rw [hf.plan]
  rfl

theorem Fresh.set (hf : engine.Fresh) (record : Instance κ) (name : String) (value : Value κ) :
    (engine.set record name value).1 = (engine.bare.set record name value).1 := by
  have hcast : ∀ property, (engine.castValue property value record.flags).1 =
      (engine.bare.castValue property value record.flags).1 := by
    intro property
    show (Construction.castValue engine.plan engine.calls property record.flags value).result = _
    rw [hf.plan]
    rfl
  unfold Engine.set
  split
  · rfl
  · cases record.metadata.property? name with
    | none => rfl
    | some property =>
      dsimp only
      rw [hcast property]

theorem Fresh.remakeWhere (hf : engine.Fresh) (record : Instance κ) (names : List String)
    (keep : String → Bool) :
    (engine.remakeWhere record names keep).1 = (engine.bare.remakeWhere record names keep).1 := by
  unfold Engine.remakeWhere
  cases record.checkKnown names with
  | error error => rfl
  | ok _ => exact hf.make ..

/-- **The cache is transparent.**  As long as nothing is declared anew, whatever is in the cache,
instances are made, written and made anew as if it were empty.  In the course of an operation, when
a part of what it comes by has been kept, constructions rely on the same as with an empty cache,
whether the operation succeeds or fails. -/
theorem cache_transparent (hstart : start.cache = [])
    (hu : ∀ operation ∈ operations, operation.isUse = true) :
    (∀ className input flags, ((start.afterAll operations).make className input flags).1 =
      ((start.afterAll operations).bare.make className input flags).1) ∧
    (∀ record name value, ((start.afterAll operations).set record name value).1 =
      ((start.afterAll operations).bare.set record name value).1) ∧
    (∀ record overrides, ((start.afterAll operations).remake record overrides).1 =
      ((start.afterAll operations).bare.remake record overrides).1) ∧
    (∀ record names keep, ((start.afterAll operations).remakeWhere record names keep).1 =
      ((start.afterAll operations).bare.remakeWhere record names keep).1) ∧
    ∀ (operation : Operation κ) (kept rest : List (Metadata κ)),
      (start.afterAll operations).consulted operation = kept ++ rest →
        (kept.foldl keep (start.afterAll operations)).plan =
          (start.afterAll operations).bare.plan := by
  have hf : (start.afterAll operations).Fresh := fresh_afterAll hstart hu
  have hk : (start.afterAll operations).KeepsByKey := keepsByKey_afterAll hstart operations
  refine ⟨hf.make, hf.set, fun _ _ => hf.make .., hf.remakeWhere, ?_⟩
  intro operation kept rest hkept
  exact (plan_of_consulted hk hkept).trans hf.plan

end Engine

/-- Cities and countries that have been come by are used as if nothing were kept. -/
theorem Atlas.france_uncached :
    let used := engine.afterAll [.consult "City", .make "Country" muddle .none]
    Table.keys used.cache = ["City", "Country"] ∧
      (used.make "Country" france .none).1 = (used.bare.make "Country" france .none).1 ∧
      (used.bare.make "Country" france .none).1.toOption.map (fun record =>
        Table.keys record.stored) = some ["name", "capital", "towns", "ports"] := by
  intro used
  have hsame := Engine.cache_transparent (rfl : engine.cache = [])
    (show ∀ operation ∈ [.consult "City", .make "Country" muddle .none],
      Operation.isUse operation = true by simp [Operation.isUse])
  exact ⟨by decide +kernel, hsame.1 "Country" france .none, by decide +kernel⟩

end TypedRecords
