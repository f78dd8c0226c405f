import Mathlib.Logic.Relation
import TypedRecords.Proofs.ExactOutcome
import TypedRecords.Proofs.Native
import TypedRecords.Proofs.Returns

/-!
# Undeclared keys

Flags may say that undeclared keys are dropped and not kept for inspection.  Then nothing depends on
them: an instance is made as if they were not there, and so are the instances nested in it.

* `Plan.Gains`: an input gains an undeclared entry, at any depth.
* `Property.castValue_of_gainsFor`, `Construction.construct_of_gains`: a value that gains one is
  converted to the same, and an input makes the same instance.
* `Engine.Reachable.undeclared_inert`: **undeclared keys are inert**, however many are added and
  taken away, and wherever an instance is made.
-/

namespace TypedRecords

variable {κ : Type}

/-! ## Inputs that gain an entry -/

/-- What the conversions of a plan may rely on.  Which casts claim a value depends neither on the
call nor on the levels that are left. -/
def Plan.bench (plan : Plan κ) : Workbench κ := Construction.outerBench plan 0

mutual

/-- The input for an instance of the class gains an entry whose key is not declared: itself, or in
a map for an instance that is nested in it. -/
inductive Plan.Gains (plan : Plan κ) : String → Table (Value κ) → Table (Value κ) → Prop
  | here {className key : String} (before after : Table (Value κ)) {value : Value κ} :
      (∀ m, plan.metadata className = .ok m → m.declares key = false) →
      Plan.Gains plan className (before ++ after) (before ++ (key, value) :: after)
  | nested {className key : String} {m : Metadata κ} {property : Property κ}
      (before after : Table (Value κ)) {v v' : Value κ} :
      plan.metadata className = .ok m → m.property? key = some property →
      Plan.GainsFor plan property v v' →
      Plan.Gains plan className (before ++ (key, v) :: after) (before ++ (key, v') :: after)

/-- The value for a property gains an undeclared entry: as a whole, or in an item of a list that is
coerced item by item. -/
inductive Plan.GainsFor (plan : Plan κ) : Property κ → Value κ → Value κ → Prop
  | whole {property : Property κ} {type : TypeName} {cast : Cast κ} {v v' : Value κ} :
      (∀ items, v = .list items → property.castsElements plan.bench items = false) →
      Property.claim? plan.bench property.casts v = some (type, cast) →
      Plan.GainsBy plan type cast v v' → Plan.GainsFor plan property v v'
  | element {property : Property κ} {type : TypeName} {cast : Cast κ}
      (before after : List (Value κ)) {v v' : Value κ} :
      property.castsElements plan.bench (before ++ v :: after) = true →
      Property.claim? plan.bench property.elementCasts v = some (type, cast) →
      Plan.GainsBy plan type cast v v' →
      Plan.GainsFor plan property (.list (before ++ v :: after)) (.list (before ++ v' :: after))

/-- The value that a cast converts to a type gains an undeclared entry: a map for an instance, or
such a map in a list for a collection. -/
inductive Plan.GainsBy (plan : Plan κ) : TypeName → Cast κ → Value κ → Value κ → Prop
  | map {className : String} {input input' : Table (Value κ)} :
      Plan.Gains plan className input input' →
      Plan.GainsBy plan (.named className) .instances (.map input) (.map input')
  | list {name : String} {declaration : CollectionDeclaration} (before after : List (Value κ))
      {input input' : Table (Value κ)} :
      plan.registry.collection? name = some declaration →
      Plan.Gains plan declaration.itemClass input input' →
      Plan.GainsBy plan (.named name) .collections (.list (before ++ .map input :: after))
        (.list (before ++ .map input' :: after))

end

variable {plan : Plan κ}

theorem Plan.GainsBy.sameShape {type : TypeName} {cast : Cast κ} {v v' : Value κ}
    (h : plan.GainsBy type cast v v') : v.SameShape v' := by
  cases h with
  | map => exact ⟨rfl, rfl, rfl⟩
  | list => exact ⟨rfl, rfl, rfl⟩

/-! ## Flags -/

/-- Undeclared keys are dropped under the flags, and not kept for inspection. -/
structure Flags.Drops (flags : Flags) : Prop where
  ignores : flags.contains .ignoreUnknown = true
  forgets : flags.contains .trackUnknown = false

theorem Flags.Drops.withoutTransient {flags : Flags} (h : flags.Drops) :
    flags.withoutTransient.Drops where
  ignores := (contains_withoutTransient .ignoreUnknown (by decide) flags).trans h.ignores
  forgets := (contains_withoutTransient .trackUnknown (by decide) flags).trans h.forgets

theorem Flags.Drops.intersects {flags : Flags} (h : flags.Drops) :
    flags.intersects .lenientUnknown = true := by
  rw [intersects_lenientUnknown_eq, h.ignores, Bool.true_or]

/-- The bench knows of the collections of the plan, and what it nests does not depend on undeclared
keys. -/
structure Workbench.Overlooks (bench : Workbench κ) (plan : Plan κ) : Prop where
  registry : bench.registry = plan.registry
  nested : ∀ {place : List Step} {className : String} {flags : Flags}
    {input input' : Table (Value κ)}, flags.Drops → plan.Gains className input input' →
      bench.nested place className input' flags = bench.nested place className input flags

variable {bench : Workbench κ} {flags : Flags} {site : Site}

/-! ## Conversions -/

namespace Cast

variable {request : CastRequest} {input input' : Table (Value κ)}

theorem convertInstance_of_gains (hb : bench.Overlooks plan) (hf : request.flags.Drops)
    {className : String} (ht : request.type = .named className)
    (h : plan.Gains className input input') :
    convertInstance bench request (.map input') = convertInstance bench request (.map input) := by
  unfold convertInstance
  rw [ht]
  dsimp only [TypeName.className?]
  rw [hb.nested hf h]

theorem convertItem_of_gains (hb : bench.Overlooks plan) (hf : request.flags.Drops)
    {itemClass : String} (h : plan.Gains itemClass input input') (index : Nat) :
    convertItem bench request itemClass (.map input', index) =
      convertItem bench request itemClass (.map input, index) := by
  have hf' : (request.child (.element index)).flags.Drops := hf
  unfold convertItem
  dsimp only
  rw [hb.nested hf' h]

/-- **A cast converts a value that gains an undeclared entry to the same.** -/
theorem convert_of_gainsBy (hb : bench.Overlooks plan) (hf : request.flags.Drops) {cast : Cast κ}
    {v v' : Value κ} (h : plan.GainsBy request.type cast v v') :
    cast.convert bench request v' = cast.convert bench request v := by
  generalize ht : request.type = type at h
  cases h with
  | map h => exact convertInstance_of_gains hb hf ht h
  | @list name declaration before after input input' hc h =>
    have hdeclared : request.type.className?.bind bench.registry.collection? = some declaration := by
      rw [ht, hb.registry]
      exact hc
    unfold convert convertCollection
    rw [hdeclared]
    dsimp only
    rw [Build.collect_replace (convertItem_of_gains hb hf h)]

end Cast

namespace Property

variable {property : Property κ} {v v' : Value κ}

theorem claim?_of_gainsBy (bench : Workbench κ) {types : List TypeName} {casts : List (TypeName × Cast κ)}
    (hk : KeptNatively plan.registry types casts) {type : TypeName} {cast : Cast κ}
    (hclaim : claim? plan.bench casts v = some (type, cast)) (h : plan.GainsBy type cast v v') :
    claim? bench casts v = some (type, cast) ∧ claim? bench casts v' = some (type, cast) :=
  ⟨(hk.claim?_congr (.refl v)).trans hclaim, (hk.claim?_congr h.sameShape).trans hclaim⟩

theorem coerceWhole_of_gainsBy (hb : bench.Overlooks plan) (hn : property.Native plan.registry)
    (hf : flags.Drops) {type : TypeName} {cast : Cast κ}
    (hclaim : claim? plan.bench property.casts v = some (type, cast))
    (h : plan.GainsBy type cast v v') :
    property.coerceWhole bench site flags v' = property.coerceWhole bench site flags v := by
  obtain ⟨hv, hv'⟩ := claim?_of_gainsBy bench hn.casts hclaim h
  unfold coerceWhole
  rw [hv, hv']
  exact Cast.convert_of_gainsBy hb hf h

theorem castElement_of_gainsBy (hb : bench.Overlooks plan) (hn : property.Native plan.registry)
    (hf : flags.Drops) {type : TypeName} {cast : Cast κ}
    (hclaim : claim? plan.bench property.elementCasts v = some (type, cast))
    (h : plan.GainsBy type cast v v') (index : Nat) :
    property.castElement bench site flags (v', index) =
      property.castElement bench site flags (v, index) := by
  obtain ⟨hv, hv'⟩ := claim?_of_gainsBy bench hn.elementCasts hclaim h
  unfold castElement
  dsimp only
  rw [hv, hv']
  dsimp only
  rw [Cast.convert_of_gainsBy hb hf h]

theorem castsElements_replace (hn : property.Native plan.registry) (before after : List (Value κ))
    (h : v.SameShape v') : property.castsElements bench (before ++ v' :: after) =
      property.castsElements plan.bench (before ++ v :: after) := by
  have hsame : ∀ items : List (Value κ), List.Forall₂ Value.SameShape items items :=
    fun _ => List.forall₂_same.mpr fun w _ => .refl w
  exact castsElements_congr hn (List.rel_append (hsame before) (.cons h (hsame after)))

theorem coerce_of_gainsFor (hb : bench.Overlooks plan) (hn : property.Native plan.registry)
    (hf : flags.Drops) (h : plan.GainsFor property v v') :
    property.coerce bench site flags v' = property.coerce bench site flags v := by
  cases h with
  | whole hlist hclaim h =>
    have hwhole : property.coerceWhole bench site flags v' =
        property.coerceWhole bench site flags v := coerceWhole_of_gainsBy hb hn hf hclaim h
    cases h with
    | map => exact hwhole
    | @list _ _ before after input input' =>
      have hitems : ∀ w : Value κ, (Value.map input).SameShape w →
          property.castsElements bench (before ++ w :: after) = false :=
        fun w hw => (castsElements_replace hn before after hw).trans (hlist _ rfl)
      rw [coerce_eq_coerceWhole fun items he => by cases he; exact hitems _ ⟨rfl, rfl, rfl⟩,
        coerce_eq_coerceWhole fun items he => by cases he; exact hitems _ (.refl _)]
      exact hwhole
  | @element _ _ _ before after v v' hlist hclaim h =>
    have hitems : ∀ w : Value κ, v.SameShape w →
        property.castsElements bench (before ++ w :: after) = true :=
      fun w hw => (castsElements_replace hn before after hw).trans hlist
    unfold coerce
    dsimp only
    rw [if_pos (hitems v' h.sameShape), if_pos (hitems v (.refl v))]
    unfold castElements
    rw [Build.collect_replace (castElement_of_gainsBy hb hn hf hclaim h)]

/-- **A value that gains an undeclared entry is cast to the same.** -/
theorem castValue_of_gainsFor (hb : bench.Overlooks plan) (hn : property.Native plan.registry)
    (hf : flags.Drops) (h : plan.GainsFor property v v') :
    property.castValue bench site flags v' = property.castValue bench site flags v := by
  unfold castValue
  dsimp only
  rw [coerce_of_gainsFor hb hn hf.withoutTransient h]

end Property

/-! ## Instances -/

namespace Construction

variable {m : Metadata κ} {input input' : Table (Value κ)}

/-- What is made of the values that have been cast, if nothing else is kept of the input. -/
def completed (m : Metadata κ) (flags : Flags) (supplied : Table (Value κ)) :
    Build κ (Instance κ) :=
  if !(unsettled m flags supplied).isEmpty && !flags.contains .incomplete then
    .fail (.undefinedProperties m.name (unsettled m flags supplied))
  else pure (assembled m flags [] supplied)

theorem construct_of_drops (hf : flags.Drops) :
    construct bench m site input flags =
      Build.collect m.name (castEntry bench m site flags) input >>= fun cast =>
        completed m flags (cast.filterMap id) := by
  have htolerated : ¬ (!(unknownKeys m input).isEmpty && !flags.intersects .lenientUnknown) = true :=
    fun h => blocks_iff.mp h (.inr hf.intersects)
  have hforgets : ¬ flags.contains .trackUnknown = true := by
    rw [hf.forgets]
    exact Bool.false_ne_true
  unfold construct completed assembled trackedEntries
  dsimp only
  rw [if_neg htolerated, if_neg hforgets, if_neg hforgets]

theorem castEntry_of_gainsFor (hb : bench.Overlooks plan)
    (hn : ∀ property ∈ m.properties, property.Native plan.registry) (hf : flags.Drops)
    {key : String} {property : Property κ} (hp : m.property? key = some property)
    {v v' : Value κ} (h : plan.GainsFor property v v') :
    castEntry bench m site flags (key, v') = castEntry bench m site flags (key, v) := by
  unfold castEntry
  rw [hp]
  dsimp only
  rw [Property.castValue_of_gainsFor hb (hn property (Metadata.property?_eq_some hp).1) hf h]

/-- **An input that gains an undeclared entry makes the same instance**, as long as what is nested
in it does. -/
theorem construct_of_gains (hb : bench.Overlooks plan)
    (hn : ∀ property ∈ m.properties, property.Native plan.registry) (hf : flags.Drops)
    {className : String} (hm : plan.metadata className = .ok m)
    (h : plan.Gains className input input') :
    construct bench m site input' flags = construct bench m site input flags := by
  rw [construct_of_drops hf, construct_of_drops hf]
  cases h with
  | here before after hundeclared =>
    apply Build.collectWith_skip
    unfold castEntry
    rw [Metadata.property?_eq_none_iff.mpr (hundeclared m hm)]
  | @nested _ key _ _ before after v v' hm' hp h =>
    cases hm.symm.trans hm'
    have hentry : castEntry bench m site flags (key, v') = castEntry bench m site flags (key, v) :=
      castEntry_of_gainsFor hb hn hf hp h
    unfold Build.collect
    rw [Build.collectWith_congr]
    rw [List.map_append, List.map_append, List.map_cons, List.map_cons, hentry]

/-- **Nested instances are the same**, by induction on the levels that are left for them. -/
theorem overlooks_benchOf (hp : plan.Native) (call levels : Nat) :
    (benchOf plan call levels).Overlooks plan := by
  refine ⟨rfl, ?_⟩
  induction levels with
  | zero => exact fun _ _ => rfl
  | succ levels ih =>
    intro place className flags input input' hf h
    have hbench : (benchOf plan call levels).Overlooks plan := ⟨rfl, ih⟩
    refine Build.bind_congr_of_result fun m hm => ?_
    exact construct_of_gains hbench (hp.properties className m hm) hf.withoutTransient hm h

end Construction

/-! ## Engines -/

/-- **Undeclared keys are inert.**  Without custom casts, under flags that drop undeclared keys, an
engine makes the same instance of two inputs, or fails with the same error, and keeps the same
metadata, if entries with undeclared keys are all that one has more or less than the other, at any
depth at which instances are made. -/
theorem Engine.Reachable.undeclared_inert {engine : Engine κ}
    (hr : Reachable ClassDeclaration.WithoutCasts engine) (hcasts : engine.casts = [])
    (className : String) {flags : Flags} (hignores : flags.contains .ignoreUnknown = true)
    (hforgets : flags.contains .trackUnknown = false) {input input' : Table (Value κ)}
    (h : Relation.EqvGen (engine.plan.Gains className) input input') :
    engine.make className input flags = engine.make className input' flags := by
  have hnative : engine.plan.Native := hr.native (fun _ hd => hd) hcasts
  induction h with
  | rel input input' h =>
    have hb := Construction.overlooks_benchOf hnative engine.calls (engine.plan.maxDepth + 1)
    have hmade : Construction.make engine.plan engine.calls className input' flags =
        Construction.make engine.plan engine.calls className input flags :=
      hb.nested ⟨hignores, hforgets⟩ h
    unfold Engine.make perform
    dsimp only
    rw [hmade]
  | refl => rfl
  | symm _ _ _ ih => exact ih.symm
  | trans _ _ _ _ _ first second => exact first.trans second

namespace Atlas

theorem exists_country : ∃ m capital towns ports, engine.plan.metadata "Country" = .ok m ∧
    (m.property? "capital" = some capital ∧ ∀ input : Table (Value Empty),
      Property.claim? engine.plan.bench capital.casts (.map input) =
        some (.named "City", .instances)) ∧
    (m.property? "towns" = some towns ∧ ∀ input : Table (Value Empty),
      towns.castsElements engine.plan.bench [.map input] = true ∧
        Property.claim? engine.plan.bench towns.elementCasts (.map input) =
          some (.named "City", .instances)) ∧
    m.property? "ports" = some ports ∧ ∀ input : Table (Value Empty),
      ports.castsElements engine.plan.bench [.map input] = false ∧
        Property.claim? engine.plan.bench ports.casts (.list [.map input]) =
          some (.named "Ports", .collections) := by
  obtain ⟨m, hm⟩ : ∃ m, engine.plan.metadata "Country" = .ok m := ⟨_, rfl⟩
  refine ⟨m, ?_⟩
  cases hm
  exact ⟨_, _, _, rfl, ⟨rfl, fun _ => rfl⟩, ⟨rfl, fun _ => ⟨rfl, rfl⟩⟩, rfl, fun _ => ⟨rfl, rfl⟩⟩

/-- Input for a city, with a river. -/
def cityBy (river name : String) (people : Value Empty) : Table (Value Empty) :=
  [("river", .text river), ("name", .text name), ("people", people)]

/-- Input for France with the given cities. -/
def franceOf (capital town port : Table (Value Empty)) : Table (Value Empty) :=
  [("name", .text "France"), ("capital", .map capital), ("towns", .list [.map town]),
    ("ports", .list [.map port])]

/-- Input for France with what it is famous for and with the rivers of its cities. -/
def franceAnnotated : Table (Value Empty) :=
  ("famous for", .list [.text "cheese"]) :: franceOf (cityBy "Seine" "Paris" (.text "2102650"))
    (cityBy "Rhône" "Lyon" (.int 522250)) (cityBy "Penfeld" "Brest" (.int 139456))

/-- The rivers of cities make no difference to a country, nor does what it is famous for. -/
theorem france_annotated : ∃ record,
    (engine.make "Country" france .ignoreUnknown).1 = .ok record ∧
      (engine.make "Country" franceAnnotated .ignoreUnknown).1 = .ok record := by
  obtain ⟨m, capital, towns, ports, hm, ⟨hcapital, hmap⟩, ⟨htowns, hitem⟩, hports, hlist⟩ :=
    exists_country
  have hriver : ∀ river name people,
      engine.plan.Gains "City" [("name", .text name), ("people", people)]
        (cityBy river name people) :=
    fun _ _ _ => .here [] _ fun m hm => by cases hm; rfl
  have hfamous : ∀ input : Table (Value Empty),
      engine.plan.Gains "Country" input (("famous for", .list [.text "cheese"]) :: input) :=
    fun input => .here [] input fun m hm => by cases hm; rfl
  have hofCapital : ∀ city city' town port, engine.plan.Gains "City" city city' →
      engine.plan.Gains "Country" (franceOf city town port) (franceOf city' town port) := by
    intro city city' town port h
    have hvalue : engine.plan.GainsFor capital (.map city) (.map city') :=
      .whole nofun (hmap city) (.map h)
    exact .nested [("name", .text "France")] _ hm hcapital hvalue
  have hofTown : ∀ city town town' port, engine.plan.Gains "City" town town' →
      engine.plan.Gains "Country" (franceOf city town port) (franceOf city town' port) := by
    intro city town town' port h
    have hvalue : engine.plan.GainsFor towns (.list [.map town]) (.list [.map town']) :=
      .element [] [] (hitem town).1 (hitem town).2 (.map h)
    exact .nested [("name", .text "France"), ("capital", .map city)] _ hm htowns hvalue
  have hofPort : ∀ city town port port', engine.plan.Gains "City" port port' →
      engine.plan.Gains "Country" (franceOf city town port) (franceOf city town port') := by
    intro city town port port' h
    have hvalue : engine.plan.GainsFor ports (.list [.map port]) (.list [.map port']) :=
      .whole (fun _ hv => by cases hv; exact (hlist port).1) (hlist port).2 (.list [] [] rfl h)
    exact .nested [("name", .text "France"), ("capital", .map city), ("towns", .list [.map town])]
      [] hm hports hvalue
  have hchain : Relation.EqvGen (engine.plan.Gains "Country") france franceAnnotated :=
    .trans _ _ _ (.rel _ _ (hofCapital _ _ _ _ (hriver "Seine" _ _)))
      (.trans _ _ _ (.rel _ _ (hofTown _ _ _ _ (hriver "Rhône" _ _)))
        (.trans _ _ _ (.rel _ _ (hofPort _ _ _ _ (hriver "Penfeld" _ _))) (.rel _ _ (hfamous _))))
  have hignores : Flags.ignoreUnknown.contains .ignoreUnknown = true := by decide
  have hforgets : Flags.ignoreUnknown.contains .trackUnknown = false := by decide
  have hsame := (reachable ⟨rfl, rfl⟩ ⟨rfl, rfl⟩).undeclared_inert rfl "Country" hignores hforgets
    hchain
  obtain ⟨record, hrecord⟩ : ∃ record, (engine.make "Country" france .ignoreUnknown).1 =
      .ok record := ⟨_, rfl⟩
  exact ⟨record, hrecord, by rw [← hsame]; exact hrecord⟩

end Atlas

end TypedRecords
