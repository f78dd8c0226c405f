import Mathlib.Order.Bounds.Defs
import TypedRecords.Proofs.Heeding

/-!
# The depth limit

An instance is made twice, under a lower and under a higher limit on depth.  With built-in casts
only, the two runs take the same steps until the first of them comes to its limit.  A nested
construction that is cut there fails with a fatal error, which goes through all collectors
untouched, and so the first run as a whole fails with it, or comes to the same as the second.

Construction is nested, so this is proved by induction on the levels left: `Workbench.CutsAt` says
it of the level below, and every step of a construction is compared with the same step of the other
run.  A cut has a reason, an order that lies too deep (`Build.Cut`).

* `Construction.height`: how deep the orders of a construction are nested; the length of the longest
  `Construction.Chain` (`Construction.isGreatest_height`).
* `Construction.cut_carryOut`: a run is cut only if it is nested too deep.
  `Construction.height_lt_of_carryOut`: it succeeds only if it is not.
* `Engine.Reachable.depth_limit`: **the depth limit only cuts.**
-/

namespace TypedRecords

variable {κ : Type}

/-! ## Two runs, one of which may be cut -/

/-- Of two runs the first is cut at the limit, for the given reason, or both come to the same. -/
inductive Build.Cut {α : Type} (limit : Nat) (reason : Prop) (build build' : Build κ α) : Prop
  | same : build.result = build'.result → Build.Cut limit reason build build'
  | cut : reason → build.result = .error (.maxDepthExceeded limit) →
      Build.Cut limit reason build build'

namespace Build

variable {α β : Type} {limit : Nat} {reason reason' : Prop} {build build' : Build κ α}

theorem Cut.mono (h : Cut limit reason build build') (hr : reason → reason') :
    Cut limit reason' build build' := by
  cases h with
  | same h => exact .same h
  | cut hc h => exact .cut (hr hc) h

theorem cut_bind (h : Cut limit reason build build') {next next' : α → Build κ β}
    (hnext : ∀ a, build'.result = .ok a → Cut limit reason (next a) (next' a)) :
    Cut limit reason (build >>= next) (build' >>= next') := by
  cases h with
  | cut hc h => exact .cut hc (bind_eq_error.mpr (.inl h))
  | same h =>
    cases hr : build'.result with
    | error error =>
      refine .same ?_
      rw [bind_eq_error.mpr (.inl (h.trans hr)), bind_eq_error.mpr (.inl hr)]
    | ok a =>
      have hfirst : (build >>= next).result = (next a).result := by
        rw [result_bind, h, hr]
        rfl
      have hsecond : (build' >>= next').result = (next' a).result := by
        rw [result_bind, hr]
        rfl
      cases hnext a hr with
      | same hn => exact .same (by rw [hfirst, hsecond, hn])
      | cut hc hn => exact .cut hc (hfirst.trans hn)

theorem cut_prefixed (h : Cut limit reason build build') (head : String) :
    Cut limit reason (Build.prefixed head build) (Build.prefixed head build') := by
  cases h with
  | cut hc h => exact .cut hc (prefixed_eq_error.mpr ⟨_, h, rfl⟩)
  | same h =>
    refine .same ?_
    rw [result_prefixed, result_prefixed, h]

/-- The fatal error of a step that is cut goes through, whatever was collected before. -/
theorem cut_collectWith {step step' : α → Build κ β} {reason : α → Prop} {items : List α}
    (h : ∀ item ∈ items, Cut limit (reason item) (step item) (step' item)) (report : Collector) :
    Cut limit (∃ item ∈ items, reason item) (collectWith step report items)
      (collectWith step' report items) := by
  induction items generalizing report with
  | nil => exact .same rfl
  | cons item rest ih =>
    have later : ∀ report, Cut limit (∃ item' ∈ item :: rest, reason item')
        (collectWith step report rest) (collectWith step' report rest) := fun report =>
      (ih (fun item' hitem => h item' (List.mem_cons_of_mem _ hitem)) report).mono
        fun ⟨item', hitem, hr⟩ => ⟨item', List.mem_cons_of_mem _ hitem, hr⟩
    unfold collectWith
    cases h item List.mem_cons_self with
    | cut hc hitem =>
      refine .cut ⟨item, List.mem_cons_self, hc⟩ ?_
      rw [result_bind, result_attempt, hitem]
      rfl
    | same hitem =>
      refine cut_bind (.same ?_) fun result _ => ?_
      · rw [result_attempt, result_attempt, hitem]
      cases result with
      | ok made => exact cut_bind (later report) fun _ _ => .same rfl
      | error error =>
        dsimp only
        split
        · exact later _
        · exact .same rfl

theorem cut_collect (owner : String) {step step' : α → Build κ β} {reason : α → Prop}
    {items : List α} (h : ∀ item ∈ items, Cut limit (reason item) (step item) (step' item)) :
    Cut limit (∃ item ∈ items, reason item) (collect owner step items)
      (collect owner step' items) :=
  cut_collectWith h _

end Build

/-- Nested construction is cut at the limit, for a reason that lies in the order. -/
def Workbench.CutsAt (bench : Workbench κ) (nested : Nested κ) (limit : Nat)
    (reason : Order κ → Prop) : Prop :=
  ∀ order, Build.Cut limit (reason order) (bench.carryOut order)
    ({ bench with nested }.carryOut order)

section Steps

variable {bench : Workbench κ} {nested : Nested κ} {limit : Nat} {reason : Order κ → Prop}

/-! ## Casts -/

namespace Cast

variable {request : CastRequest} {value : Value κ}

theorem cut_convertInstance (h : bench.CutsAt nested limit reason) :
    Build.Cut limit (∃ order ∈ instanceOrders request value, reason order)
      (convertInstance bench request value)
      (convertInstance { bench with nested } request value) := by
  unfold convertInstance instanceOrders
  cases request.type.className? with
  | none => exact .same rfl
  | some className =>
    cases value with
    | map input =>
      refine Build.cut_bind ?_ fun _ _ => .same rfl
      exact (h ⟨request.place, className, input, request.flags⟩).mono
        fun hr => ⟨_, List.mem_singleton_self _, hr⟩
    | _ => exact .same rfl

theorem cut_convertItem (h : bench.CutsAt nested limit reason) (itemClass : String)
    (element : Value κ × Nat) :
    Build.Cut limit (∃ order ∈ memberOrders request itemClass element, reason order)
      (convertItem bench request itemClass element)
      (convertItem { bench with nested } request itemClass element) := by
  obtain ⟨item, index⟩ := element
  cases item with
  | map input =>
    refine Build.cut_prefixed (Build.cut_bind ?_ fun _ _ => .same rfl) _
    exact (h ⟨_, itemClass, input, request.flags⟩).mono
      fun hr => ⟨_, List.mem_singleton_self _, hr⟩
  | record origin r => exact .same rfl
  | _ => exact .same rfl

theorem cut_convertCollection (h : bench.CutsAt nested limit reason) :
    Build.Cut limit (∃ order ∈ collectionOrders bench request value, reason order)
      (convertCollection bench request value)
      (convertCollection { bench with nested } request value) := by
  unfold convertCollection collectionOrders
  dsimp only
  cases request.type.className?.bind bench.registry.collection? with
  | none => exact .same rfl
  | some declaration =>
    cases value with
    | list elements =>
      refine Build.cut_bind ?_ fun _ _ => .same rfl
      refine (Build.cut_collect _ fun element _ =>
        cut_convertItem h declaration.itemClass element).mono ?_
      rintro ⟨element, he, order, ho, hr⟩
      exact ⟨order, List.mem_flatMap.mpr ⟨element, he, ho⟩, hr⟩
    | _ => exact .same rfl

theorem cut_convert (h : bench.CutsAt nested limit reason) {cast : Cast κ}
    (hb : cast.isBuiltIn = true) :
    Build.Cut limit (∃ order ∈ cast.orders bench request value, reason order)
      (cast.convert bench request value) (cast.convert { bench with nested } request value) := by
  cases cast with
  | instances => exact cut_convertInstance h
  | collections => exact cut_convertCollection h
  | custom handle => cases hb

end Cast

/-! ## Properties -/

namespace Property

variable {property : Property κ} {site : Site} {flags : Flags} {value : Value κ}

theorem cut_castElement (h : bench.CutsAt nested limit reason)
    (hn : property.Native bench.registry) (element : Value κ × Nat) :
    Build.Cut limit (∃ order ∈ property.elementOrders bench site flags element, reason order)
      (property.castElement bench site flags element)
      (property.castElement { bench with nested } site flags element) := by
  obtain ⟨item, index⟩ := element
  have hsame : claim? { bench with nested } property.elementCasts item =
      claim? bench property.elementCasts item := rfl
  unfold castElement elementOrders
  dsimp only
  rw [hsame]
  cases hclaim : claim? bench property.elementCasts item with
  | none => exact .same rfl
  | some entry =>
    exact Build.cut_prefixed
      (Cast.cut_convert h (hn.elementCasts.claimed hclaim).isBuiltIn) _

theorem cut_coerceWhole (h : bench.CutsAt nested limit reason)
    (hn : property.Native bench.registry) :
    Build.Cut limit (∃ order ∈ property.wholeOrders bench site flags value, reason order)
      (property.coerceWhole bench site flags value)
      (property.coerceWhole { bench with nested } site flags value) := by
  have hsame : claim? { bench with nested } property.casts value =
      claim? bench property.casts value := rfl
  unfold coerceWhole wholeOrders
  rw [hsame]
  cases hclaim : claim? bench property.casts value with
  | none => exact .same rfl
  | some entry => exact Cast.cut_convert h (hn.casts.claimed hclaim).isBuiltIn

theorem cut_coerce (h : bench.CutsAt nested limit reason) (hn : property.Native bench.registry) :
    Build.Cut limit (∃ order ∈ property.coerceOrders bench site flags value, reason order)
      (property.coerce bench site flags value)
      (property.coerce { bench with nested } site flags value) := by
  cases value with
  | list items =>
    have hsame : property.castsElements { bench with nested } items =
        property.castsElements bench items := rfl
    unfold coerce coerceOrders
    dsimp only
    rw [hsame]
    split
    · refine Build.cut_bind ?_ fun _ _ => .same rfl
      refine (Build.cut_collect _ fun element _ => cut_castElement h hn element).mono ?_
      rintro ⟨element, he, order, ho, hr⟩
      exact ⟨order, List.mem_flatMap.mpr ⟨element, he, ho⟩, hr⟩
    · exact cut_coerceWhole h hn
  | _ => exact cut_coerceWhole h hn

theorem cut_castValue (h : bench.CutsAt nested limit reason)
    (hn : property.Native bench.registry) :
    Build.Cut limit (∃ order ∈ property.orders bench site flags value, reason order)
      (property.castValue bench site flags value)
      (property.castValue { bench with nested } site flags value) :=
  Build.cut_bind (Build.cut_prefixed (cut_coerce h hn) _) fun _ _ => .same rfl

end Property

/-! ## Instances -/

namespace Construction

variable {m : Metadata κ} {site : Site} {flags : Flags}

theorem cut_castEntry (h : bench.CutsAt nested limit reason)
    (hn : ∀ property ∈ m.properties, property.Native bench.registry) (entry : String × Value κ) :
    Build.Cut limit (∃ order ∈ entryOrders bench m site flags entry, reason order)
      (castEntry bench m site flags entry)
      (castEntry { bench with nested } m site flags entry) := by
  unfold castEntry entryOrders
  cases hp : m.property? entry.1 with
  | none => exact .same rfl
  | some property =>
    have hnative := hn property (Metadata.property?_eq_some hp).1
    exact Build.cut_bind (Property.cut_castValue h hnative) fun _ _ => .same rfl

theorem cut_construct (h : bench.CutsAt nested limit reason)
    (hn : ∀ property ∈ m.properties, property.Native bench.registry) (input : Table (Value κ)) :
    Build.Cut limit (∃ order ∈ input.flatMap (entryOrders bench m site flags), reason order)
      (construct bench m site input flags)
      (construct { bench with nested } m site input flags) := by
  unfold construct
  dsimp only
  split
  · exact .same rfl
  · refine Build.cut_bind ?_ fun _ _ => .same rfl
    refine (Build.cut_collect _ fun entry _ => cut_castEntry h hn entry).mono ?_
    rintro ⟨entry, he, order, ho, hr⟩
    exact ⟨order, List.mem_flatMap.mpr ⟨entry, he, ho⟩, hr⟩

end Construction

end Steps

/-! ## Levels -/

/-- The same with another limit on depth. -/
def Plan.upTo (plan : Plan κ) (limit : Nat) : Plan κ :=
  { plan with maxDepth := limit }

theorem Plan.Native.upTo {plan : Plan κ} (hp : plan.Native) (limit : Nat) :
    (plan.upTo limit).Native :=
  ⟨hp.wellFormed, hp.name, hp.properties, hp.collections, hp.reported⟩

namespace Construction

variable {plan : Plan κ} {call levels limit : Nat} {order nested : Order κ}

/-- How deep the orders of a construction are nested. -/
def height (plan : Plan κ) (call : Nat) : Nat → Order κ → Nat
  | 0, _ => 0
  | levels + 1, order =>
    ((orders plan call levels order).map fun nested =>
      height plan call levels nested + 1).max?.getD 0

/-- Orders each of which is nested directly in the one before, the first one in the given order. -/
inductive Chain (plan : Plan κ) (call : Nat) : Nat → Order κ → List (Order κ) → Prop
  | nil {levels : Nat} {order : Order κ} : Chain plan call levels order []
  | cons {levels : Nat} {order nested : Order κ} {chain : List (Order κ)} :
    nested ∈ orders plan call levels order → Chain plan call levels nested chain →
      Chain plan call (levels + 1) order (nested :: chain)

theorem height_lt_of_mem (hn : nested ∈ orders plan call levels order) :
    height plan call levels nested < height plan call (levels + 1) order :=
  List.le_max?_getD_of_mem (List.mem_map.mpr ⟨nested, hn, rfl⟩)

theorem height_cases (plan : Plan κ) (call levels : Nat) (order : Order κ) :
    height plan call (levels + 1) order = 0 ∨ ∃ nested ∈ orders plan call levels order,
      height plan call (levels + 1) order = height plan call levels nested + 1 := by
  rw [height]
  cases hd : ((orders plan call levels order).map fun nested =>
      height plan call levels nested + 1).max? with
  | none => exact .inl rfl
  | some depth =>
    obtain ⟨nested, hn, rfl⟩ := List.mem_map.mp (List.max?_mem hd)
    exact .inr ⟨nested, hn, rfl⟩

theorem Chain.length_le {chain : List (Order κ)} (h : Chain plan call levels order chain) :
    chain.length ≤ height plan call levels order := by
  induction h with
  | nil => exact Nat.zero_le _
  | cons hn _ ih => exact Nat.lt_of_le_of_lt ih (height_lt_of_mem hn)

theorem exists_chain (plan : Plan κ) (call levels : Nat) (order : Order κ) :
    ∃ chain, Chain plan call levels order chain ∧
      chain.length = height plan call levels order := by
  induction levels generalizing order with
  | zero => exact ⟨[], .nil, rfl⟩
  | succ levels ih =>
    rcases height_cases plan call levels order with hzero | ⟨nested, hn, hheight⟩
    · exact ⟨[], .nil, hzero.symm⟩
    · obtain ⟨chain, hchain, hlength⟩ := ih nested
      exact ⟨nested :: chain, .cons hn hchain, by rw [hheight, ← hlength]; rfl⟩

/-- The height is the length of the longest chain. -/
theorem isGreatest_height (plan : Plan κ) (call levels : Nat) (order : Order κ) :
    IsGreatest { n | ∃ chain, Chain plan call levels order chain ∧ chain.length = n }
      (height plan call levels order) := by
  refine ⟨exists_chain plan call levels order, ?_⟩
  rintro n ⟨chain, hchain, rfl⟩
  exact hchain.length_le

/-! ## Two limits -/

theorem siteOf_upTo (more : Nat) (place : List Step) :
    siteOf (plan.upTo (more + limit)) call (more + levels) place =
      siteOf (plan.upTo limit) call levels place :=
  congrArg (Site.mk · call place) (Nat.add_sub_add_left more limit levels)

/-- With built-in casts only, the same is ordered under both limits. -/
theorem orders_upTo (hp : plan.Native) (more : Nat) :
    orders (plan.upTo (more + limit)) call (more + levels) order =
      orders (plan.upTo limit) call levels order := by
  have hsame : conversions (plan.upTo (more + limit)) call (more + levels) order =
      conversions (plan.upTo limit) call levels order := by
    unfold conversions
    rw [siteOf_upTo]
    rfl
  rw [orders_eq, orders_eq, hsame]
  refine List.flatMap_congr fun conversion hc => ?_
  have hb := isBuiltIn_of_mem_conversions (hp.upTo limit) hc
  obtain ⟨cast, request, value⟩ := conversion
  cases cast with
  | custom handle => cases hb
  | _ => rfl

/-- **A construction is cut only if it is nested too deep.** -/
theorem cut_carryOut (hp : plan.Native) (more : Nat) :
    Build.Cut limit (levels ≤ height (plan.upTo (more + limit)) call (more + levels) order)
      (carryOut (plan.upTo limit) call levels order)
      (carryOut (plan.upTo (more + limit)) call (more + levels) order) := by
  induction levels generalizing order with
  | zero => exact .cut (Nat.zero_le _) rfl
  | succ levels ih =>
    refine Build.cut_bind (.same rfl) fun m hm => ?_
    have hm : plan.metadata order.className = .ok m := hm
    have horders : orders (plan.upTo (more + limit)) call (more + levels) order =
        order.input.flatMap (entryOrders (benchOf (plan.upTo limit) call levels) m
          (siteOf (plan.upTo limit) call levels order.place) order.flags.withoutTransient) := by
      rw [orders_upTo hp]
      unfold orders
      rw [show (plan.upTo limit).metadata order.className = .ok m from hm]
    have hcuts : (benchOf (plan.upTo limit) call levels).CutsAt
        (makeWithin (plan.upTo (more + limit)) call (more + levels)) limit
        (fun nested => levels ≤ height (plan.upTo (more + limit)) call (more + levels) nested) :=
      fun _ => ih
    show Build.Cut limit _
      (construct (benchOf (plan.upTo limit) call levels) m
        (siteOf (plan.upTo limit) call levels order.place) order.input
        order.flags.withoutTransient)
      (construct (benchOf (plan.upTo (more + limit)) call (more + levels)) m
        (siteOf (plan.upTo (more + limit)) call (more + levels) order.place) order.input
        order.flags.withoutTransient)
    rw [siteOf_upTo]
    refine (cut_construct hcuts (hp.properties _ m hm) order.input).mono ?_
    rintro ⟨nested, hn, hdeep⟩
    exact Nat.lt_of_le_of_lt hdeep (height_lt_of_mem (horders ▸ hn))

/-- **A construction succeeds only if it is not nested too deep.** -/
theorem height_lt_of_carryOut (hp : plan.Native) (more : Nat) {r : Instance κ}
    (h : (carryOut (plan.upTo limit) call levels order).result = .ok r) :
    height (plan.upTo (more + limit)) call (more + levels) order < levels := by
  induction levels generalizing order r with
  | zero => cases h
  | succ levels ih =>
    rcases height_cases (plan.upTo (more + limit)) call (more + levels) order with
      hzero | ⟨nested, hn, hheight⟩
    · rw [← Nat.add_assoc, hzero]
      exact Nat.succ_pos levels
    · rw [orders_upTo hp, ← builtInOrders_eq (hp.upTo limit)] at hn
      obtain ⟨made, hmade⟩ := exists_eq_ok_of_mem_builtInOrders (hp.upTo limit).reported h hn
      rw [← Nat.add_assoc, hheight]
      exact Nat.succ_lt_succ (ih hmade)

end Construction

/-! ## Engines -/

namespace Engine

variable {engine : Engine κ}

/-- The same with another limit on depth. -/
def upTo (engine : Engine κ) (limit : Nat) : Engine κ :=
  { engine with settings := { engine.settings with maxDepth := limit } }

/-- The instances of the chain are nested in one another, the first one in that which is made. -/
def Nests (engine : Engine κ) (className : String) (input : Table (Value κ)) (flags : Flags)
    (chain : List (Order κ)) : Prop :=
  Construction.Chain engine.plan engine.calls (engine.plan.maxDepth + 1)
    (Construction.outerOrder className input flags) chain

/-- How deep instances are nested in one another when an instance is made. -/
def nesting (engine : Engine κ) (className : String) (input : Table (Value κ)) (flags : Flags) :
    Nat :=
  Construction.height engine.plan engine.calls (engine.plan.maxDepth + 1)
    (Construction.outerOrder className input flags)

/-- **The depth limit only cuts.**  Under a lower limit an instance is made with the same outcome,
or the limit is exceeded.  If it can be made under the higher limit, it can be made under the lower
one just if no longer chain of instances is nested in it. -/
theorem Reachable.depth_limit (hr : Reachable ClassDeclaration.WithoutCasts engine)
    (hcasts : engine.casts = []) {low high : Nat} (h : low ≤ high) (className : String)
    (input : Table (Value κ)) (flags : Flags) :
    (((engine.upTo low).make className input flags).1 = .error (.maxDepthExceeded low) ∨
      ((engine.upTo low).make className input flags).1 =
        ((engine.upTo high).make className input flags).1) ∧
    IsGreatest { n | ∃ chain, (engine.upTo high).Nests className input flags chain ∧
      chain.length = n } ((engine.upTo high).nesting className input flags) ∧
    ∀ record, ((engine.upTo high).make className input flags).1 = .ok record →
      (∀ entry ∈ (engine.upTo high).makeOrders className input flags,
        ∃ r, (engine.upTo high).Builds entry r) ∧
      (((engine.upTo low).make className input flags).1 = .ok record ↔
        (engine.upTo high).nesting className input flags ≤ low) ∧
      (low < (engine.upTo high).nesting className input flags →
        ((engine.upTo low).make className input flags).1 = .error (.maxDepthExceeded low)) := by
  have hp : engine.plan.Native := hr.native (fun _ hd => hd) hcasts
  obtain ⟨more, rfl⟩ := Nat.exists_eq_add_of_le' h
  have hcut : Build.Cut low (low < (engine.upTo (more + low)).nesting className input flags)
      (Construction.make (engine.upTo low).plan engine.calls className input flags)
      (Construction.make (engine.upTo (more + low)).plan engine.calls className input flags) :=
    Construction.cut_carryOut hp more
  have hfits : ∀ record, ((engine.upTo low).make className input flags).1 = .ok record →
      (engine.upTo (more + low)).nesting className input flags ≤ low := by
    intro record hok
    have hmade : (Construction.carryOut (engine.plan.upTo low) engine.calls (low + 1)
        (Construction.outerOrder className input flags)).result = .ok record := hok
    exact Nat.le_of_lt_succ (Construction.height_lt_of_carryOut hp more hmade)
  refine ⟨?_, Construction.isGreatest_height .., fun record hok => ⟨?_, ?_, ?_⟩⟩
  · cases hcut with
    | same hsame => exact .inr hsame
    | cut _ hlimit => exact .inl hlimit
  · intro entry he
    have hhigh : (engine.upTo (more + low)).plan.Native := hp.upTo (more + low)
    have hmade : (engine.upTo (more + low)).Builds ((engine.upTo (more + low)).plan.maxDepth + 1,
        Construction.outerOrder className input flags) record := hok
    unfold makeOrders at he
    rw [← Construction.reached_eq hhigh] at he
    exact Construction.exists_eq_ok_of_mem_reached hhigh.reported hmade he
  · refine ⟨hfits record, fun hle => ?_⟩
    cases hcut with
    | same hsame => exact hsame.trans hok
    | cut hdeep _ => exact absurd hle (Nat.not_le_of_lt hdeep)
  · intro hdeep
    cases hcut with
    | same hsame => exact absurd (hfits record (hsame.trans hok)) (Nat.not_le_of_lt hdeep)
    | cut _ hlimit => exact hlimit

end Engine

/-- A country has its cities one level below it: a limit of one will do, a limit of zero will
not. -/
theorem Atlas.france_limited : ∃ record,
    ((engine.upTo 100).make "Country" france .none).1 = .ok record ∧
      ((engine.upTo 1).make "Country" france .none).1 = .ok record ∧
      ((engine.upTo 0).make "Country" france .none).1 = .error (.maxDepthExceeded 0) := by
  obtain ⟨record, hrecord⟩ : ∃ record,
      ((engine.upTo 100).make "Country" france .none).1 = .ok record := ⟨_, rfl⟩
  have hdepth : (engine.upTo 100).nesting "Country" france .none = 1 := by decide +kernel
  have hengine : Engine.Reachable ClassDeclaration.WithoutCasts engine :=
    reachable ⟨rfl, rfl⟩ ⟨rfl, rfl⟩
  obtain ⟨-, hone, -⟩ := (hengine.depth_limit rfl (show 1 ≤ 100 by decide) "Country" france
    .none).2.2 record hrecord
  obtain ⟨-, -, hzero⟩ := (hengine.depth_limit rfl (show 0 ≤ 100 by decide) "Country" france
    .none).2.2 record hrecord
  exact ⟨record, hrecord, hone.mpr (Nat.le_of_eq hdepth), hzero (by rw [hdepth]; decide)⟩

end TypedRecords
