import TypedRecords.Proofs.Inheritance
import TypedRecords.Proofs.Returns

/-!
# Precedence of casts

Several casts may be for one type, and several of those that were kept may claim one value.  The
first one goes ahead both times.

* `Cast.inOrder`: the casts that may be kept for a property, in their order.
* `Cast.chosen_keptCasts`: each type keeps the first cast that accepts it.
* `Property.coerce_of_isFirst`: **the first kept cast that claims a value converts it.**
* `Metadata.precedence`: both together, for a class that resolves.
-/

namespace TypedRecords

variable {κ : Type}

/-- The item satisfies `p`, and none of the items before it does. -/
def IsFirst {α : Type} (p : α → Bool) (items : List α) (item : α) : Prop :=
  ∃ before after, items = before ++ item :: after ∧ p item = true ∧
    ∀ earlier ∈ before, p earlier = false

theorem isFirst_iff {α : Type} {p : α → Bool} {items : List α} {item : α} :
    IsFirst p items item ↔ items.find? p = some item := by
  rw [List.find?_eq_some_iff_append]
  constructor
  · rintro ⟨before, after, rfl, hp, hbefore⟩
    exact ⟨hp, before, after, rfl, fun earlier he => by rw [hbefore earlier he]; rfl⟩
  · rintro ⟨hp, before, after, rfl, hbefore⟩
    exact ⟨before, after, rfl, hp, fun earlier he => by simpa using hbefore earlier he⟩

namespace Cast

/-- The casts that may be kept for a property, in their order: those given for this property along
the line, the class before its ancestors; those given for all properties, again along the line;
those of the engine; the built-in ones. -/
def inOrder (line : List (ClassDeclaration κ)) (casts : List κ) (property : String) :
    List (Cast κ) :=
  (line.flatMap fun declaration => declaration.castsFor property).map custom ++
    (line.flatMap ClassDeclaration.casts).map custom ++ casts.map custom ++
      [instances, collections]

/-- The types that some candidate accepts are kept, in their order, each with the first candidate
that accepts it. -/
structure Chosen (casting : Casting κ) (registry : Registry κ) (candidates : List (Cast κ))
    (types : List TypeName) (kept : List (TypeName × Cast κ)) : Prop where
  types : kept.map Prod.fst =
    types.filter fun type => candidates.any (·.accepts casting registry type)
  first : ∀ entry ∈ kept,
    IsFirst (·.accepts casting registry entry.1) candidates entry.2

theorem chosen_keptCasts (casting : Casting κ) (registry : Registry κ)
    (candidates : List (Cast κ)) (types : List TypeName) :
    Chosen casting registry candidates types (keptCasts casting registry candidates types) where
  types := by
    induction types with
    | nil => rfl
    | cons type rest ih =>
      unfold keptCasts at ih ⊢
      cases hfind : candidates.find? (·.accepts casting registry type) with
      | none =>
        have hnone : candidates.any (·.accepts casting registry type) = false := by
          simpa using List.find?_eq_none.mp hfind
        rw [List.filterMap_cons_none (by rw [hfind]; rfl), ih,
          List.filter_cons, if_neg (by simp [hnone])]
      | some cast =>
        have hsome : candidates.any (·.accepts casting registry type) = true :=
          List.any_eq_true.mpr ⟨cast, List.mem_of_find?_eq_some hfind, by
            simpa using List.find?_some hfind⟩
        rw [List.filterMap_cons_some (b := (type, cast)) (by rw [hfind]; rfl), List.map_cons, ih,
          List.filter_cons, if_pos hsome]
  first := by
    intro entry he
    obtain ⟨type, -, he⟩ := List.mem_filterMap.mp he
    obtain ⟨cast, hfind, rfl⟩ := Option.map_eq_some_iff.mp he
    exact isFirst_iff.mpr hfind

end Cast

namespace Property

variable {bench : Workbench κ} {property : Property κ} {site : Site} {flags : Flags}
  {value : Value κ}

/-- **The first kept cast that claims a value converts it**, unless the value is a list that is
coerced item by item. -/
theorem coerce_of_isFirst {entry : TypeName × Cast κ}
    (hvalue : ∀ items, value = .list items → property.castsElements bench items = false)
    (hfirst : IsFirst (·.2.claims bench.casting value) property.casts entry) :
    property.coerce bench site flags value =
      entry.2.convert bench (property.request site flags entry.1) value := by
  have hclaim : claim? bench property.casts value = some entry := isFirst_iff.mp hfirst
  rw [coerce_eq_coerceWhole hvalue, coerceWhole, hclaim]

/-- What no kept cast claims is read as an integer if it can be, and stays as it is otherwise. -/
theorem coerce_of_not_claims
    (hvalue : ∀ items, value = .list items → property.castsElements bench items = false)
    (hnone : ∀ entry ∈ property.casts, entry.2.claims bench.casting value = false) :
    property.coerce bench site flags value =
      pure ((property.readInteger? value).elim value .int) := by
  have hclaim : claim? bench property.casts value = none :=
    List.find?_eq_none.mpr fun entry he => by simp [hnone entry he]
  rw [coerce_eq_coerceWhole hvalue, coerceWhole, hclaim]
  dsimp only
  cases property.readInteger? value <;> rfl

end Property

/-- **Which casts a class keeps, and which one converts a value.**  Each property of a class that
resolves keeps, for each of its types and each of its element types, the first cast in order that
accepts it.  A value that is not coerced item by item is converted by the first of the casts kept
for the types that claims it. -/
theorem Metadata.precedence {casting : Casting κ} {registry : Registry κ} {casts : List κ}
    {generation : Nat} {key : String} {m : Metadata κ}
    (hbuilt : registry.All ClassDeclaration.Built)
    (h : resolve casting registry casts generation key = .ok m) :
    ∃ line, Ancestry.Line registry (normalName key) line ∧ ∀ property ∈ m.properties,
      Cast.Chosen casting registry (Cast.inOrder line casts property.name) property.union.plain
          property.casts ∧
        Cast.Chosen casting registry (Cast.inOrder line casts property.name)
          property.union.elements property.elementCasts ∧
        ∀ (bench : Workbench κ) (site : Site) (flags : Flags) (value : Value κ),
          (∀ items, value = .list items → property.castsElements bench items = false) →
            (∀ entry, IsFirst (·.2.claims bench.casting value) property.casts entry →
              property.coerce bench site flags value =
                entry.2.convert bench (property.request site flags entry.1) value) ∧
            ((∀ entry ∈ property.casts, entry.2.claims bench.casting value = false) →
              property.coerce bench site flags value =
                pure ((property.readInteger? value).elim value .int)) := by
  obtain ⟨line, flat, hline, hflat, -, -, -, hproperties⟩ := resolve_eq_ok h
  have hdistinct : ∀ d ∈ line, d.Distinct := fun d hd =>
    (hbuilt.of_ancestry hline d hd).distinct
  obtain ⟨-, rfl⟩ := Flattened.ofChain_eq_ok.mp hflat
  refine ⟨line, Registry.line_of_ancestry hline, fun property hp => ?_⟩
  obtain ⟨entry, -, union, -, hresolve⟩ := forall₂_mem_right hproperties hp
  have horder : ((Table.get? (Flattened.overlaid line).casts entry.1).getD []).map Cast.custom ++
      ((line.flatMap ClassDeclaration.casts).map Cast.custom ++ engineCasts casts) =
        Cast.inOrder line casts entry.1 := by
    rw [Flattened.get?_casts hdistinct]
    simp only [Cast.inOrder, engineCasts, List.append_assoc]
  rw [horder] at hresolve
  obtain ⟨rfl, -⟩ := Property.resolve_eq_ok hresolve
  exact ⟨Cast.chosen_keptCasts .., Cast.chosen_keptCasts .., fun bench site flags value hvalue =>
    ⟨fun entry hfirst => Property.coerce_of_isFirst hvalue hfirst,
      fun hnone => Property.coerce_of_not_claims hvalue hnone⟩⟩

namespace Atlas

/-- Who gives a cast: the class for one property, its parent for the same one, its parent for all
properties, or the engine. -/
inductive Giver where
  | own | inherited | shared | general

/-- Each giver is for more types than the one before it; texts are claimed by the first two. -/
def giving : Casting Giver := fun giver =>
  { label := "giver"
    accepts := fun _ type => match giver, type with
      | .own, .keyword .string => true
      | .inherited, .keyword .string | .inherited, .keyword .int => true
      | .shared, .keyword .null => false
      | .shared, .keyword _ | .general, .keyword _ => true
      | _, _ => false
    claims := fun value => match giver, value with
      | .own, .text _ | .inherited, .text _ => true
      | _, _ => false
    convert := fun _ _ => .done (.ok .null)
    restore := fun _ _ => .pass }

def letter : ClassDeclaration Giver :=
  (((ClassDeclaration.named "Letter").withProperty "label" ["string"]).withPropertyCast "label"
    .inherited).withCast .shared

def parcel : ClassDeclaration Giver :=
  (((ClassDeclaration.named "Parcel").extending "Letter").withProperty "label"
    ["int", "string", "float", "null", "Letter", "Crate", "int[]", "Letter[]"]).withPropertyCast
      "label" .own

def post : Registry Giver :=
  (Registry.empty.register letter).register parcel

theorem post_built : post.All ClassDeclaration.Built := by
  have hletter : letter.Built :=
    .withCast _ (.withPropertyCast _ _ (.withProperty _ _ (.named _)))
  have hparcel : parcel.Built :=
    .withPropertyCast _ _ (.withProperty _ _ (.extending _ (.named _)))
  have hall : ∀ d ∈ [letter, parcel], d.Built := by
    simp only [List.forall_mem_cons]
    exact ⟨hletter, hparcel, nofun⟩
  exact fun entry he => hall _ (List.mem_map_of_mem (f := Prod.snd) he)

/-- The cast that the class gives is for texts only, so the one of its parent, kept for integers,
comes first. -/
theorem label_precedence :
    ∃ m line property, Metadata.resolve giving post [.general] 0 "Parcel" = .ok m ∧
      m.properties = [property] ∧
      property.casts = [(.keyword .int, .custom .inherited), (.keyword .string, .custom .own),
        (.keyword .float, .custom .shared), (.keyword .null, .custom .general),
        (.named "Letter", .instances)] ∧
      property.elementCasts =
        [(.keyword .int, .custom .inherited), (.named "Letter", .instances)] ∧
      Cast.Chosen giving post (Cast.inOrder line [.general] property.name) property.union.plain
        property.casts ∧
      ∀ (nested : Nested Giver) (site : Site) (flags : Flags),
        property.coerce ⟨giving, post, nested⟩ site flags (.text "fragile") =
          (Cast.custom Giver.inherited).convert ⟨giving, post, nested⟩
            (property.request site flags (.keyword .int)) (.text "fragile") := by
  obtain ⟨line, -, hall⟩ := Metadata.precedence post_built
    (show Metadata.resolve giving post [Giver.general] 0 "Parcel" = .ok _ from rfl)
  obtain ⟨hplain, -, hcoerce⟩ := hall _ List.mem_cons_self
  refine ⟨_, line, _, rfl, rfl, rfl, rfl, hplain, fun nested site flags => ?_⟩
  exact (hcoerce ⟨giving, post, nested⟩ site flags (.text "fragile") nofun).1
    (.keyword .int, .custom .inherited) ⟨[], _, rfl, rfl, nofun⟩

end Atlas

end TypedRecords
