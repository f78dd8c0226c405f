import TypedRecords.Proofs.Absorption
import TypedRecords.Proofs.Lines

/-!
# Inheritance

A class inherits what its ancestors declare.

* `Flattened.ofChain_eq_ok`: **declarations can be laid over one another if they are grounded**:
  each of them gives defaults and casts only for what it or an ancestor declares.
  `Flattened.ofChain_eq_error`: otherwise one that is not is blamed.
* `Flattened.keys_types`, `Flattened.get?_types`, `Flattened.get?_defaults`: a property stands where
  it was declared first, counted from the root, and has the types and the default that were given
  nearest to the class.  `Flattened.get?_casts`: the casts for it that were given nearest to the
  class come first.
* `Metadata.inheritance`: **what a class inherits.**
-/

namespace TypedRecords

variable {κ : Type}

/-! ## Declarations laid over one another -/

namespace ClassDeclaration

/-- In a chain of declarations, nearest first, what the nearest one that has something under `name`
has there. -/
def nearest? {α : Type} (table : ClassDeclaration κ → Table α) (chain : List (ClassDeclaration κ))
    (name : String) : Option α :=
  chain.findSome? fun declaration => Table.get? (table declaration) name

/-- Some declaration of the chain declares a property of this name. -/
def Declared (chain : List (ClassDeclaration κ)) (name : String) : Prop :=
  ∃ declaration ∈ chain, name ∈ declaration.propertyNames

/-- Each declaration gives defaults and casts only for what it or an ancestor declares. -/
def Grounded (chain : List (ClassDeclaration κ)) : Prop :=
  ∀ declaration above, declaration :: above <:+ chain →
    ∀ name, declaration.Mentions name → Declared (declaration :: above) name

theorem grounded_cons {declaration : ClassDeclaration κ} {above : List (ClassDeclaration κ)} :
    Grounded (declaration :: above) ↔
      (∀ name, declaration.Mentions name → Declared (declaration :: above) name) ∧
        Grounded above := by
  constructor
  · intro h
    exact ⟨h declaration above (List.suffix_refl _), fun d rest hs =>
      h d rest (hs.trans (List.suffix_cons _ _))⟩
  · rintro ⟨hfirst, habove⟩ d rest hs
    rcases List.suffix_cons_iff.mp hs with hs | hs
    · cases hs
      exact hfirst
    · exact habove d rest hs

/-- The casts for single properties, each put before those that ancestors give. -/
def castsOver (declaration : ClassDeclaration κ) (casts : Table (List κ)) : Table (List κ) :=
  declaration.propertyCasts.foldl (fun casts entry =>
    Table.put casts entry.1 (entry.2 ++ (Table.get? casts entry.1).getD [])) casts

theorem get?_castsOver {declaration : ClassDeclaration κ}
    (hd : Table.Distinct declaration.propertyCasts) (casts : Table (List κ)) (name : String) :
    (Table.get? (declaration.castsOver casts) name).getD [] =
      declaration.castsFor name ++ (Table.get? casts name).getD [] := by
  unfold castsOver castsFor
  generalize declaration.propertyCasts = own at hd
  induction own generalizing casts with
  | nil => rfl
  | cons entry rest ih =>
    obtain ⟨key, value⟩ := entry
    obtain ⟨hkey, hrest⟩ := List.nodup_cons.mp hd
    rw [List.foldl_cons, ih _ hrest, Table.get?_put, Table.get?_cons]
    by_cases hname : name = key
    · rw [if_pos hname, if_pos hname, hname, Table.get?_eq_none_iff.mpr hkey]
      rfl
    · rw [if_neg hname, if_neg hname]

end ClassDeclaration

namespace Flattened

variable {declaration : ClassDeclaration κ} {flat after : Flattened κ}
  {chain : List (ClassDeclaration κ)}

section Given

variable {α : Type} {given : Table α} {what : String}
  {next : Flattened κ → String × α → Flattened κ}

/-- One entry that a declaration gives, which has to be for a declared property. -/
def give (declaration : ClassDeclaration κ) (what : String)
    (next : Flattened κ → String × α → Flattened κ) (flat : Flattened κ) (entry : String × α) :
    Except Error (Flattened κ) :=
  if Table.has flat.types entry.1 then .ok (next flat entry)
  else .error (undeclared declaration what entry.1)

theorem give_eq_ok {entry : String × α} : give declaration what next flat entry = .ok after ↔
    entry.1 ∈ Table.keys flat.types ∧ next flat entry = after := by
  unfold give
  rw [← Table.has_iff]
  split <;> simp [*]

/-- All that a declaration gives can be laid over what its ancestors give if it is for declared
properties. -/
theorem foldlM_give_eq_ok (hnext : ∀ s entry, (next s entry).types = s.types) :
    given.foldlM (give declaration what next) flat = .ok after ↔
      (∀ name ∈ Table.keys given, name ∈ Table.keys flat.types) ∧
        given.foldl next flat = after := by
  rw [foldlM_eq_ok_iff (P := fun s => s.types = flat.types)
    (fun entry => entry.1 ∈ Table.keys flat.types) next
    (fun s entry t hs => by rw [give_eq_ok, hs]) (fun s entry hs => (hnext s entry).trans hs) rfl]
  exact and_congr_left fun _ => by simp [Table.keys]

theorem foldlM_give_eq_error {error : Error}
    (h : given.foldlM (give declaration what next) flat = .error error)
    (hnext : ∀ s entry, (next s entry).types = s.types) :
    ∃ property ∈ Table.keys given, property ∉ Table.keys flat.types ∧
      error = undeclared declaration what property := by
  obtain ⟨entry, he, s, hs, h⟩ := foldlM_error_invariant (P := fun s => s.types = flat.types)
    (fun entry _ s t hs h => by rw [← (give_eq_ok.mp h).2, hnext, hs]) rfl h
  unfold give at h
  split at h
  · cases h
  · next hhas =>
    cases h
    rw [hs, Table.has_iff] at hhas
    exact ⟨entry.1, List.mem_map_of_mem he, hhas, rfl⟩

end Given

theorem addDefaults_eq_give : addDefaults declaration flat = declaration.defaults.foldlM
    (give declaration "default" fun s entry =>
      { s with defaults := Table.put s.defaults entry.1 entry.2 }) flat :=
  rfl

theorem addCasts_eq_give : addCasts declaration flat = declaration.propertyCasts.foldlM
    (give declaration "cast" fun s entry =>
      let inherited := (Table.get? s.casts entry.1).getD []
      { s with casts := Table.put s.casts entry.1 (entry.2 ++ inherited) }) flat :=
  rfl

theorem addDefaults_eq_ok : addDefaults declaration flat = .ok after ↔
    (∀ name ∈ Table.keys declaration.defaults, name ∈ Table.keys flat.types) ∧
      { flat with defaults := Table.putAll flat.defaults declaration.defaults } = after := by
  rw [addDefaults_eq_give]
  refine Iff.trans (foldlM_give_eq_ok fun _ _ => rfl) (and_congr_right fun _ => Eq.congr ?_ rfl)
  refine List.foldl_hom (fun defaults => { flat with defaults }) ?_
  exact fun _ _ => rfl

theorem addCasts_eq_ok : addCasts declaration flat = .ok after ↔
    (∀ name ∈ Table.keys declaration.propertyCasts, name ∈ Table.keys flat.types) ∧
      { flat with casts := declaration.castsOver flat.casts } = after := by
  rw [addCasts_eq_give]
  refine Iff.trans (foldlM_give_eq_ok fun _ _ => rfl) (and_congr_right fun _ => Eq.congr ?_ rfl)
  refine List.foldl_hom (fun casts => { flat with casts }) ?_
  exact fun _ _ => rfl

/-- A declaration laid over its ancestors, whatever it mentions. -/
def overlay (declaration : ClassDeclaration κ) (flat : Flattened κ) : Flattened κ where
  types := Table.putAll flat.types declaration.properties
  defaults := Table.putAll flat.defaults declaration.defaults
  casts := declaration.castsOver flat.casts

theorem extend_eq_ok : flat.extend declaration = .ok after ↔
    (∀ name, declaration.Mentions name → name ∈ Table.keys (overlay declaration flat).types) ∧
      overlay declaration flat = after := by
  unfold extend
  dsimp only
  rw [except_bind_eq_ok]
  constructor
  · rintro ⟨middle, hdefaults, hcasts⟩
    obtain ⟨hd, rfl⟩ := addDefaults_eq_ok.mp hdefaults
    obtain ⟨hc, rfl⟩ := addCasts_eq_ok.mp hcasts
    exact ⟨fun name hname => hname.elim (hd name) (hc name), rfl⟩
  · rintro ⟨hmentions, rfl⟩
    exact ⟨_, addDefaults_eq_ok.mpr ⟨fun name hname => hmentions name (.inl hname), rfl⟩,
      addCasts_eq_ok.mpr ⟨fun name hname => hmentions name (.inr hname), rfl⟩⟩

/-- The declarations of a chain, nearest first, laid over one another. -/
def overlaid (chain : List (ClassDeclaration κ)) : Flattened κ :=
  chain.foldr overlay {}

theorem ofChain_cons (declaration : ClassDeclaration κ) (above : List (ClassDeclaration κ)) :
    ofChain (declaration :: above) = ofChain above >>= fun flat => flat.extend declaration := by
  unfold ofChain
  rw [List.reverse_cons, List.foldlM_append]
  simp only [List.foldlM_cons, List.foldlM_nil, bind_pure]

/-- The properties stand in the order of their first declarations, counted from the root. -/
theorem keys_types (chain : List (ClassDeclaration κ)) : Table.keys (overlaid chain).types =
    (chain.reverse.flatMap ClassDeclaration.propertyNames).eraseDups := by
  induction chain with
  | nil => rfl
  | cons declaration above ih =>
    change Table.keys (Table.putAll (overlaid above).types declaration.properties) = _
    rw [Table.keys_putAll, ih, foldl_addNew_eraseDups, List.reverse_cons, List.flatMap_append]
    simp [ClassDeclaration.propertyNames]

theorem mem_keys_types {name : String} :
    name ∈ Table.keys (overlaid chain).types ↔ ClassDeclaration.Declared chain name := by
  rw [keys_types, List.mem_eraseDups, List.mem_flatMap]
  simp only [List.mem_reverse, ClassDeclaration.Declared]

/-- **Declarations can be laid over one another if they are grounded.** -/
theorem ofChain_eq_ok : ofChain chain = .ok flat ↔
    ClassDeclaration.Grounded chain ∧ overlaid chain = flat := by
  induction chain generalizing flat with
  | nil =>
    refine ⟨fun h => ?_, fun h => congrArg Except.ok h.2⟩
    cases h
    exact ⟨fun d above hs => (List.cons_ne_nil _ _ (List.suffix_nil.mp hs)).elim, rfl⟩
  | cons declaration above ih =>
    rw [ofChain_cons, except_bind_eq_ok, ClassDeclaration.grounded_cons]
    simp only [ih, extend_eq_ok]
    constructor
    · rintro ⟨_, ⟨habove, rfl⟩, hfirst, rfl⟩
      exact ⟨⟨fun name hname => mem_keys_types.mp (hfirst name hname), habove⟩, rfl⟩
    · rintro ⟨⟨hfirst, habove⟩, rfl⟩
      exact ⟨_, ⟨habove, rfl⟩, fun name hname => mem_keys_types.mpr (hfirst name hname), rfl⟩

/-- What is laid over what the ancestors have is what was given nearest to the class. -/
theorem get?_overlaid {α : Type} (table : ClassDeclaration κ → Table α)
    (laid : Flattened κ → Table α) (hnil : laid {} = [])
    (hcons : ∀ declaration flat,
      laid (overlay declaration flat) = Table.putAll (laid flat) (table declaration))
    (hd : ∀ d ∈ chain, Table.Distinct (table d)) (name : String) :
    Table.get? (laid (overlaid chain)) name = ClassDeclaration.nearest? table chain name := by
  induction chain with
  | nil => exact congrArg (Table.get? · name) hnil
  | cons declaration above ih =>
    have hlaid : laid (overlaid (declaration :: above)) =
        Table.putAll (laid (overlaid above)) (table declaration) := hcons _ _
    rw [hlaid, Table.get?_putAll (hd declaration List.mem_cons_self),
      ih fun d hm => hd d (List.mem_cons_of_mem _ hm)]
    unfold ClassDeclaration.nearest?
    rw [List.findSome?_cons]
    cases Table.get? (table declaration) name <;> rfl

theorem get?_types (hd : ∀ d ∈ chain, d.Distinct) (name : String) :
    Table.get? (overlaid chain).types name =
      ClassDeclaration.nearest? ClassDeclaration.properties chain name :=
  get?_overlaid ClassDeclaration.properties types rfl (fun _ _ => rfl)
    (fun d hm => (hd d hm).properties) name

theorem get?_defaults (hd : ∀ d ∈ chain, d.Distinct) (name : String) :
    Table.get? (overlaid chain).defaults name =
      ClassDeclaration.nearest? ClassDeclaration.defaults chain name :=
  get?_overlaid ClassDeclaration.defaults defaults rfl (fun _ _ => rfl)
    (fun d hm => (hd d hm).defaults) name

/-- The casts for a property that are given nearest to the class come first. -/
theorem get?_casts (hd : ∀ d ∈ chain, d.Distinct) (name : String) :
    (Table.get? (overlaid chain).casts name).getD [] =
      chain.flatMap fun declaration => declaration.castsFor name := by
  induction chain with
  | nil => rfl
  | cons declaration above ih =>
    have hfirst := hd declaration List.mem_cons_self
    change (Table.get? (declaration.castsOver (overlaid above).casts) name).getD [] = _
    rw [ClassDeclaration.get?_castsOver hfirst.propertyCasts,
      ih fun d hm => hd d (List.mem_cons_of_mem _ hm), List.flatMap_cons]

/-! ## Declarations that are not grounded -/

/-- The error says that a declaration of the chain gives a default or a cast for a property that
neither it nor an ancestor declares. -/
def BlamesUndeclared (chain : List (ClassDeclaration κ)) (error : Error) : Prop :=
  ∃ declaration above property, declaration :: above <:+ chain ∧
    ¬ ClassDeclaration.Declared (declaration :: above) property ∧
      (property ∈ Table.keys declaration.defaults ∧
          error = undeclared declaration "default" property ∨
        property ∈ Table.keys declaration.propertyCasts ∧
          error = undeclared declaration "cast" property)

theorem ofChain_eq_error {error : Error} (h : ofChain chain = .error error) :
    BlamesUndeclared chain error := by
  induction chain with
  | nil => cases h
  | cons declaration above ih =>
    rw [ofChain_cons] at h
    rcases except_bind_eq_error.mp h with h | ⟨flat, hflat, h⟩
    · obtain ⟨owner, rest, property, hs, hrest⟩ := ih h
      exact ⟨owner, rest, property, hs.trans (List.suffix_cons _ _), hrest⟩
    · obtain ⟨-, rfl⟩ := ofChain_eq_ok.mp hflat
      have hkeys : ∀ property, property ∉ Table.keys
          (Table.putAll (overlaid above).types declaration.properties) →
            ¬ ClassDeclaration.Declared (declaration :: above) property :=
        fun property hp hdeclared => hp (mem_keys_types.mpr hdeclared)
      refine ⟨declaration, above, ?_⟩
      rcases except_bind_eq_error.mp h with h | ⟨middle, hm, h⟩
      · rw [addDefaults_eq_give] at h
        obtain ⟨property, hp, hundeclared, herror⟩ := foldlM_give_eq_error h fun _ _ => rfl
        exact ⟨property, List.suffix_refl _, hkeys property hundeclared, .inl ⟨hp, herror⟩⟩
      · obtain ⟨-, rfl⟩ := addDefaults_eq_ok.mp hm
        rw [addCasts_eq_give] at h
        obtain ⟨property, hp, hundeclared, herror⟩ := foldlM_give_eq_error h fun _ _ => rfl
        exact ⟨property, List.suffix_refl _, hkeys property hundeclared, .inr ⟨hp, herror⟩⟩

end Flattened

/-! ## What a class inherits -/

namespace Metadata

/-- What a class inherits along the line of its ancestors, nearest first. -/
structure Inherits (m : Metadata κ) (line : List (ClassDeclaration κ)) : Prop where
  /-- Each property stands where it was declared first, counted from the root. -/
  names : m.names = (line.reverse.flatMap ClassDeclaration.propertyNames).eraseDups
  types : ∀ property ∈ m.properties, ∃ types,
    ClassDeclaration.nearest? ClassDeclaration.properties line property.name = some types ∧
      UnionType.parse types = .ok property.union
  default : ∀ property ∈ m.properties,
    property.default = ClassDeclaration.nearest? ClassDeclaration.defaults line property.name
  /-- The ancestors come before the interfaces. -/
  lineage : m.lineage = (line.tail.map ClassDeclaration.name ++
    line.flatMap ClassDeclaration.interfaces).eraseDups
  isInstanceOf : ∀ className, m.isInstanceOf className = true ↔ ∃ declaration ∈ line,
    declaration.name = normalName className ∨ normalName className ∈ declaration.interfaces

variable {casting : Casting κ} {registry : Registry κ} {casts : List κ} {generation : Nat}
  {key : String} {m : Metadata κ} {line : List (ClassDeclaration κ)}

theorem Inherits.names_prefix {m' : Metadata κ} {above : List (ClassDeclaration κ)}
    (h : m.Inherits line) (h' : m'.Inherits above) (hs : above <:+ line) :
    m'.names <+: m.names := by
  obtain ⟨below, rfl⟩ := hs
  rw [h.names, h'.names, List.reverse_append, List.flatMap_append, List.eraseDups_append]
  exact List.prefix_append _ _

theorem isInstanceOf_iff {first : ClassDeclaration κ} {above : List (ClassDeclaration κ)}
    (hname : m.name = first.name)
    (hlineage : m.lineage = (above.map ClassDeclaration.name ++
      (first :: above).flatMap ClassDeclaration.interfaces).eraseDups) {className : String} :
    m.isInstanceOf className = true ↔ ∃ declaration ∈ first :: above,
      declaration.name = normalName className ∨ normalName className ∈ declaration.interfaces := by
  unfold isInstanceOf
  simp only [hname, hlineage, Bool.or_eq_true, beq_iff_eq, List.contains_iff_mem,
    List.mem_eraseDups, List.mem_append, List.mem_map, List.mem_flatMap]
  simp only [and_or_left, exists_or]
  refine or_assoc.symm.trans (or_congr_left ?_)
  simp only [List.mem_cons, exists_eq_or_imp]

/-- **A class that resolves inherits along the line of its ancestors.** -/
theorem inherits_of_resolve (hr : registry.Plain)
    (hkey : normalName (normalName key) = normalName key)
    (h : resolve casting registry casts generation key = .ok m) :
    ∃ line, Ancestry.Line registry m.name line ∧ m.name = normalName key ∧ m.Inherits line := by
  obtain ⟨line, flat, hline, hflat, -, hname, hlineage, hproperties⟩ := resolve_eq_ok h
  have hdistinct : ∀ d ∈ line, d.Distinct := fun d hd =>
    (hr.declarations.of_ancestry hline d hd).distinct
  replace hline := Registry.line_of_ancestry hline
  obtain ⟨-, rfl⟩ := Flattened.ofChain_eq_ok.mp hflat
  have hnames : m.names = Table.keys (Flattened.overlaid line).types :=
    names_eq_keys (hproperties.imp fun _ _ ⟨_, _, hresolve⟩ =>
      Property.name_eq_of_resolve hresolve)
  have hlineage : m.lineage = (line.tail.map ClassDeclaration.name ++
      line.flatMap ClassDeclaration.interfaces).eraseDups := by
    have htail : (line.tail.map ClassDeclaration.name).Nodup :=
      (hline.nodup hr).sublist ((List.tail_sublist line).map _)
    rw [hlineage, lineageOf, ← foldl_addNew_eraseDups, eraseDups_of_nodup htail]
  refine ⟨line, hname ▸ hline, hname, hnames.trans (Flattened.keys_types line), ?_, ?_, hlineage, ?_⟩
  · intro property hp
    obtain ⟨⟨name, types⟩, he, union, hparse, hresolve⟩ := forall₂_mem_right hproperties hp
    obtain ⟨rfl, -⟩ := Property.resolve_eq_ok hresolve
    have htable : Table.Distinct (Flattened.overlaid line).types := by
      unfold Table.Distinct
      rw [← hnames]
      exact (wellFormed_of_resolve h).distinct
    rw [← Flattened.get?_types hdistinct]
    exact ⟨types, Table.get?_of_mem htable he, except_mapError_eq_ok.mp hparse⟩
  · intro property hp
    obtain ⟨entry, -, union, -, hresolve⟩ := forall₂_mem_right hproperties hp
    obtain ⟨rfl, -⟩ := Property.resolve_eq_ok hresolve
    exact Flattened.get?_defaults hdistinct _
  · intro className
    cases hline with
    | root hd _ => exact isInstanceOf_iff (by rw [hname, hr.name_eq hd, hkey]) hlineage
    | child hd _ _ => exact isInstanceOf_iff (by rw [hname, hr.name_eq hd, hkey]) hlineage

/-- A declaration on the line that is not grounded makes resolution fail. -/
theorem resolve_of_not_grounded (hr : registry.Plain)
    (hline : Ancestry.Line registry (normalName key) line)
    (hloose : ¬ ClassDeclaration.Grounded line) :
    ∃ error, resolve casting registry casts generation key = .error error ∧
      Flattened.BlamesUndeclared line error := by
  cases hflat : Flattened.ofChain line with
  | ok flat => exact (hloose (Flattened.ofChain_eq_ok.mp hflat).1).elim
  | error error =>
    refine ⟨error, ?_, Flattened.ofChain_eq_error hflat⟩
    exact except_bind_eq_error.mpr (.inr ⟨line, hr.ancestry_eq_ok_iff.mpr hline,
      except_bind_eq_error.mpr (.inl hflat)⟩)

/-- **What a class inherits.**  A class that resolves inherits along the line of its ancestors: the
names of an ancestor come first among its own.  If a declaration on the line mentions a property
that neither it nor an ancestor declares, the class does not resolve, whatever its descendants
declare. -/
theorem inheritance (hr : registry.Plain) (hkey : normalName (normalName key) = normalName key)
    (casting : Casting κ) (casts : List κ) (generation : Nat) :
    (∀ m, resolve casting registry casts generation key = .ok m →
      ∃ line, Ancestry.Line registry m.name line ∧ m.name = normalName key ∧ m.Inherits line ∧
        ∀ ancestor above, ancestor :: above <:+ line → ∀ m' generation' key',
          m'.name = ancestor.name → resolve casting registry casts generation' key' = .ok m' →
            m'.names <+: m.names) ∧
    ∀ line, Ancestry.Line registry (normalName key) line →
      ∀ declaration above, declaration :: above <:+ line → ∀ property,
        declaration.Mentions property → ¬ ClassDeclaration.Declared (declaration :: above) property →
          ∃ error, resolve casting registry casts generation key = .error error ∧
            Flattened.BlamesUndeclared line error := by
  refine ⟨fun m h => ?_, fun line hline declaration above hs property hmentions hundeclared =>
    resolve_of_not_grounded hr hline fun hgrounded =>
      hundeclared (hgrounded declaration above hs property hmentions)⟩
  obtain ⟨line, hline, hname, hinherits⟩ := inherits_of_resolve hr hkey h
  refine ⟨line, hline, hname, hinherits, fun ancestor above hs m' generation' key' hname' h' => ?_⟩
  have habove := hline.of_suffix hr hs
  have hkey' : normalName (normalName key') = normalName key' := by
    obtain ⟨-, -, -, -, -, hkey', -⟩ := resolve_eq_ok h'
    obtain ⟨asks, hfound⟩ := hline.exists_class? (hs.subset List.mem_cons_self)
    rw [← hkey', hname', hr.names.class? hfound]
  obtain ⟨line', hline', -, hinherits'⟩ := inherits_of_resolve hr hkey' h'
  rw [hname'] at hline'
  rw [hline'.eq habove] at hinherits'
  exact hinherits.names_prefix hinherits' hs

end Metadata

namespace Atlas

/-- A place with a name and its inhabitants, none unless they are counted. -/
def place : ClassDeclaration Empty :=
  (((ClassDeclaration.named "Place").withProperty "name" ["string"]).withProperty "people"
    ["int"]).withDefault "people" (.int 0) |>.implementing "\\Named"

/-- A place with a mayor, where the inhabitants may be an estimate in words. -/
def town : ClassDeclaration Empty :=
  (((ClassDeclaration.named "\\Town").extending "\\Place").withProperty "mayor"
    ["string", "null"]).withProperty "people" ["int", "string"]

/-- A town with docks; not all of its mayors have names. -/
def port : ClassDeclaration Empty :=
  ((((ClassDeclaration.named "Port").extending "Town").withProperty "docks" ["int"]).withDefault
    "mayor" .null).implementing "Moored" |>.implementing "Named"

/-- A raft does not know of docks, and yet has a default for them. -/
def raft : ClassDeclaration Empty :=
  (ClassDeclaration.named "Raft").withDefault "docks" (.int 0)

/-- A boat that declares what the raft does not. -/
def boat : ClassDeclaration Empty :=
  ((ClassDeclaration.named "Boat").extending "Raft").withProperty "docks" ["int"]

def harbour : Registry Empty :=
  ((((Registry.empty.register place).register town).register port).register raft).register boat

theorem harbour_plain : harbour.Plain where
  built := .register _ (.register _ (.register _ (.register _ (.register _ .empty))))
  declarations := by
    have hplace : place.Built := .implementing _ (.withDefault _ _ (.withProperty _ _
      (.withProperty _ _ (.named _))))
    have htown : town.Built :=
      .withProperty _ _ (.withProperty _ _ (.extending _ (.named _)))
    have hport : port.Built := .implementing _ (.implementing _ (.withDefault _ _
      (.withProperty _ _ (.extending _ (.named _)))))
    have hraft : raft.Built := .withDefault _ _ (.named _)
    have hboat : boat.Built := .withProperty _ _ (.extending _ (.named _))
    have hall : ∀ d ∈ [place, town, port, raft, boat], d.Built := by
      simp only [List.forall_mem_cons]
      exact ⟨hplace, htown, hport, hraft, hboat, nofun⟩
    exact fun entry he => hall _ (List.mem_map_of_mem (f := Prod.snd) he)
  names := by
    unfold Registry.All
    decide +kernel
  parents := by
    unfold Registry.All
    decide +kernel

theorem port_inherits :
    (∃ m line, Metadata.resolve nofun harbour [] 0 "\\Port" = .ok m ∧
      Ancestry.Line harbour m.name line ∧ m.Inherits line ∧
        m.names = ["name", "people", "mayor", "docks"] ∧
        m.lineage = ["Town", "Place", "Moored", "Named"]) ∧
    ∃ error, Metadata.resolve nofun harbour [] 0 "Boat" = .error error ∧
      Flattened.BlamesUndeclared [boat, raft] error := by
  have hport : normalName (normalName "\\Port") = normalName "\\Port" := by decide +kernel
  have hboat : normalName (normalName "Boat") = normalName "Boat" := by decide +kernel
  constructor
  · obtain ⟨line, hline, -, hinherits, -⟩ :=
      (Metadata.inheritance harbour_plain hport nofun [] 0).1 _ rfl
    exact ⟨_, line, rfl, hline, hinherits, rfl, rfl⟩
  · have hundeclared : ¬ ClassDeclaration.Declared [raft] "docks" := by
      rintro ⟨declaration, hd, hname⟩
      rw [List.mem_singleton.mp hd] at hname
      cases hname
    exact (Metadata.inheritance harbour_plain hboat nofun [] 0).2
      [boat, raft] (.child rfl rfl (.root rfl rfl)) raft [] (List.suffix_cons _ _) "docks"
      (.inl List.mem_cons_self) hundeclared

end Atlas

end TypedRecords
