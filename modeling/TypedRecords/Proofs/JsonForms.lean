import TypedRecords.Proofs.Expansion
import TypedRecords.Value.JsonForm

/-!
# JSON of values

A value becomes JSON by way of its plain data.  On the way every part is made plain once more, level
by level, which changes nothing: what comes of it is the JSON of the data, or the first number in it
that has none.

* `Value.json`: the JSON of plain data.
* `Value.jsonWithin_eq_toJson`: **the depth to which data is looked at suffices.**
* `Value.goesThrough_toJson`: making JSON goes through plain data, and is barred by numbers that are
  not finite.
* `Value.expansion`: **plain data and JSON of a value.**
-/

namespace TypedRecords

variable {κ : Type}

namespace Value

/-! ## The JSON of plain data -/

mutual

/-- The JSON of plain data; there is none of anything else. -/
def json : Value κ → Json
  | .null => .null
  | .bool b => .bool b
  | .int n => .number (.signed n)
  | .float x => .number (.double x)
  | .text s => .string s
  | .list items => .array (jsonItems items)
  | .map entries => .object (Json.sortEntries (jsonEntries entries))
  | .record .. | .object .. => .null

def jsonItems : List (Value κ) → List Json
  | [] => []
  | item :: rest => item.json :: jsonItems rest

def jsonEntries : List (String × Value κ) → List (String × Json)
  | [] => []
  | (key, value) :: rest => (key, value.json) :: jsonEntries rest

end

theorem jsonItems_eq (items : List (Value κ)) : jsonItems items = items.map json := by
  induction items with
  | nil => rfl
  | cons item rest ih => rw [jsonItems, ih, List.map_cons]

theorem jsonEntries_eq (entries : List (String × Value κ)) :
    jsonEntries entries = entries.map fun entry => (entry.1, entry.2.json) := by
  induction entries with
  | nil => rfl
  | cons entry rest ih => rw [jsonEntries, ih, List.map_cons]

/-- A number that is not finite; its text is told. -/
def nonFinite? : Bar κ
  | .float x => if x.isFinite then none else some ("float " ++ x.text)
  | _ => none

variable {casting : Casting κ} {v : Value κ} {depth : Nat}

theorem IsPlain.part (h : v.IsPlain) {part : Step × Value κ} (hp : part ∈ v.parts) :
    part.2.IsPlain := by
  cases h with
  | list h =>
    obtain ⟨entry, he, rfl⟩ := List.mem_map.mp hp
    exact h _ (List.fst_mem_of_mem_zipIdx he)
  | map h =>
    obtain ⟨entry, he, rfl⟩ := List.mem_map.mp hp
    exact h entry he
  | _ => cases hp

/-! ## Depth -/

theorem height_le_heightItems {items : List (Value κ)} {item : Value κ} (h : item ∈ items) :
    item.height ≤ heightItems items := by
  induction items with
  | nil => cases h
  | cons first rest ih =>
    rw [heightItems]
    rcases List.mem_cons.mp h with rfl | h
    · exact Nat.le_max_left _ _
    · exact (ih h).trans (Nat.le_max_right _ _)

theorem height_le_heightEntries {entries : List (String × Value κ)} {entry : String × Value κ}
    (h : entry ∈ entries) : entry.2.height ≤ heightEntries entries := by
  induction entries with
  | nil => cases h
  | cons first rest ih =>
    obtain ⟨key, value⟩ := first
    rw [heightEntries]
    rcases List.mem_cons.mp h with rfl | h
    · exact Nat.le_max_left _ _
    · exact (ih h).trans (Nat.le_max_right _ _)

theorem height_lt_of_mem_parts (hv : v.IsPlain) {part : Step × Value κ} (hp : part ∈ v.parts) :
    part.2.height < v.height := by
  cases hv with
  | list h =>
    obtain ⟨entry, he, rfl⟩ := List.mem_map.mp hp
    have hitem := height_le_heightItems (List.fst_mem_of_mem_zipIdx he)
    rw [height]
    exact Nat.lt_succ_of_le hitem
  | map h =>
    obtain ⟨entry, he, rfl⟩ := List.mem_map.mp hp
    have hentry := height_le_heightEntries he
    rw [height]
    exact Nat.lt_succ_of_le hentry
  | _ => cases hp

theorem height_pos (hv : v.IsPlain) : 0 < v.height := by
  cases hv <;> simp [height]

/-- The JSON of a value, given that of its parts. -/
def assembledJson : Value κ → List (String × Json) → Json
  | .list _, results => .array (results.map Prod.snd)
  | .map _, results => .object (Json.sortEntries results)
  | v, _ => v.json

theorem jsonWithin_of_nonFinite? (hv : v.IsPlain) {name : String} (h : v.nonFinite? = some name) :
    jsonWithin casting (depth + 1) v = .error (.unserializable "" name) := by
  cases hv with
  | @float x =>
    unfold nonFinite? at h
    dsimp only at h
    split at h
    · cases h
    · next hx =>
      cases h
      rw [jsonWithin]
      exact if_neg hx
  | _ => cases h

theorem jsonWithin_succ (hv : v.IsPlain) (h : v.nonFinite? = none) :
    jsonWithin casting (depth + 1) v =
      v.assembledJson <$> v.labelled (jsonWithin casting depth) := by
  -- to make a part plain once more changes nothing
  have hpart : ∀ (u : Value κ) (label : String), u.IsPlain →
      (do jsonWithin casting depth (← u.plain casting false)).mapError (Error.prefixed label) =
        (jsonWithin casting depth u).mapError (Error.prefixed label) := by
    intro u label hu
    rw [plain_of_isPlain hu]
    rfl
  cases hv with
  | @list items hitems =>
    rw [jsonWithin, except_bind_ok, mapM_congr fun entry he =>
        hpart entry.1 (toString entry.2) (hitems _ (List.fst_mem_of_mem_zipIdx he)),
      ← mapM_labelled fun entry => toString entry.2, labelled, parts, List.mapM_map, ← comp_map]
    rfl
  | @map entries hentries =>
    rw [jsonWithin, except_bind_ok, labelled, parts, List.mapM_map]
    refine congrArg _ (mapM_congr fun entry he => ?_)
    obtain ⟨key, value⟩ := entry
    exact (except_bind_ok _ (Prod.mk key)).trans
      (congrArg _ (hpart value key (hentries (key, value) he)))
  | @float x =>
    unfold nonFinite? at h
    dsimp only at h
    split at h
    · next hx =>
      rw [jsonWithin, if_pos hx]
      rfl
    · cases h
  | _ => rw [jsonWithin]; rfl

theorem toJson_of_isPlain (hv : v.IsPlain) :
    v.toJson casting = jsonWithin casting v.height v := by
  unfold toJson
  rw [plain_of_isPlain hv]
  rfl

theorem labelled_congr {β : Type} {f g : Value κ → Except Error β}
    (h : ∀ part ∈ v.parts, f part.2 = g part.2) : v.labelled f = v.labelled g :=
  mapM_congr fun part hp => by rw [h part hp]

/-- **The depth to which data is looked at suffices.** -/
theorem jsonWithin_eq_toJson (hv : v.IsPlain) (h : v.height ≤ depth) :
    jsonWithin casting depth v = v.toJson casting := by
  rw [toJson_of_isPlain hv]
  induction v using parts_induction generalizing depth with
  | h v ih =>
    obtain ⟨height, hheight⟩ := Nat.exists_eq_add_one_of_ne_zero (height_pos hv).ne'
    obtain ⟨depth, rfl⟩ := Nat.exists_eq_add_one_of_ne_zero (n := depth) (by omega)
    rw [hheight]
    cases hfinite : v.nonFinite? with
    | some name =>
      rw [jsonWithin_of_nonFinite? hv hfinite, jsonWithin_of_nonFinite? hv hfinite]
    | none =>
      rw [jsonWithin_succ hv hfinite, jsonWithin_succ hv hfinite]
      refine congrArg _ (labelled_congr fun part hp => ?_)
      have hpart := height_lt_of_mem_parts hv hp
      rw [ih part hp (hv.part hp) (by omega : part.2.height ≤ depth),
        ih part hp (hv.part hp) (by omega : part.2.height ≤ height)]

theorem toJson_eq_assembledJson (hv : v.IsPlain) (h : v.nonFinite? = none) :
    v.toJson casting = v.assembledJson <$> v.labelled fun u => u.toJson casting := by
  obtain ⟨height, hheight⟩ := Nat.exists_eq_add_one_of_ne_zero (height_pos hv).ne'
  rw [toJson_of_isPlain hv, hheight, jsonWithin_succ hv h]
  refine congrArg _ (labelled_congr fun part hp => ?_)
  have hpart := height_lt_of_mem_parts hv hp
  exact jsonWithin_eq_toJson (hv.part hp) (by omega)

theorem goesThrough_toJson (casting : Casting κ) :
    GoesThrough IsPlain nonFinite? fun v : Value κ => v.toJson casting where
  parts := fun v hv part hp => hv.part hp
  barred := by
    intro v name hv hbar
    obtain ⟨height, hheight⟩ := Nat.exists_eq_add_one_of_ne_zero (height_pos hv).ne'
    rw [toJson_of_isPlain hv, hheight, jsonWithin_of_nonFinite? hv hbar]
  passed := fun v hv hbar => ⟨v.assembledJson, toJson_eq_assembledJson hv hbar⟩

theorem assembledJson_parts (hv : v.IsPlain) :
    v.assembledJson (v.parts.map fun part => (part.1.text, part.2.json)) = v.json := by
  cases hv with
  | @list items _ =>
    rw [json, jsonItems_eq, assembledJson, parts, List.map_map, List.map_map]
    refine congrArg Json.array ?_
    conv_rhs => rw [← List.zipIdx_map_fst 0 items, List.map_map]
    rfl
  | @map entries _ =>
    rw [json, jsonEntries_eq, assembledJson, parts, List.map_map]
    rfl
  | _ => rfl

/-- **Plain data with finite numbers becomes JSON.** -/
theorem toJson_eq_ok (hv : v.IsPlain) (hc : v.Clear nonFinite?) :
    v.toJson casting = .ok v.json := by
  induction v using parts_induction with
  | h v ih =>
    obtain ⟨hfinite, hparts⟩ := throughout_iff.mp hc
    have hlabelled : v.labelled (fun u => u.toJson casting) =
        .ok (v.parts.map fun part => (part.1.text, part.2.json)) := by
      refine mapM_eq_ok_of_forall fun part hp => ?_
      dsimp only
      rw [ih part hp (hv.part hp) (hparts part hp)]
      rfl
    rw [toJson_eq_assembledJson hv hfinite, hlabelled, ← assembledJson_parts hv]
    rfl

end Value

theorem Instance.toJson_eq {casting : Casting κ} {origin : Origin} {record : Instance κ}
    (h : (Value.record origin record).Ordinary) :
    record.toJson casting = (Value.record origin record).toJson casting := by
  unfold Instance.toJson
  cases hdata : record.data casting false with
  | error error =>
    unfold Value.toJson
    rw [Value.plain, hdata]
    rfl
  | ok data =>
    have hplain : (Value.record origin record).plain casting false = .ok (.map data) := by
      rw [Value.plain, hdata]
      rfl
    change (Value.map data).toJson casting = _
    unfold Value.toJson
    rw [hplain, Value.plain_of_isPlain (Value.isPlain_of_plain h hplain)]

/-- **Plain data and JSON of a value.**  A value becomes plain data iff no object without a data form
is reached; the data is plain indeed, and its own data.  If there is such an object, the error tells
the first one and the path to it, also when JSON is asked for.  Otherwise the JSON is that of the
data, unless there is a number in the data that is not finite: then the error tells the first one and
the path to it. -/
theorem Value.expansion (casting : Casting κ) (v : Value κ) (hv : v.Ordinary) :
    ((∃ data, v.plain casting false = .ok data) ↔
      ∀ path w, Reaches path v w → w.formless? = none) ∧
    (∀ error, v.plain casting false = .error error ↔
      ∃ path typeName, FirstBar formless? path v typeName ∧
        error = .unserializable (Step.render path) typeName) ∧
    (∀ error, v.plain casting false = .error error → v.toJson casting = .error error) ∧
    (∀ data, v.plain casting false = .ok data →
      data.IsPlain ∧ (∀ withDefaults, data.plain casting withDefaults = .ok data) ∧
      ((∀ path w, Reaches path data w → w.nonFinite? = none) →
        v.toJson casting = .ok data.json) ∧
      ∀ error, v.toJson casting = .error error ↔
        ∃ path name, FirstBar nonFinite? path data name ∧
          error = .unserializable (Step.render path) name) ∧
    ∀ origin record, v = .record origin record → record.toJson casting = v.toJson casting := by
  have hthrough := goesThrough_plain casting
  refine ⟨hthrough.eq_ok_iff hv, fun error => hthrough.eq_error_iff hv, fun error herror => ?_,
    fun data hdata => ?_, fun origin record hrecord => ?_⟩
  · unfold toJson
    rw [herror]
    rfl
  · have hplain := isPlain_of_plain hv hdata
    -- the data is its own data, so its JSON is that of the value
    have hjson : v.toJson casting = data.toJson casting := by
      rw [toJson_of_isPlain hplain, toJson, hdata]
      rfl
    refine ⟨hplain, fun withDefaults => plain_of_isPlain hplain, fun hclear => ?_,
      fun error => ?_⟩
    · rw [hjson]
      exact toJson_eq_ok hplain hclear
    · rw [hjson]
      exact (goesThrough_toJson casting).eq_error_iff hplain
  · subst hrecord
    exact Instance.toJson_eq hv

namespace Atlas

/-- An album, whose only property holds a number and an object. -/
def album (o : Object Empty) : Value Empty :=
  .record (.given 0)
    { metadata :=
        { key := "Album", generation := 0, name := "Album", lineage := []
          properties := [⟨"Album", "stamps", ⟨[.keyword .mixed], []⟩, [], [], none⟩] }
      stored := [("stamps", .list [.int 1, .object (.given 1) o])]
      tracked := []
      flags := .none }

theorem ordinary_album {o : Object Empty} (hu : (Value.object (.given 1) o).IsUsual)
    (hparts : (Value.object (.given 1) o).parts = []) : (album o).Ordinary := by
  have hobject : (Value.object (.given 1) o).Ordinary :=
    Value.throughout_iff.mpr ⟨hu, by rw [hparts]; nofun⟩
  have hint : (Value.int 1 : Value Empty).Ordinary := Value.throughout_iff.mpr ⟨trivial, nofun⟩
  refine Value.throughout_iff.mpr ⟨?_, List.forall_mem_singleton.mpr ?_⟩
  · exact List.forall_mem_singleton.mpr ⟨nofun, nofun⟩
  · exact Value.throughout_iff.mpr
      ⟨trivial, List.forall_mem_cons.mpr ⟨hint, List.forall_mem_singleton.mpr hobject⟩⟩

/-- A stamp without a data form, and one whose data form holds a number that is not finite. -/
theorem album_expanded :
    (album (.sealed "Stamp" .null)).plain nofun false = .error (.unserializable "stamps.1" "Stamp") ∧
      (album (.wrapper "Stamp" [] (some (.ok (.list [.float .nan]))) .null)).toJson nofun =
        .error (.unserializable "stamps.1.0" "float NaN") := by
  have hnumber : ∀ bar? : Value.Bar Empty, bar? (.int 1) = none → (Value.int 1).Clear bar? :=
    fun bar? h => Value.throughout_iff.mpr ⟨h, nofun⟩
  constructor
  · let stamp : Object Empty := .sealed "Stamp" .null
    have hstamps : (album stamp).parts[0]? =
        some (.property "stamps", .list [.int 1, .object (.given 1) stamp]) := rfl
    have hstamp : (Value.list [.int 1, .object (.given 1) stamp]).parts[1]? =
        some (.element 1, .object (.given 1) stamp) := rfl
    have hfirst : Value.FirstBar Value.formless? [.property "stamps", .element 1] (album stamp)
        "Stamp" :=
      .part rfl hstamps nofun
        (.part rfl hstamp (List.forall_mem_singleton.mpr (hnumber _ rfl)) (.here rfl))
    exact ((Value.expansion nofun _ (ordinary_album (o := stamp) trivial rfl)).2.1 _).mpr
      ⟨_, _, hfirst, congrArg (Error.unserializable · "Stamp") (by decide +kernel)⟩
  · let form : Value Empty := .list [.float .nan]
    let data : Value Empty := .map [("stamps", .list [.int 1, form])]
    have hform : form.IsPlain := .list (List.forall_mem_singleton.mpr .float)
    have hstamps : data.parts[0]? = some (.property "stamps", .list [.int 1, form]) := rfl
    have hstamp : (Value.list [.int 1, form]).parts[1]? = some (.element 1, form) := rfl
    have hnan : form.parts[0]? = some (.element 0, .float .nan) := rfl
    have hfirst : Value.FirstBar Value.nonFinite? [.property "stamps", .element 1, .element 0] data
        "float NaN" :=
      .part rfl hstamps nofun
        (.part rfl hstamp (List.forall_mem_singleton.mpr (hnumber _ rfl))
          (.part rfl hnan nofun (.here rfl)))
    obtain ⟨-, -, -, hdata, -⟩ := Value.expansion nofun _
      (ordinary_album (o := .wrapper "Stamp" [] (some (.ok form)) .null) ⟨form, rfl, hform⟩ rfl)
    exact ((hdata data rfl).2.2.2 _).mpr
      ⟨_, _, hfirst, congrArg (Error.unserializable · "float NaN") (by decide +kernel)⟩

end Atlas

end TypedRecords
