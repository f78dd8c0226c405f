import TypedRecords.Proofs.Equality
import TypedRecords.Proofs.JsonForms
import TypedRecords.Value.Conversion

/-!
# To JSON and back

JSON sorts the entries of its objects, values keep theirs in order; but two values are equal whatever
the order of their entries.  So nothing is lost on the way from plain values to JSON and back, and
nothing on the way from JSON to values and back, as long as its whole numbers fit in 64 bits with a
sign.

* `Json.sortEntries_perm`, `Json.sorted_sortEntries`, `Json.sortEntries_of_sorted`: sorting by key.
* `Json.IsRegular`: the JSON that values become.
* `Value.json_roundTrip`: **to JSON and back, both ways.**
-/

namespace TypedRecords

/-! ## Sorting by key -/

namespace Json

variable {α : Type} {key : String} {value : α} {entries : List (String × α)}

/-- Every key comes before the ones after it. -/
def Sorted (entries : List (String × α)) : Prop :=
  entries.Pairwise fun entry later => entry.1 < later.1

theorem Sorted.distinct (h : Sorted entries) : Table.Distinct entries := by
  refine List.Pairwise.map Prod.fst (fun entry later hlt heq => ?_) h
  exact String.lt_irrefl later.1 (heq ▸ hlt)

theorem mem_putSorted {entry : String × α} (h : entry ∈ putSorted key value entries) :
    entry.1 = key ∨ entry ∈ entries := by
  induction entries with
  | nil => exact .inl (congrArg Prod.fst (List.mem_singleton.mp h))
  | cons first rest ih =>
    obtain ⟨k, v⟩ := first
    unfold putSorted at h
    split at h
    · exact (List.mem_cons.mp h).imp_left (congrArg Prod.fst)
    · split at h
      · next hk =>
        subst hk
        exact (List.mem_cons.mp h).imp (congrArg Prod.fst) (List.mem_cons_of_mem _)
      · rcases List.mem_cons.mp h with rfl | h
        · exact .inr List.mem_cons_self
        · exact (ih h).imp_right (List.mem_cons_of_mem _)

/-- **Writing a value keeps an object sorted.** -/
theorem sorted_putSorted (h : Sorted entries) (key : String) (value : α) :
    Sorted (putSorted key value entries) := by
  induction entries with
  | nil => exact List.pairwise_singleton _ _
  | cons first rest ih =>
    obtain ⟨k, v⟩ := first
    obtain ⟨hfirst, hrest⟩ := List.pairwise_cons.mp h
    unfold putSorted
    split
    · next hlt =>
      refine List.pairwise_cons.mpr ⟨fun later hl => ?_, h⟩
      rcases List.mem_cons.mp hl with rfl | hl
      · exact hlt
      · exact String.lt_trans hlt (hfirst later hl)
    · next hnot =>
      split
      · exact List.pairwise_cons.mpr ⟨hfirst, hrest⟩
      · next hne =>
        have hlt : k < key := Std.lt_of_le_of_ne (String.not_lt.mp hnot) (Ne.symm hne)
        refine List.pairwise_cons.mpr ⟨fun later hl => ?_, ih hrest⟩
        rcases mem_putSorted hl with heq | hl
        · rw [heq]
          exact hlt
        · exact hfirst later hl

theorem putSorted_perm (h : key ∉ Table.keys entries) (value : α) :
    (putSorted key value entries).Perm ((key, value) :: entries) := by
  induction entries with
  | nil => exact .refl _
  | cons first rest ih =>
    obtain ⟨k, v⟩ := first
    obtain ⟨hne, hrest⟩ := List.ne_and_not_mem_of_not_mem_cons h
    unfold putSorted
    rw [if_neg hne]
    split
    · exact .refl _
    · exact ((ih hrest).cons _).trans (.swap _ _ _)

theorem sorted_sortEntries (entries : List (String × α)) : Sorted (sortEntries entries) := by
  have hfold : ∀ sorted : List (String × α), Sorted sorted →
      Sorted (entries.foldl (fun sorted entry => putSorted entry.1 entry.2 sorted) sorted) := by
    induction entries with
    | nil => exact fun _ h => h
    | cons entry rest ih => exact fun sorted h => ih _ (sorted_putSorted h entry.1 entry.2)
  exact hfold [] .nil

/-- **Sorting loses no entry**, if no key is there twice. -/
theorem sortEntries_perm (h : Table.Distinct entries) : (sortEntries entries).Perm entries := by
  have hfold : ∀ sorted : List (String × α), Table.Distinct (sorted ++ entries) →
      (entries.foldl (fun sorted entry => putSorted entry.1 entry.2 sorted) sorted).Perm
        (sorted ++ entries) := by
    clear h
    induction entries with
    | nil => exact fun sorted _ => (List.append_nil sorted).symm ▸ .refl _
    | cons entry rest ih =>
      intro sorted hd
      have hfresh : entry.1 ∉ Table.keys sorted := by
        intro hmem
        unfold Table.Distinct Table.keys at hd
        rw [List.map_append, List.nodup_append] at hd
        exact hd.2.2 _ hmem _ List.mem_cons_self rfl
      have hstep : (putSorted entry.1 entry.2 sorted ++ rest).Perm (sorted ++ entry :: rest) :=
        ((putSorted_perm hfresh entry.2).append_right rest).trans List.perm_middle.symm
      exact (ih _ ((hstep.map Prod.fst).nodup_iff.mpr hd)).trans hstep
  exact hfold [] h

theorem sortEntries_of_sorted (h : Sorted entries) : sortEntries entries = entries := by
  refine List.Perm.eq_of_pairwise (fun entry other _ _ hlt hgt => ?_) (sorted_sortEntries entries) h
    (sortEntries_perm h.distinct)
  exact absurd hgt (String.lt_asymm hlt)

end Json

variable {κ : Type}

namespace Value

/-! ## Values of JSON -/

theorem ofJsonItems_eq (items : List Json) :
    (ofJsonItems items : List (Value κ)) = items.map ofJson := by
  induction items with
  | nil => rfl
  | cons item rest ih => rw [ofJsonItems, ih, List.map_cons]

theorem ofJsonEntries_eq (entries : List (String × Json)) :
    (ofJsonEntries entries : List (String × Value κ)) =
      entries.map fun entry => (entry.1, ofJson entry.2) := by
  induction entries with
  | nil => rfl
  | cons entry rest ih => rw [ofJsonEntries, ih, List.map_cons]

end Value

/-- The JSON that values become: whole numbers of 64 bits with a sign, other numbers finite, objects
sorted by key without repetition. -/
inductive Json.IsRegular : Json → Prop
  | null : IsRegular .null
  | bool {b : Bool} : IsRegular (.bool b)
  | signed {n : Int64} : IsRegular (.number (.signed n))
  | double {x : Double} : x.isFinite = true → IsRegular (.number (.double x))
  | string {s : String} : IsRegular (.string s)
  | array {items : List Json} : (∀ item ∈ items, IsRegular item) → IsRegular (.array items)
  | object {entries : List (String × Json)} : Json.Sorted entries →
      (∀ entry ∈ entries, IsRegular entry.2) → IsRegular (.object entries)

namespace Value

variable {casting : Casting κ} {v : Value κ} {j : Json}

theorem clear_list_iff {items : List (Value κ)} :
    (Value.list items).Clear nonFinite? ↔ ∀ item ∈ items, item.Clear nonFinite? := by
  refine throughout_iff.trans ((and_iff_right rfl).trans ?_)
  rw [parts, List.forall_mem_map]
  constructor
  · intro h item hi
    obtain ⟨index, hindex⟩ := List.mem_iff_getElem?.mp hi
    exact h (item, index) (List.mk_mem_zipIdx_iff_getElem?.mpr hindex)
  · exact fun h entry he => h _ (List.fst_mem_of_mem_zipIdx he)

theorem clear_map_iff {entries : List (String × Value κ)} :
    (Value.map entries).Clear nonFinite? ↔ ∀ entry ∈ entries, entry.2.Clear nonFinite? := by
  refine throughout_iff.trans ((and_iff_right rfl).trans ?_)
  rw [parts, List.forall_mem_map]
  exact Iff.rfl

theorem clear_of_parts (hp : v.parts = []) (hf : v.nonFinite? = none) : v.Clear nonFinite? :=
  throughout_iff.mpr ⟨hf, by rw [hp]; nofun⟩

theorem clear_nonFinite?_iff : v.Clear nonFinite? ↔
    ∀ path x, Reaches path v (.float x) → x.isFinite = true := by
  have hfloat : ∀ x : Double, (Value.float x : Value κ).nonFinite? = none ↔ x.isFinite = true := by
    intro x
    unfold nonFinite?
    dsimp only
    split
    · next hx => exact iff_of_true rfl hx
    · next hx => exact iff_of_false nofun hx
  refine ⟨fun h path x hx => (hfloat x).mp (h path _ hx), fun h path w hw => ?_⟩
  cases w with
  | float x => exact (hfloat x).mpr (h path x hw)
  | _ => rfl

/-! ## From values -/

theorem sortEntries_jsonEntries_perm {entries : List (String × Value κ)}
    (hd : Table.Distinct entries) : (Json.sortEntries (jsonEntries entries)).Perm
      (entries.map fun entry => (entry.1, entry.2.json)) := by
  rw [jsonEntries_eq]
  refine Json.sortEntries_perm ?_
  unfold Table.Distinct Table.keys
  rw [List.map_map]
  exact hd

theorem isRegular_json (hv : v.IsPlain) (hd : v.KeysDistinct) (hc : v.Clear nonFinite?) :
    v.json.IsRegular := by
  induction hv with
  | null => exact .null
  | bool => exact .bool
  | int => exact .signed
  | float => exact .double (clear_nonFinite?_iff.mp hc [] _ .here)
  | text => exact .string
  | @list items _ ih =>
    rw [json, jsonItems_eq]
    refine .array (List.forall_mem_map.mpr fun item hi => ?_)
    exact ih item hi (keysDistinct_list_iff.mp hd item hi) (clear_list_iff.mp hc item hi)
  | @map entries _ ih =>
    obtain ⟨hkeys, hvalues⟩ := keysDistinct_map_iff.mp hd
    rw [json]
    refine .object (Json.sorted_sortEntries _) fun entry he => ?_
    obtain ⟨origin, ho, rfl⟩ :=
      List.mem_map.mp ((sortEntries_jsonEntries_perm hkeys).mem_iff.mp he)
    exact ih origin ho (hvalues origin ho) (clear_map_iff.mp hc origin ho)

/-- **A plain value that becomes JSON and is read again is equal to itself.** -/
theorem equal_ofJson_json (hv : v.IsPlain) (hd : v.KeysDistinct) (hc : v.Clear nonFinite?) :
    (ofJson v.json).equal v = true := by
  induction hv with
  | @float x =>
    have hnumber : x.isNaN = false := by
      have hfinite := clear_nonFinite?_iff.mp hc [] x .here
      simp only [Double.isFinite, Double.isNaN, decide_eq_true_eq, decide_eq_false_iff_not] at *
      omega
    rw [json, ofJson, ofNumber, equal, Double.ieeeEq_self, hnumber]
    rfl
  | @list items _ ih =>
    rw [json, jsonItems_eq, ofJson, ofJsonItems_eq, List.map_map, equal, equalItems_iff,
      List.forall₂_map_left_iff, List.forall₂_same]
    exact fun item hi =>
      ih item hi (keysDistinct_list_iff.mp hd item hi) (clear_list_iff.mp hc item hi)
  | @map entries _ ih =>
    obtain ⟨hkeys, hvalues⟩ := keysDistinct_map_iff.mp hd
    have hperm := sortEntries_jsonEntries_perm hkeys
    rw [json, ofJson, ofJsonEntries_eq, equal, Bool.and_eq_true, equalEntries_iff]
    constructor
    · rw [List.length_map, hperm.length_eq, List.length_map]
      exact beq_self_eq_true _
    · -- an entry stands where sorting has put it, and is looked up by its key
      refine List.forall_mem_map.mpr fun sorted hs => ?_
      obtain ⟨entry, he, rfl⟩ := List.mem_map.mp (hperm.mem_iff.mp hs)
      exact ⟨entry.2, Table.get?_of_mem hkeys he,
        ih entry he (hvalues entry he) (clear_map_iff.mp hc entry he)⟩
  | _ => simp [json, ofJson, ofNumber, equal]

/-! ## From JSON -/

theorem isPlain_ofJson (hj : j.IsRegular) : (ofJson j : Value κ).IsPlain := by
  induction hj with
  | array _ ih =>
    rw [ofJson, ofJsonItems_eq]
    exact .list (List.forall_mem_map.mpr ih)
  | object _ _ ih =>
    rw [ofJson, ofJsonEntries_eq]
    exact .map (List.forall_mem_map.mpr ih)
  | _ => constructor

theorem clear_ofJson (hj : j.IsRegular) : (ofJson j : Value κ).Clear nonFinite? := by
  induction hj with
  | array _ ih =>
    rw [ofJson, ofJsonItems_eq]
    exact clear_list_iff.mpr (List.forall_mem_map.mpr ih)
  | object _ _ ih =>
    rw [ofJson, ofJsonEntries_eq]
    exact clear_map_iff.mpr (List.forall_mem_map.mpr ih)
  | double hx => exact clear_of_parts rfl (if_pos hx)
  | _ => exact clear_of_parts rfl rfl

/-- **JSON that becomes a value and is written again is the same.** -/
theorem json_ofJson (hj : j.IsRegular) : (ofJson j : Value κ).json = j := by
  induction hj with
  | @array items _ ih =>
    rw [ofJson, ofJsonItems_eq, json, jsonItems_eq, List.map_map]
    exact congrArg Json.array ((List.map_congr_left ih).trans (List.map_id items))
  | @object entries hsorted _ ih =>
    have hentries : (entries.map fun entry => (entry.1, (ofJson entry.2 : Value κ).json)) = entries :=
      (List.map_congr_left fun entry he => by rw [ih entry he]; rfl).trans (List.map_id entries)
    rw [ofJson, ofJsonEntries_eq, json, jsonEntries_eq, List.map_map]
    refine congrArg Json.object (Eq.trans (congrArg _ ?_) (Json.sortEntries_of_sorted hsorted))
    exact hentries
  | _ => rfl

/-- **To JSON and back.**  A plain value whose numbers are finite and whose maps hold no key twice
becomes regular JSON, which becomes a value that is equal to it.  Regular JSON becomes a value that
becomes the same JSON. -/
theorem json_roundTrip (casting : Casting κ) :
    (∀ v : Value κ, v.IsPlain → v.KeysDistinct →
      (∀ path x, Reaches path v (.float x) → x.isFinite = true) →
        ∃ j, v.toJson casting = .ok j ∧ j.IsRegular ∧ (ofJson j).equal v = true) ∧
    ∀ j : Json, j.IsRegular → (ofJson j).toJson casting = .ok j := by
  constructor
  · intro v hv hd hfinite
    have hc := clear_nonFinite?_iff.mpr hfinite
    exact ⟨v.json, toJson_eq_ok hv hc, isRegular_json hv hd hc, equal_ofJson_json hv hd hc⟩
  · intro j hj
    rw [toJson_eq_ok (isPlain_ofJson hj) (clear_ofJson hj), json_ofJson hj]

end Value

namespace Atlas

/-- What is known about a city, in no order. -/
def survey : Value Empty :=
  .map [("people", .list [.int 2102650, .null]), ("density", .float ⟨0x40D3D80000000000⟩)]

theorem survey_roundTrip : ∃ j, survey.toJson nofun = .ok j ∧
    (Value.ofJson j : Value Empty).equal survey = true ∧
      (Value.ofJson j : Value Empty).toJson nofun = .ok j := by
  have hplain : survey.IsPlain :=
    .map (List.forall_mem_cons.mpr ⟨.list (by simp [Value.IsPlain.int, Value.IsPlain.null]),
      List.forall_mem_singleton.mpr .float⟩)
  have hnull : (Value.null : Value Empty).KeysDistinct := by
    intro path entries hl
    cases hl
  have hdistinct : survey.KeysDistinct := by
    have hint : (Value.int 2102650 : Value Empty).KeysDistinct := Value.keysDistinct_of_isScalar rfl
    have hfloat : ∀ x : Double, (Value.float x : Value Empty).KeysDistinct :=
      fun _ => Value.keysDistinct_of_isScalar rfl
    simp [survey, Table.Distinct, Table.keys, hint, hfloat, hnull]
  have hfinite : survey.Clear Value.nonFinite? := by
    refine Value.clear_map_iff.mpr (List.forall_mem_cons.mpr
      ⟨Value.clear_list_iff.mpr ?_, List.forall_mem_singleton.mpr (Value.clear_of_parts rfl rfl)⟩)
    exact List.forall_mem_cons.mpr ⟨Value.clear_of_parts rfl rfl,
      List.forall_mem_singleton.mpr (Value.clear_of_parts rfl rfl)⟩
  obtain ⟨hthere, hback⟩ := Value.json_roundTrip (nofun : Casting Empty)
  obtain ⟨j, hj, hregular, hequal⟩ :=
    hthere survey hplain hdistinct (Value.clear_nonFinite?_iff.mp hfinite)
  exact ⟨j, hj, hequal, hback j hregular⟩

end Atlas

end TypedRecords
