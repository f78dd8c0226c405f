import Mathlib.Data.List.Forall2
import Mathlib.Data.List.Nodup
import TypedRecords.Typing.UnionType

/-!
# Lists

What the other files need to know about lists that hold no item twice, and about going through a list
with steps that may fail.

* `foldl_addNew_eq_append`, `foldl_addNew_eq_eraseDups`: adding items one by one, each unless it is
  there already.
* `filter_mem_of_sublist`, `exists_first_not`: what a list has of a part of it, and its first item
  without a property.
* `forall₂_symm`, `forall₂_trans`: what the items of two lists have in common, one by one.
* `mapM_eq_ok_iff`, `foldlM_eq_ok_iff`, `foldlM_invariant`: lists of steps that succeed.
* `mapM_eq_error_iff`: a list of steps fails with the first of them that fails.
-/

namespace TypedRecords

/-! ## Lists without repetition -/

/-- Adding items one by one, each unless it is there, adds the first occurrence of each new one. -/
theorem foldl_addNew_eq_append {α : Type} [DecidableEq α] (seen rest : List α) :
    rest.foldl addNew seen = seen ++ (rest.filter (· ∉ seen)).eraseDups := by
  induction rest generalizing seen with
  | nil => simp
  | cons a rest ih =>
    rw [List.foldl_cons, ih]
    by_cases h : a ∈ seen
    · rw [addNew, if_pos h, List.filter_cons_of_neg (by simpa using h)]
    · have hnew : (fun b => decide (b ∉ seen ++ [a])) = fun b => !b == a && decide (b ∉ seen) := by
        funext b
        by_cases hb : b = a <;> simp [hb, h]
      rw [addNew, if_neg h, hnew, List.filter_cons_of_pos (by simpa using h), List.eraseDups_cons,
        List.filter_filter, List.append_assoc, List.singleton_append]

theorem foldl_addNew_eraseDups {α : Type} [DecidableEq α] (seen rest : List α) :
    rest.foldl addNew seen.eraseDups = (seen ++ rest).eraseDups := by
  rw [foldl_addNew_eq_append, List.eraseDups_append]
  simp [List.removeAll]

theorem foldl_addNew_eq_eraseDups {α : Type} [DecidableEq α] (items : List α) :
    items.foldl addNew [] = items.eraseDups := by
  simpa using foldl_addNew_eraseDups [] items

theorem mem_addNew {α : Type} [DecidableEq α] {items : List α} {item a : α}
    (h : a ∈ addNew items item) : a ∈ items ∨ a = item := by
  unfold addNew at h
  split at h
  · exact .inl h
  · exact (List.mem_append.mp h).imp_right List.mem_singleton.mp

theorem mem_addNew_self {α : Type} [DecidableEq α] (items : List α) (item : α) :
    item ∈ addNew items item := by
  unfold addNew
  split
  · assumption
  · exact List.mem_append_right items List.mem_cons_self

theorem nodup_addNew {α : Type} [DecidableEq α] {items : List α} (h : items.Nodup) (item : α) :
    (addNew items item).Nodup := by
  unfold addNew
  by_cases hm : item ∈ items
  · rw [if_pos hm]
    exact h
  · rw [if_neg hm]
    exact List.nodup_append.mpr ⟨h, List.nodup_singleton item,
      fun a ha b hb hab => hm (List.mem_singleton.mp hb ▸ hab ▸ ha)⟩

theorem nodup_eraseDups {α : Type} [DecidableEq α] (items : List α) : items.eraseDups.Nodup := by
  rw [← foldl_addNew_eq_eraseDups]
  have hfold : ∀ seen : List α, seen.Nodup → (items.foldl addNew seen).Nodup := by
    induction items with
    | nil => exact fun _ h => h
    | cons item rest ih => exact fun seen h => ih _ (nodup_addNew h item)
  exact hfold [] List.nodup_nil

theorem eraseDups_of_nodup {α : Type} [DecidableEq α] {items : List α} (h : items.Nodup) :
    items.eraseDups = items := by
  induction items with
  | nil => rfl
  | cons a rest ih =>
    obtain ⟨ha, hrest⟩ := List.nodup_cons.mp h
    have hfilter : rest.filter (fun b => !b == a) = rest :=
      List.filter_eq_self.mpr fun b hb => by simpa using fun hba : b = a => ha (hba ▸ hb)
    rw [List.eraseDups_cons, hfilter, ih hrest]

theorem addNew_map {α : Type} [DecidableEq α] {f : α → α} (hf : Function.Injective f)
    (items : List α) (item : α) : addNew (items.map f) (f item) = (addNew items item).map f := by
  have hmem : f item ∈ items.map f ↔ item ∈ items := List.mem_map_of_injective hf
  unfold addNew
  by_cases h : item ∈ items
  · rw [if_pos h, if_pos (hmem.mpr h)]
  · rw [if_neg h, if_neg (mt hmem.mp h), List.map_append, List.map_singleton]

/-- Items that are renamed, each to a name of its own, are new just if they were new before. -/
theorem foldl_addNew_map {α : Type} [DecidableEq α] {f : α → α} (hf : Function.Injective f)
    (seen items : List α) : (items.map f).foldl addNew (seen.map f) =
      (items.foldl addNew seen).map f := by
  induction items generalizing seen with
  | nil => rfl
  | cons item rest ih => rw [List.map_cons, List.foldl_cons, addNew_map hf, ih, List.foldl_cons]

/-- A part of a list without repetition is what the list has of it, in order. -/
theorem filter_mem_of_sublist {α : Type} [DecidableEq α] {items part : List α}
    (hn : items.Nodup) (h : part.Sublist items) : items.filter (· ∈ part) = part := by
  have hself : part.filter (· ∈ part) = part := List.filter_eq_self.mpr fun a ha => by simpa using ha
  have hsub : part.Sublist (items.filter (· ∈ part)) := by
    have hfilter := h.filter (p := (· ∈ part))
    rwa [hself] at hfilter
  have hperm : part.Perm (items.filter (· ∈ part)) := by
    refine (List.perm_ext_iff_of_nodup (hn.sublist h) (hn.filter _)).mpr fun a => ?_
    rw [List.mem_filter, decide_eq_true_iff]
    exact ⟨fun ha => ⟨h.subset ha, ha⟩, And.right⟩
  exact (hsub.eq_of_length hperm.length_eq).symm

theorem eraseDups_eq_nil_iff {α : Type} [DecidableEq α] {items : List α} :
    items.eraseDups = [] ↔ items = [] := by
  cases items with
  | nil => simp
  | cons a rest => simp [List.eraseDups_cons]

theorem exists_first_not {α : Type} {P : α → Prop} {items : List α}
    (h : ¬∀ item ∈ items, P item) : ∃ index item, items[index]? = some item ∧ ¬P item ∧
      ∀ earlier ∈ items.take index, P earlier := by
  induction items with
  | nil => exact absurd nofun h
  | cons first rest ih =>
    by_cases hfirst : P first
    · rw [List.forall_mem_cons, and_iff_right hfirst] at h
      obtain ⟨index, item, hitem, hnot, hearlier⟩ := ih h
      exact ⟨index + 1, item, hitem, hnot, List.forall_mem_cons.mpr ⟨hfirst, hearlier⟩⟩
    · exact ⟨0, first, rfl, hfirst, nofun⟩

/-! ## Lists item by item -/

theorem sizeOf_snd_lt_of_mem {α β : Type} [SizeOf α] [SizeOf β] {entries : List (α × β)}
    {entry : α × β} (h : entry ∈ entries) : sizeOf entry.2 < sizeOf entries := by
  obtain ⟨a, b⟩ := entry
  have hentry := List.sizeOf_lt_of_mem h
  rw [Prod.mk.sizeOf_spec] at hentry
  change sizeOf b < sizeOf entries
  omega

section Pairs

variable {α : Type} {R : α → α → Prop} {items others : List α}

theorem forall₂_symm (h : List.Forall₂ R items others)
    (hsymm : ∀ a ∈ items, ∀ b ∈ others, R a b → R b a) : List.Forall₂ R others items := by
  induction h with
  | nil => exact .nil
  | cons hab _ ih =>
    exact .cons (hsymm _ List.mem_cons_self _ List.mem_cons_self hab) (ih fun a ha b hb =>
      hsymm a (List.mem_cons_of_mem _ ha) b (List.mem_cons_of_mem _ hb))

theorem forall₂_trans {thirds : List α} (h : List.Forall₂ R items others)
    (h' : List.Forall₂ R others thirds)
    (htrans : ∀ a ∈ items, ∀ b ∈ others, ∀ c ∈ thirds, R a b → R b c → R a c) :
    List.Forall₂ R items thirds := by
  induction h generalizing thirds with
  | nil => exact h'
  | cons hab _ ih =>
    cases h' with
    | cons hbc h' =>
      refine .cons (htrans _ List.mem_cons_self _ List.mem_cons_self _ List.mem_cons_self hab hbc)
        (ih h' fun a ha b hb c hc => ?_)
      exact htrans a (List.mem_cons_of_mem _ ha) b (List.mem_cons_of_mem _ hb) c
        (List.mem_cons_of_mem _ hc)

end Pairs

/-! ## Steps that may fail -/

section Steps

variable {α β σ ε δ : Type}

theorem except_bind_eq_ok {x : Except ε α} {f : α → Except ε β} {b : β} :
    (x >>= f) = .ok b ↔ ∃ a, x = .ok a ∧ f a = .ok b := by
  cases x with
  | error e => simp [bind, Except.bind]
  | ok a => simp [bind, Except.bind]

theorem except_bind_eq_error {x : Except ε α} {f : α → Except ε β} {e : ε} :
    (x >>= f) = .error e ↔ x = .error e ∨ ∃ a, x = .ok a ∧ f a = .error e := by
  cases x with
  | error e => simp [bind, Except.bind]
  | ok a => simp [bind, Except.bind]

theorem except_mapError_eq_ok {x : Except ε α} {f : ε → β} {a : α} :
    x.mapError f = .ok a ↔ x = .ok a := by
  cases x <;> simp [Except.mapError]

theorem except_mapError_eq_error {x : Except ε α} {f : ε → β} {e : β} :
    x.mapError f = .error e ↔ ∃ cause, x = .error cause ∧ f cause = e := by
  cases x <;> simp [Except.mapError]

theorem except_mapError_bind (x : Except ε α) (f : α → Except ε β) (g : ε → δ) :
    (x >>= f).mapError g = x.mapError g >>= fun a => (f a).mapError g := by
  cases x <;> rfl

theorem except_bind_ok (x : Except ε α) (f : α → β) : (x >>= fun a => .ok (f a)) = f <$> x := by
  cases x <;> rfl

theorem except_map_eq_ok {x : Except ε α} {f : α → β} {b : β} :
    f <$> x = .ok b ↔ ∃ a, x = .ok a ∧ f a = b := by
  cases x <;> simp [Functor.map, Except.map]

theorem except_map_eq_error {x : Except ε α} {f : α → β} {e : ε} :
    f <$> x = .error e ↔ x = .error e := by
  cases x <;> simp [Functor.map, Except.map]

theorem except_both_eq_error {x : Except ε α} {y : Except ε β} {f : α → β → σ} {e : ε}
    (h : (do let a ← x; let b ← y; .ok (f a b)) = Except.error e) :
    x = .error e ∨ y = .error e := by
  rcases except_bind_eq_error.mp h with h | ⟨_, -, h⟩
  · exact .inl h
  · rcases except_bind_eq_error.mp h with h | ⟨_, -, h⟩
    · exact .inr h
    · cases h

theorem mapM_eq_ok_iff {f : α → Except ε β} {items : List α} {results : List β} :
    items.mapM f = .ok results ↔ List.Forall₂ (fun item b => f item = .ok b) items results := by
  induction items generalizing results with
  | nil =>
    rw [List.mapM_nil, List.forall₂_nil_left_iff]
    exact ⟨fun h => by cases h; rfl, fun h => by rw [h]; rfl⟩
  | cons item rest ih =>
    rw [List.mapM_cons, except_bind_eq_ok]
    constructor
    · rintro ⟨b, hb, h⟩
      obtain ⟨others, ho, h⟩ := except_bind_eq_ok.mp h
      cases h
      exact .cons hb (ih.mp ho)
    · intro h
      cases h with
      | @cons _ b _ others hb ho => exact ⟨b, hb, except_bind_eq_ok.mpr ⟨others, ih.mpr ho, rfl⟩⟩

/-- Steps that all succeed give a list of what each of them gives. -/
theorem mapM_eq_ok_of_forall {f : α → Except ε β} {g : α → β} {items : List α}
    (h : ∀ item ∈ items, f item = .ok (g item)) : items.mapM f = .ok (items.map g) := by
  induction items with
  | nil => rfl
  | cons item rest ih =>
    rw [List.mapM_cons, h item List.mem_cons_self,
      ih fun other ho => h other (List.mem_cons_of_mem _ ho)]
    rfl

theorem exists_forall₂_iff {R : α → β → Prop} {items : List α} :
    (∃ results, List.Forall₂ R items results) ↔ ∀ item ∈ items, ∃ b, R item b := by
  induction items with
  | nil => exact iff_of_true ⟨[], .nil⟩ nofun
  | cons item rest ih =>
    rw [List.forall_mem_cons, ← ih]
    constructor
    · rintro ⟨_, h⟩
      cases h with
      | cons hb ho => exact ⟨⟨_, hb⟩, ⟨_, ho⟩⟩
    · rintro ⟨⟨b, hb⟩, ⟨others, ho⟩⟩
      exact ⟨b :: others, .cons hb ho⟩

theorem mapM_isOk_iff {f : α → Except ε β} {items : List α} :
    (∃ results, items.mapM f = .ok results) ↔ ∀ item ∈ items, ∃ b, f item = .ok b := by
  simp only [mapM_eq_ok_iff]
  exact exists_forall₂_iff

theorem mapM_congr {f g : α → Except ε β} {items : List α} (h : ∀ item ∈ items, f item = g item) :
    items.mapM f = items.mapM g := by
  induction items with
  | nil => rfl
  | cons item rest ih =>
    rw [List.mapM_cons, List.mapM_cons, h item List.mem_cons_self,
      ih fun other ho => h other (List.mem_cons_of_mem _ ho)]

/-- Labels that are handed along change nothing. -/
theorem mapM_labelled {f : α → Except ε β} (label : α → δ) (items : List α) :
    (List.map Prod.snd) <$> items.mapM (fun item => Prod.mk (label item) <$> f item) =
      items.mapM f := by
  induction items with
  | nil => rfl
  | cons item rest ih =>
    rw [List.mapM_cons, List.mapM_cons, ← ih]
    cases f item with
    | error e => rfl
    | ok b => cases rest.mapM fun item => Prod.mk (label item) <$> f item <;> rfl

theorem forall₂_mem_right {R : α → β → Prop} {items : List α} {results : List β}
    (h : List.Forall₂ R items results) {b : β} (hb : b ∈ results) : ∃ item ∈ items, R item b := by
  induction h with
  | nil => cases hb
  | cons hr _ ih =>
    rcases List.mem_cons.mp hb with rfl | hb
    · exact ⟨_, List.mem_cons_self, hr⟩
    · obtain ⟨item, hi, hr⟩ := ih hb
      exact ⟨item, List.mem_cons_of_mem _ hi, hr⟩

/-- What every successful step keeps, they keep together. -/
theorem foldlM_invariant {P : σ → Prop} {step : σ → α → Except ε σ} {items : List α}
    (hstep : ∀ item ∈ items, ∀ s t, P s → step s item = .ok t → P t) {s t : σ} (hs : P s)
    (h : items.foldlM step s = .ok t) : P t := by
  induction items generalizing s with
  | nil => cases h; exact hs
  | cons item rest ih =>
    rw [List.foldlM_cons] at h
    obtain ⟨middle, hm, h⟩ := except_bind_eq_ok.mp h
    exact ih (fun item hi => hstep item (List.mem_cons_of_mem _ hi))
      (hstep item List.mem_cons_self s middle hs hm) h

/-- Steps that each succeed if an item is allowed, whatever the state, succeed together if all items
are. -/
theorem foldlM_eq_ok_iff {P : σ → Prop} (allowed : α → Prop) (next : σ → α → σ)
    {step : σ → α → Except ε σ}
    (hstep : ∀ s item t, P s → (step s item = .ok t ↔ allowed item ∧ next s item = t))
    (hnext : ∀ s item, P s → P (next s item)) {items : List α} {s t : σ} (hs : P s) :
    items.foldlM step s = .ok t ↔ (∀ item ∈ items, allowed item) ∧ items.foldl next s = t := by
  induction items generalizing s with
  | nil =>
    rw [List.foldlM_nil]
    exact ⟨fun h => ⟨nofun, by cases h; rfl⟩, fun h => congrArg Except.ok h.2⟩
  | cons item rest ih =>
    rw [List.foldlM_cons, except_bind_eq_ok, List.forall_mem_cons, List.foldl_cons, and_assoc]
    constructor
    · rintro ⟨middle, hm, h⟩
      obtain ⟨ha, rfl⟩ := (hstep s item middle hs).mp hm
      exact ⟨ha, (ih (hnext s item hs)).mp h⟩
    · rintro ⟨ha, h⟩
      exact ⟨next s item, (hstep s item _ hs).mpr ⟨ha, rfl⟩, (ih (hnext s item hs)).mpr h⟩

/-- Steps that fail in other words fail together in other words. -/
theorem mapM_mapError (f : α → Except ε β) (g : ε → δ) (items : List α) :
    items.mapM (fun item => (f item).mapError g) = (items.mapM f).mapError g := by
  induction items with
  | nil => rfl
  | cons item rest ih =>
    rw [List.mapM_cons, List.mapM_cons, ih, except_mapError_bind]
    apply congrArg
    funext b
    rw [except_mapError_bind]
    rfl

/-- A list of steps fails with the error of the first one that fails. -/
theorem mapM_eq_error_iff {f : α → Except ε β} {items : List α} {e : ε} :
    items.mapM f = .error e ↔
      ∃ index item, items[index]? = some item ∧ f item = .error e ∧
        ∀ earlier ∈ items.take index, ∃ b, f earlier = .ok b := by
  induction items with
  | nil =>
    apply iff_of_false nofun
    rintro ⟨index, item, hitem, -⟩
    cases hitem
  | cons first rest ih =>
    rw [List.mapM_cons, except_bind_eq_error]
    constructor
    · rintro (hfirst | ⟨b, hb, hrest⟩)
      · exact ⟨0, first, rfl, hfirst, nofun⟩
      · have hrest : rest.mapM f = .error e := by
          rcases except_bind_eq_error.mp hrest with hrest | ⟨_, -, hrest⟩
          · exact hrest
          · cases hrest
        obtain ⟨index, item, hitem, he, hearlier⟩ := ih.mp hrest
        refine ⟨index + 1, item, hitem, he, fun earlier hmem => ?_⟩
        rcases List.mem_cons.mp hmem with rfl | hmem
        · exact ⟨b, hb⟩
        · exact hearlier earlier hmem
    · rintro ⟨index, item, hitem, he, hearlier⟩
      cases index with
      | zero =>
        cases hitem
        exact .inl he
      | succ index =>
        obtain ⟨b, hb⟩ := hearlier first List.mem_cons_self
        have hrest := ih.mpr ⟨index, item, hitem, he, fun earlier hmem =>
          hearlier earlier (List.mem_cons_of_mem _ hmem)⟩
        exact .inr ⟨b, hb, except_bind_eq_error.mpr (.inl hrest)⟩

theorem mapM_eq_error {f : α → Except ε β} {items : List α} {e : ε}
    (h : items.mapM f = .error e) : ∃ item ∈ items, f item = .error e := by
  obtain ⟨index, item, hitem, he, -⟩ := mapM_eq_error_iff.mp h
  exact ⟨item, List.mem_of_getElem? hitem, he⟩

/-- If steps fail together, one of them does, and what the steps keep still holds there. -/
theorem foldlM_error_invariant {P : σ → Prop} {step : σ → α → Except ε σ} {items : List α}
    (hstep : ∀ item ∈ items, ∀ s t, P s → step s item = .ok t → P t) {s : σ} {e : ε} (hs : P s)
    (h : items.foldlM step s = .error e) : ∃ item ∈ items, ∃ t, P t ∧ step t item = .error e := by
  induction items generalizing s with
  | nil => cases h
  | cons item rest ih =>
    rw [List.foldlM_cons] at h
    rcases except_bind_eq_error.mp h with h | ⟨t, ht, h⟩
    · exact ⟨item, List.mem_cons_self, s, hs, h⟩
    · obtain ⟨other, hi, t, hp, h⟩ := ih (fun other ho => hstep other (List.mem_cons_of_mem _ ho))
        (hstep item List.mem_cons_self s t hs ht) h
      exact ⟨other, List.mem_cons_of_mem _ hi, t, hp, h⟩

theorem foldlM_eq_error {step : σ → α → Except ε σ} {items : List α} {s : σ} {e : ε}
    (h : items.foldlM step s = .error e) : ∃ item ∈ items, ∃ t, step t item = .error e := by
  obtain ⟨item, hi, t, -, h⟩ :=
    foldlM_error_invariant (P := fun _ => True) (fun _ _ _ _ _ _ => trivial) trivial h
  exact ⟨item, hi, t, h⟩

end Steps

end TypedRecords
