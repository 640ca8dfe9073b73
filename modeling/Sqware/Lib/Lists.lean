import Mathlib.Data.List.Nodup

/-!
# Editing a list at a position that was found

The kernel edits its vectors in place: it looks for a position and removes, replaces or inserts
there.  Each of these is read here as a cut of the list around the element found.  The last section
counts the members of a list of numbers below a bound.
-/

namespace Lists

open List

variable {α : Type*} {l : List α} {p : α → Bool}

theorem exists_of_findIdx? {i : Nat} (h : l.findIdx? p = some i) :
    ∃ l1 x l2, l = l1 ++ x :: l2 ∧ l1.length = i ∧ p x = true ∧ ∀ y ∈ l1, p y = false := by
  obtain ⟨hi, hp, hno⟩ := findIdx?_eq_some_iff_getElem.1 h
  have hlen : (l.take i).length = i := by
    rw [length_take]
    omega
  refine ⟨l.take i, l[i], l.drop (i + 1), ?_, hlen, hp, fun y hy => ?_⟩
  · rw [getElem_cons_drop, take_append_drop]
  · obtain ⟨j, hj, rfl⟩ := mem_iff_getElem.1 hy
    simpa using hno j (hlen ▸ hj)

variable {x : α}

theorem find?_append_cons {l1 l2 : List α} (hx : p x = true) (hl : ∀ y ∈ l1, p y = false) :
    (l1 ++ x :: l2).find? p = some x :=
  find?_eq_some_iff_append.2 ⟨hx, l1, l2, rfl, fun y hy => by simp [hl y hy]⟩

theorem modify_append_cons (l1 : List α) (x : α) (l2 : List α) (f : α → α) :
    (l1 ++ x :: l2).modify l1.length f = l1 ++ f x :: l2 := by
  induction l1 with
  | nil => rfl
  | cons y l1 ih => rw [cons_append, length_cons, modify_succ_cons, ih]; rfl

theorem set_append_cons (l1 : List α) (x : α) (l2 : List α) (y : α) :
    (l1 ++ x :: l2).set l1.length y = l1 ++ y :: l2 := by
  simp

theorem eraseIdx_append_cons (l1 : List α) (x : α) (l2 : List α) :
    (l1 ++ x :: l2).eraseIdx l1.length = l1 ++ l2 := by
  rw [eraseIdx_append_of_length_le (Nat.le_refl _)]
  simp

/-- What each step keeps, all of them do. -/
theorem foldlM_keeps {σ : Type*} {f : σ → α → Option σ} {P : σ → Prop} {s s' : σ}
    (hf : ∀ x ∈ l, ∀ s s', P s → f s x = some s' → P s') (hs : P s)
    (h : l.foldlM f s = some s') : P s' := by
  induction l generalizing s with
  | nil =>
    cases h
    exact hs
  | cons x l ih =>
    obtain ⟨s1, h1, h⟩ := Option.bind_eq_some_iff.1 h
    exact ih (fun y hy => hf y (mem_cons_of_mem x hy)) (hf x mem_cons_self s s1 hs h1) h

/-- The list around the first element with a property. -/
theorem cut_of_findIdx? {i : Nat} (h : l.findIdx? p = some i) :
    ∃ l1 x l2, l = l1 ++ x :: l2 ∧ l[i]? = some x ∧ l.eraseIdx i = l1 ++ l2 ∧
      (∀ y, l.set i y = l1 ++ y :: l2) ∧ l.find? p = some x := by
  obtain ⟨l1, x, l2, rfl, rfl, hx, hno⟩ := exists_of_findIdx? h
  exact ⟨l1, x, l2, rfl, by simp, eraseIdx_append_cons l1 x l2, set_append_cons l1 x l2,
    find?_append_cons hx hno⟩

theorem insertIdx_append (l1 : List α) (y : α) (l2 : List α) :
    (l1 ++ l2).insertIdx l1.length y = l1 ++ y :: l2 := by
  induction l1 with
  | nil => simp
  | cons z l1 ih => simpa using ih

theorem insertIdx_append_cons (l1 : List α) (x y : α) (l2 : List α) :
    (l1 ++ x :: l2).insertIdx (l1.length + 1) y = l1 ++ x :: y :: l2 := by
  have h := insertIdx_append (l1 ++ [x]) y l2
  simpa using h

/-- The last element takes the place of the one at a position. -/
def swapRemove (l : List α) (i : Nat) : List α :=
  match l.getLast? with
  | none => []
  | some x => (l.set i x).dropLast

theorem swapRemove_append_cons (l1 : List α) (x : α) (l2 : List α) (y : α) :
    swapRemove (l1 ++ x :: (l2 ++ [y])) l1.length = l1 ++ y :: l2 := by
  have hlast : (l1 ++ x :: (l2 ++ [y])).getLast? = some y := by simp [List.getLast?_cons]
  unfold swapRemove
  rw [hlast]
  simp only [set_append_right _ _ (Nat.le_refl _), Nat.sub_self, set_cons_zero]
  rw [← cons_append, ← append_assoc, dropLast_concat]

theorem swapRemove_concat (l : List α) (x : α) : swapRemove (l ++ [x]) l.length = l := by
  unfold swapRemove
  rw [List.getLast?_concat]
  simp only [set_append_right _ _ (Nat.le_refl _), Nat.sub_self, set_cons_zero]
  exact dropLast_concat

theorem swapRemove_perm (l1 : List α) (x : α) (l2 : List α) :
    (swapRemove (l1 ++ x :: l2) l1.length).Perm (l1 ++ l2) := by
  rcases eq_nil_or_concat l2 with rfl | ⟨l2, y, rfl⟩
  · rw [swapRemove_concat, append_nil]
  · rw [concat_eq_append, swapRemove_append_cons]
    exact List.Perm.append_left l1 (perm_append_singleton y l2).symm

/-! ## Two lists element by element -/

variable {β : Type*} {R : α → β → Prop} {l' : List β}

theorem exists_of_forall₂_right
    (h : List.Forall₂ R l l') {y : β} (hy : y ∈ l') : ∃ x ∈ l, R x y := by
  induction h with
  | nil => cases hy
  | cons hr _ ih =>
    rcases mem_cons.1 hy with rfl | hy
    · exact ⟨_, mem_cons_self, hr⟩
    · obtain ⟨x, hx, hr⟩ := ih hy
      exact ⟨x, mem_cons_of_mem _ hx, hr⟩

theorem exists_of_forall₂_left (h : List.Forall₂ R l l') (hx : x ∈ l) : ∃ y ∈ l', R x y := by
  have hf : List.Forall₂ (flip R) l' l := List.Forall₂.flip h
  exact exists_of_forall₂_right hf hx

theorem map_eq_of_forall₂ {γ : Type*} {f : α → γ} {g : β → γ}
    (h : List.Forall₂ R l l') (hfg : ∀ x y, R x y → g y = f x) : l'.map g = l.map f := by
  induction h with
  | nil => rfl
  | cons hr _ ih => rw [map_cons, map_cons, hfg _ _ hr, ih]

theorem map_filter_of_forall₂ {γ : Type*} {f : α → γ} {g : β → γ}
    {q : β → Bool} (h : List.Forall₂ R l l') (hpq : ∀ x y, R x y → q y = p x)
    (hfg : ∀ x y, R x y → g y = f x) : (l'.filter q).map g = (l.filter p).map f := by
  induction h with
  | nil => rfl
  | cons hr _ ih =>
    rw [filter_cons, filter_cons, hpq _ _ hr]
    split
    · rw [map_cons, map_cons, hfg _ _ hr, ih]
    · exact ih

/-! ## Standing after another -/

/-- One element stands somewhere after another. -/
def After (l : List α) (x y : α) : Prop := ∃ l₁ l₂, l = l₁ ++ x :: l₂ ∧ y ∈ l₂

variable {y : α}

theorem after_filter (hx : p x = true) (hy : p y = true) :
    After (l.filter p) x y ↔ After l x y := by
  constructor
  · rintro ⟨l1, l2, hl, hmem⟩
    obtain ⟨m1, m2, rfl, -, hm2⟩ := filter_eq_append_iff.1 hl
    obtain ⟨n1, n2, rfl, -, -, rfl⟩ := filter_eq_cons_iff.1 hm2
    exact ⟨m1 ++ n1, n2, by simp, (mem_filter.1 hmem).1⟩
  · rintro ⟨l1, l2, rfl, hmem⟩
    refine ⟨l1.filter p, l2.filter p, ?_, mem_filter.2 ⟨hmem, hy⟩⟩
    rw [filter_append, filter_cons_of_pos hx]

theorem after_iff_mem {l1 l2 : List α} (hn : (l1 ++ x :: l2).Nodup) :
    After (l1 ++ x :: l2) x y ↔ y ∈ l2 := by
  refine ⟨?_, fun hy => ⟨l1, l2, rfl, hy⟩⟩
  rintro ⟨m1, m2, he, hy⟩
  have hnot : x ∉ l1 ∧ x ∉ l2 := by
    rw [nodup_middle] at hn
    simpa using (nodup_cons.1 hn).1
  rw [((append_cons_inj_of_notMem hnot.1 hnot.2).1 he).2.2]
  exact hy

theorem After.mem (h : After l x y) (hn : l.Nodup) : y ∈ l ∧ y ≠ x := by
  obtain ⟨l1, l2, rfl, hy⟩ := h
  refine ⟨by simp [hy], fun he => ?_⟩
  rw [nodup_middle] at hn
  exact (nodup_cons.1 hn).1 (mem_append_right l1 (he ▸ hy))

theorem After.map (h : After l x y) (f : α → β) : After (l.map f) (f x) (f y) := by
  obtain ⟨l1, l2, rfl, hy⟩ := h
  exact ⟨l1.map f, l2.map f, by simp, mem_map_of_mem hy⟩

theorem After.reverse (h : After l x y) : After l.reverse y x := by
  obtain ⟨l1, l2, rfl, hy⟩ := h
  obtain ⟨m1, m2, rfl⟩ := append_of_mem hy
  exact ⟨m2.reverse, m1.reverse ++ x :: l1.reverse, by simp, by simp⟩

/-! ## One after the other -/

section

variable {σ ε : Type*} {R : List α → α → Prop} {K : List α}

/-- Each in turn, until one fails. -/
def each (f : α → σ → Except ε Unit × σ) : List α → σ → Except ε Unit × σ
  | [], s => (.ok (), s)
  | x :: l, s =>
    match f x s with
    | (.error e, s) => (.error e, s)
    | (.ok (), s) => each f l s

/-- `R` holds of each and those before it, the nearest first. -/
def InTurn (R : List α → α → Prop) : List α → List α → Prop
  | _, [] => True
  | K, x :: l => R K x ∧ InTurn R (x :: K) l

/-- All of a list goes well exactly if each can go when its turn comes. -/
theorem each_spec {f : α → σ → Except ε Unit × σ} {I : List α → σ → Prop} {P : α → Prop} {s : σ}
    (hf : ∀ K x s, I K s → x ∉ K → P x → ((f x s).1 = .ok () ↔ R K x) ∧
      ((f x s).1 = .ok () → I (x :: K) (f x s).2))
    (hs : I K s) (hl : ∀ x ∈ l, x ∉ K ∧ P x) (hn : l.Nodup) :
    ((each f l s).1 = .ok () ↔ InTurn R K l) ∧
    ((each f l s).1 = .ok () → I (l.reverse ++ K) (each f l s).2) := by
  induction l generalizing K s with
  | nil => exact ⟨⟨fun _ => trivial, fun _ => rfl⟩, fun _ => hs⟩
  | cons x l ih =>
    obtain ⟨hK, hP⟩ := hl x mem_cons_self
    obtain ⟨hiff, hok⟩ := hf K x s hs hK hP
    rw [each, InTurn]
    cases hx : f x s with
    | mk res s1 =>
      rw [hx] at hiff hok
      cases res with
      | error e =>
        refine ⟨⟨(fun he => nomatch he), fun hturn => ?_⟩, fun he => nomatch he⟩
        cases hiff.2 hturn.1
      | ok =>
        have hl1 : ∀ y ∈ l, y ∉ x :: K ∧ P y := by
          intro y hy
          obtain ⟨hyK, hyP⟩ := hl y (mem_cons_of_mem x hy)
          refine ⟨fun hmem => ?_, hyP⟩
          rcases mem_cons.1 hmem with rfl | hmem
          · exact (nodup_cons.1 hn).1 hy
          · exact hyK hmem
        obtain ⟨hiff1, hok1⟩ := ih (hok rfl) hl1 (nodup_cons.1 hn).2
        rw [reverse_cons, append_assoc, singleton_append]
        exact ⟨hiff1.trans ⟨fun hturn => ⟨hiff.1 rfl, hturn⟩, fun hturn => hturn.2⟩, hok1⟩

theorem each_map (g : β → α) (f : α → σ → Except ε Unit × σ) (l : List β) (s : σ) :
    each f (l.map g) s = each (fun x => f (g x)) l s := by
  induction l generalizing s with
  | nil => rfl
  | cons x l ih =>
    rw [map_cons, each, each]
    split
    · rfl
    · exact ih _

theorem inTurn_iff :
    InTurn R K l ↔ ∀ l1 x l2, l = l1 ++ x :: l2 → R (l1.reverse ++ K) x := by
  induction l generalizing K with
  | nil => simp [InTurn]
  | cons y l ih =>
    rw [InTurn, ih]
    constructor
    · rintro ⟨hy, hrest⟩ l1 x l2 hl
      cases l1 with
      | nil =>
        cases hl
        exact hy
      | cons z l1 =>
        obtain ⟨rfl, hl'⟩ := cons.inj hl
        simpa using hrest l1 x l2 hl'
    · intro hall
      refine ⟨hall [] y l rfl, fun l1 x l2 hl => ?_⟩
      simpa using hall (y :: l1) x l2 (by rw [hl, cons_append])

/-- From the last to the first: those before one are the ones that stand behind it. -/
theorem inTurn_filter {Q : α → Prop} (hn : l.Nodup)
    (hR : ∀ x ∈ l, p x = true → ∀ K, (∀ y, y ∈ K ↔ p y = true ∧ After l x y) → (R K x ↔ Q x)) :
    InTurn R [] (l.filter p).reverse ↔ ∀ x ∈ l, p x = true → Q x := by
  have hbehind : ∀ l1 x l2, l.filter p = l1 ++ x :: l2 → (R l2 x ↔ Q x) := by
    intro l1 x l2 hl
    have hmem : ∀ y ∈ x :: l2, y ∈ l ∧ p y = true := fun y hy =>
      mem_filter.1 (hl ▸ mem_append_right l1 hy)
    obtain ⟨hx, hpx⟩ := hmem x mem_cons_self
    refine hR x hx hpx l2 fun y => ?_
    rw [← after_iff_mem (hl ▸ hn.filter p), ← hl]
    refine ⟨fun ha => ?_, fun ⟨hy, ha⟩ => (after_filter hpx hy).2 ha⟩
    have hy : p y = true := by
      rw [hl, after_iff_mem (hl ▸ hn.filter p)] at ha
      exact (hmem y (mem_cons_of_mem x ha)).2
    exact ⟨hy, (after_filter hpx hy).1 ha⟩
  rw [inTurn_iff]
  constructor
  · intro hall x hx hpx
    obtain ⟨l1, l2, hl⟩ := append_of_mem (mem_filter.2 ⟨hx, hpx⟩)
    have hready := hall l2.reverse x l1.reverse (by rw [hl]; simp)
    rw [reverse_reverse, append_nil] at hready
    exact (hbehind l1 x l2 hl).1 hready
  intro hall l1 x l2 hl
  have hl' : l.filter p = l2.reverse ++ x :: l1.reverse := by
    rw [← reverse_reverse (List.filter _ _), hl]
    simp
  obtain ⟨hx, hpx⟩ := mem_filter.1 (hl' ▸ mem_append_right l2.reverse mem_cons_self)
  rw [append_nil]
  exact (hbehind _ x _ hl').2 (hall x hx hpx)

end

/-! ## What happened last -/

/-- Something happened, and nothing of another kind since. -/
def Since (P Q : α → Prop) (l : List α) : Prop :=
  ∃ before x after, l = before ++ x :: after ∧ P x ∧ ∀ y ∈ after, ¬ Q y

theorem since_concat {P Q : α → Prop} : Since P Q (l ++ [x]) ↔ P x ∨ (Since P Q l ∧ ¬ Q x) := by
  constructor
  · rintro ⟨before, y, after, hl, hp, hafter⟩
    rcases eq_nil_or_concat after with rfl | ⟨after', z, rfl⟩
    · obtain ⟨-, he⟩ := append_inj' hl rfl
      exact .inl ((List.cons.inj he).1 ▸ hp)
    rw [concat_eq_append] at hl hafter
    rw [← cons_append, ← append_assoc] at hl
    obtain ⟨rfl, he⟩ := append_inj' hl rfl
    obtain rfl := (List.cons.inj he).1
    exact .inr ⟨⟨before, y, after', rfl, hp, fun z hz => hafter z (mem_append_left _ hz)⟩,
      hafter x (by simp)⟩
  · rintro (hp | ⟨⟨before, y, after, rfl, hp, hafter⟩, hx⟩)
    · exact ⟨l, x, [], rfl, hp, fun z hz => nomatch hz⟩
    refine ⟨before, y, after ++ [x], by simp, hp, fun z hz => ?_⟩
    rcases mem_append.1 hz with hz | hz
    · exact hafter z hz
    · rwa [mem_singleton.1 hz]

/-! ## Counting -/

theorem countP_lt {q : α → Bool} (h : ∀ x ∈ l, p x = true → q x = true) (hy : y ∈ l)
    (hp : p y = false) (hq : q y = true) : l.countP p < l.countP q := by
  obtain ⟨l1, l2, rfl⟩ := append_of_mem hy
  have h1 : l1.countP p ≤ l1.countP q :=
    countP_mono_left fun x hx => h x (mem_append_left _ hx)
  have h2 : l2.countP p ≤ l2.countP q :=
    countP_mono_left fun x hx => h x (mem_append_right _ (mem_cons_of_mem y hx))
  rw [countP_append, countP_append, countP_cons_of_pos hq,
    countP_cons_of_neg (by simp [hp])]
  omega

/-! ## Counting numbers up to a bound -/

theorem countP_le_succ (l : List Nat) (k : Nat) :
    l.countP (· ≤ k + 1) = l.countP (· ≤ k) + l.count (k + 1) := by
  induction l with
  | nil => rfl
  | cons x l ih =>
    simp only [countP_cons, count_cons, ih, decide_eq_true_eq, beq_iff_eq]
    split <;> split <;> split <;> omega

theorem countP_le_of_pos {l : List Nat} (hn : l.Nodup) (h : ∀ m ∈ l, 0 < m) (k : Nat) :
    l.countP (· ≤ k) ≤ k := by
  induction k with
  | zero =>
    have h0 : l.countP (· ≤ 0) = 0 := by
      rw [countP_eq_zero]
      intro m hm
      simpa using Nat.ne_of_gt (h m hm)
    omega
  | succ k ih =>
    have hc : l.count (k + 1) ≤ 1 := nodup_iff_count_le_one.1 hn _
    rw [countP_le_succ]
    omega

/-- With all of the next `d` numbers in the list, the count goes up by `d`. -/
theorem countP_le_add {l : List Nat} (hn : l.Nodup) {r d : Nat}
    (h : ∀ m, r < m → m ≤ r + d → m ∈ l) : l.countP (· ≤ r + d) = l.countP (· ≤ r) + d := by
  induction d with
  | zero => rfl
  | succ d ih =>
    have hc : l.count (r + d + 1) = 1 :=
      count_eq_one_of_mem hn (h _ (by omega) (by omega))
    have hd := ih fun m h1 h2 => h m h1 (by omega)
    rw [← Nat.add_assoc, countP_le_succ]
    omega

end Lists
