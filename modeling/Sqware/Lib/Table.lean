import Mathlib.Data.List.TakeWhile
import Sqware.Lib.Lists

/-!
# Tables sorted by key

A table is a list of keyed entries in strictly increasing key order, searched by the partition
point of the keys below the one wanted.  `spot` is that position, with whether the key is there.
Read as a partial function (`lookup`), replacing, inserting and removing at the spot are updates
of it at one key.
-/

namespace Table

open List Option

variable {α : Type*}

def Sorted (l : List (Nat × α)) : Prop := l.Pairwise fun x y => x.1 < y.1

/-- The number of keys below `k`. -/
def point (l : List (Nat × α)) (k : Nat) : Nat := (l.takeWhile (·.1 < k)).length

def spot (l : List (Nat × α)) (k : Nat) : Nat × Bool := (point l k, l[point l k]?.any (·.1 = k))

def lookup (l : List (Nat × α)) (k : Nat) : Option α := (l.find? (·.1 = k)).map (·.2)

theorem lookup_nil (k : Nat) : lookup ([] : List (Nat × α)) k = none := rfl

theorem lookup_cons (x : Nat × α) (l : List (Nat × α)) (k : Nat) :
    lookup (x :: l) k = if x.1 = k then some x.2 else lookup l k := by
  by_cases h : x.1 = k <;> simp [lookup, h]

variable {v : α} {l : List (Nat × α)}

theorem mem_of_lookup {k : Nat} (h : lookup l k = some v) : (k, v) ∈ l := by
  simp only [lookup, map_eq_some_iff] at h
  obtain ⟨x, hx, rfl⟩ := h
  have hk : x.1 = k := by simpa using List.find?_some hx
  rw [← hk]
  exact mem_of_find?_eq_some hx

theorem lookup_eq_none {k : Nat} (h : ∀ x ∈ l, x.1 ≠ k) : lookup l k = none := by
  simp only [lookup, map_eq_none_iff, find?_eq_none, decide_eq_true_eq]
  exact h

theorem lookup_append (l1 l2 : List (Nat × α)) (k : Nat) :
    lookup (l1 ++ l2) k = (lookup l1 k).or (lookup l2 k) := by
  induction l1 with
  | nil => rfl
  | cons x l ih =>
    rw [cons_append, lookup_cons, lookup_cons, ih]
    split <;> rfl

theorem lookup_of_mem (hs : Sorted l) {k : Nat} (h : (k, v) ∈ l) : lookup l k = some v := by
  induction l with
  | nil => simp at h
  | cons x l ih =>
    obtain ⟨hx, hl⟩ := pairwise_cons.1 hs
    rw [lookup_cons]
    rcases mem_cons.1 h with rfl | h
    · exact if_pos rfl
    · rw [if_neg (hx _ h).ne, ih hl h]

/-- A sorted table around a key: smaller keys, the entry if there is one, larger keys. -/
theorem exists_cut (hs : Sorted l) (k : Nat) :
    ∃ l1 l2, (∀ x ∈ l1, x.1 < k) ∧ (∀ x ∈ l2, k < x.1) ∧ point l k = l1.length ∧
      ((spot l k).2 = false ∧ lookup l k = none ∧ l = l1 ++ l2 ∨
        ∃ v, (spot l k).2 = true ∧ lookup l k = some v ∧ l = l1 ++ (k, v) :: l2) := by
  have happ : l = l.takeWhile (·.1 < k) ++ l.dropWhile (·.1 < k) :=
    takeWhile_append_dropWhile.symm
  have hlow : ∀ x ∈ l.takeWhile (·.1 < k), x.1 < k := by
    intro x hx
    simpa using mem_takeWhile_imp hx
  have hget : l[point l k]? = (l.dropWhile (·.1 < k)).head? := by
    conv => lhs; lhs; rw [happ]
    rw [point, getElem?_append_right le_rfl, Nat.sub_self, head?_eq_getElem?]
  have hls : lookup l k = lookup (l.dropWhile (·.1 < k)) k := by
    conv => lhs; rw [happ]
    rw [lookup_append, lookup_eq_none fun x hx => (hlow x hx).ne, none_or]
  cases hd : l.dropWhile (·.1 < k) with
  | nil =>
    refine ⟨_, [], hlow, by simp, rfl, .inl ⟨?_, ?_, ?_⟩⟩
    · simp [spot, hget, hd]
    · rw [hls, hd, lookup_nil]
    · rw [← hd]
      exact happ
  | cons x l2 =>
    have hx : k ≤ x.1 := by
      have := dropWhile_get_zero_not (fun y : Nat × α => decide (y.1 < k)) l
        (by rw [hd]; simp)
      simpa [hd] using this
    rw [hd] at happ hls hget
    have hsort : Sorted (x :: l2) := (pairwise_append.1 (happ ▸ hs)).2.1
    have hup : ∀ y ∈ l2, x.1 < y.1 := (pairwise_cons.1 hsort).1
    by_cases he : x.1 = k
    · refine ⟨_, l2, hlow, fun y hy => he ▸ hup y hy, rfl, .inr ⟨x.2, ?_, ?_, ?_⟩⟩
      · simp [spot, hget, he]
      · rw [hls, lookup_cons, if_pos he]
      · subst he
        exact happ
    refine ⟨_, x :: l2, hlow, ?_, rfl, .inl ⟨?_, ?_, happ⟩⟩
    · intro y hy
      rcases mem_cons.1 hy with rfl | hy
      · omega
      · have := hup y hy
        omega
    · simp [spot, hget, he]
    rw [hls]
    refine lookup_eq_none fun y hy => ?_
    rcases mem_cons.1 hy with rfl | hy
    · exact he
    · have := hup y hy
      omega

section
variable {l : List (Nat × α)} {k : Nat}

theorem spot_true (hs : Sorted l) : (spot l k).2 = true ↔ ∃ v, lookup l k = some v := by
  obtain ⟨l1, l2, _, _, _, ⟨h, hl, _⟩ | ⟨v, h, hl, _⟩⟩ := exists_cut hs k
  · simp [h, hl]
  · simp [h, hl]

theorem getElem_spot (hs : Sorted l) (h : lookup l k = some v) :
    l[(spot l k).1]? = some (k, v) := by
  obtain ⟨l1, l2, _, _, hp, ⟨_, hl, _⟩ | ⟨w, _, hl, he⟩⟩ := exists_cut hs k
  · cases hl.symm.trans h
  cases hl.symm.trans h
  rw [show (spot l k).1 = l1.length from hp, he]
  simp

variable {l1 l2 : List (Nat × α)}

theorem sorted_cut (hs : Sorted (l1 ++ l2)) (h1 : ∀ x ∈ l1, x.1 < k) (h2 : ∀ x ∈ l2, k < x.1)
    (v : α) : Sorted (l1 ++ (k, v) :: l2) := by
  obtain ⟨hl1, hl2, _⟩ := pairwise_append.1 hs
  refine pairwise_append.2 ⟨hl1, pairwise_cons.2 ⟨h2, hl2⟩, fun x hx y hy => ?_⟩
  rcases mem_cons.1 hy with rfl | hy
  · exact h1 x hx
  · exact (h1 x hx).trans (h2 y hy)

theorem lookup_cut (h1 : ∀ x ∈ l1, x.1 < k) (v : α) (j : Nat) :
    lookup (l1 ++ (k, v) :: l2) j = if j = k then some v else lookup (l1 ++ l2) j := by
  rw [lookup_append, lookup_append, lookup_cons]
  by_cases hj : j = k
  · subst hj
    rw [if_pos rfl, if_pos rfl, lookup_eq_none fun x hx => (h1 x hx).ne, none_or]
  · rw [if_neg (Ne.symm hj), if_neg hj]

variable {x : Nat × α}

theorem sorted_of_cons (hs : Sorted (l1 ++ x :: l2)) : Sorted (l1 ++ l2) :=
  hs.sublist (List.Sublist.append_left (sublist_cons_self x l2) l1)

theorem set_spot (hs : Sorted l) (h : (spot l k).2 = true) (v : α) :
    Sorted (l.set (spot l k).1 (k, v)) ∧
      ∀ j, lookup (l.set (spot l k).1 (k, v)) j = if j = k then some v else lookup l j := by
  obtain ⟨l1, l2, h1, h2, hp, ⟨hf, _, _⟩ | ⟨w, _, _, he⟩⟩ := exists_cut hs k
  · cases hf.symm.trans h
  have hset : l.set (spot l k).1 (k, v) = l1 ++ (k, v) :: l2 := by
    rw [show (spot l k).1 = l1.length from hp, he]
    simp
  rw [hset]
  rw [he] at hs
  refine ⟨sorted_cut (sorted_of_cons hs) h1 h2 v, fun j => ?_⟩
  rw [lookup_cut h1, he, lookup_cut h1]
  split <;> rfl

theorem insert_spot (hs : Sorted l) (h : (spot l k).2 = false) (v : α) :
    Sorted (l.insertIdx (spot l k).1 (k, v)) ∧
      ∀ j, lookup (l.insertIdx (spot l k).1 (k, v)) j = if j = k then some v else lookup l j := by
  obtain ⟨l1, l2, h1, h2, hp, ⟨_, _, he⟩ | ⟨w, ht, _, _⟩⟩ := exists_cut hs k
  · have hins : l.insertIdx (spot l k).1 (k, v) = l1 ++ (k, v) :: l2 := by
      rw [show (spot l k).1 = l1.length from hp, he]
      exact Lists.insertIdx_append _ _ _
    rw [hins]
    rw [he] at hs
    refine ⟨sorted_cut hs h1 h2 v, fun j => ?_⟩
    rw [lookup_cut h1, he]
  · cases ht.symm.trans h

theorem erase_spot (hs : Sorted l) (h : (spot l k).2 = true) :
    Sorted (l.eraseIdx (spot l k).1) ∧
      ∀ j, lookup (l.eraseIdx (spot l k).1) j = if j = k then none else lookup l j := by
  obtain ⟨l1, l2, h1, h2, hp, ⟨hf, _, _⟩ | ⟨w, _, _, he⟩⟩ := exists_cut hs k
  · cases hf.symm.trans h
  have hset : l.eraseIdx (spot l k).1 = l1 ++ l2 := by
    rw [show (spot l k).1 = l1.length from hp, he]
    exact Lists.eraseIdx_append_cons _ _ _
  rw [hset]
  rw [he] at hs
  refine ⟨sorted_of_cons hs, fun j => ?_⟩
  rw [he, lookup_cut h1]
  by_cases hj : j = k
  · subst hj
    rw [if_pos rfl]
    refine lookup_eq_none fun x hx => ?_
    rcases mem_append.1 hx with hx | hx
    · exact (h1 x hx).ne
    · exact (h2 x hx).ne'
  · rw [if_neg hj, if_neg hj]

theorem point_succ (h1 : ∀ x ∈ l1, x.1 < k) (h2 : ∀ x ∈ l2, k < x.1) (v : α) :
    point (l1 ++ (k, v) :: l2) (k + 1) = l1.length + 1 := by
  have hlow : l1.takeWhile (fun x : Nat × α => decide (x.1 < k + 1)) = l1 := by
    rw [takeWhile_eq_self_iff]
    intro x hx
    simpa using (h1 x hx).trans (Nat.lt_succ_self k)
  have hup : l2.takeWhile (fun x : Nat × α => decide (x.1 < k + 1)) = [] := by
    cases l2 with
    | nil => rfl
    | cons y l =>
      have := h2 y mem_cons_self
      rw [takeWhile_cons_of_neg (by simp; omega)]
  rw [point, takeWhile_append, hlow, if_pos rfl, takeWhile_cons_of_pos (by simp), hup]
  simp

theorem mem_takeWhile (hs : Sorted l) (hx : x ∈ l) {b : Nat} (hb : x.1 < b) :
    x ∈ l.takeWhile (·.1 < b) := by
  induction l with
  | nil => simp at hx
  | cons y l ih =>
    obtain ⟨hy, hl⟩ := pairwise_cons.1 hs
    rcases mem_cons.1 hx with rfl | hx
    · rw [takeWhile_cons_of_pos (by simpa using hb)]
      exact mem_cons_self
    · have := hy x hx
      rw [takeWhile_cons_of_pos (by simp; omega)]
      exact mem_cons_of_mem _ (ih hl hx)

theorem take_point (l : List (Nat × α)) (b : Nat) : l.take (point l b) = l.takeWhile (·.1 < b) :=
  (prefix_iff_eq_take.1 ( takeWhile_prefix _)).symm

/-- The slice between two partition points holds every key between the bounds. -/
theorem mem_slice (hs : Sorted l) (hx : x ∈ l) {a b : Nat} (ha : a ≤ x.1) (hb : x.1 < b) :
    x ∈ (l.take (point l b)).drop (point l a) := by
  rw [take_point]
  induction l with
  | nil => simp at hx
  | cons y l ih =>
    obtain ⟨hy, hl⟩ := pairwise_cons.1 hs
    by_cases hlt : y.1 < a
    · have hne : x ∈ l := by
        rcases mem_cons.1 hx with rfl | hx
        · omega
        · exact hx
      rw [takeWhile_cons_of_pos (by simp; omega), point,
        takeWhile_cons_of_pos (by simpa using hlt), length_cons, drop_succ_cons]
      exact ih hl hne
    · rw [point, takeWhile_cons_of_neg (by simpa using hlt), length_nil, drop_zero]
      exact mem_takeWhile hs hx hb

end

end Table
