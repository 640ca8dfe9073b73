import Mathlib.Data.List.Nodup

/-!
# Lists searched by a key

The first element under a key is the one a search finds, the one an update changes and the one a
removal takes out.  Read as a partial function (`get`), each of these is an update at one key; for
removal the keys must be distinct.
-/

namespace Keyed

open List

variable {α κ : Type*} [DecidableEq κ] (key : α → κ)

def get (l : List α) (k : κ) : Option α := l.find? (key · = k)

/-- Change the first element under `k`. -/
def update (k : κ) (f : α → α) : List α → List α
  | [] => []
  | x :: l => if key x = k then f x :: l else x :: update k f l

def erase (l : List α) (k : κ) : List α := l.eraseP (key · = k)

variable {key} {l : List α} {k : κ}

theorem get_cons (x : α) (l : List α) (k : κ) :
    get key (x :: l) k = if key x = k then some x else get key l k := by
  by_cases h : key x = k <;> simp [get, h]

variable {x : α}

theorem mem_of_get (h : get key l k = some x) : x ∈ l := mem_of_find?_eq_some h

theorem key_of_get (h : get key l k = some x) : key x = k := by
  simpa using List.find?_some h

theorem get_eq_none_iff : get key l k = none ↔ ∀ x ∈ l, key x ≠ k := by
  simp [get]

theorem get_of_mem (hn : (l.map key).Nodup) (hx : x ∈ l) : get key l (key x) = some x := by
  induction l with
  | nil => simp at hx
  | cons y l ih =>
    obtain ⟨hy, hl⟩ := nodup_cons.1 (map_cons ▸ hn)
    rw [get_cons]
    rcases mem_cons.1 hx with rfl | hx
    · exact if_pos rfl
    have hne : key y ≠ key x := by
      intro he
      exact hy (mem_map.2 ⟨x, hx, he.symm⟩)
    rw [if_neg hne, ih hl hx]

theorem get_append (l1 l2 : List α) (k : κ) :
    get key (l1 ++ l2) k = (get key l1 k).or (get key l2 k) := by
  simp only [get, List.find?_append]

theorem get_append_fresh (h : get key l (key x) = none) (j : κ) :
    get key (l ++ [x]) j = if j = key x then some x else get key l j := by
  rw [get_append, get_cons]
  by_cases hj : j = key x
  · subst hj
    simp [h]
  · rw [if_neg (Ne.symm hj), if_neg hj]
    simp [get]

/-- Under distinct keys the order does not matter. -/
theorem get_perm {l' : List α} (hn : (l.map key).Nodup) (hp : l.Perm l') :
    get key l' k = get key l k := by
  cases h : get key l k with
  | some x =>
    have hk := key_of_get h
    subst hk
    exact get_of_mem ((hp.map key).nodup_iff.1 hn) (hp.mem_iff.1 (mem_of_get h))
  | none =>
    rw [get_eq_none_iff] at h ⊢
    exact fun x hx => h x (hp.mem_iff.2 hx)

variable {f : α → α}

theorem get_update (hf : ∀ x, key x = k → key (f x) = k) (j : κ) :
    get key (update key k f l) j = if j = k then (get key l k).map f else get key l j := by
  induction l with
  | nil => simp [update, get]
  | cons x l ih =>
    unfold update
    by_cases hx : key x = k
    · rw [if_pos hx, get_cons, get_cons, get_cons, hf x hx, hx]
      by_cases hj : k = j
      · simp [hj]
      · simp [hj, Ne.symm hj]
    rw [if_neg hx, get_cons, ih, get_cons, get_cons, if_neg hx]
    by_cases hj : key x = j
    · have hne : j ≠ k := fun he => hx (hj.trans he)
      simp [hj, hne]
    · simp [hj]

theorem mem_update (h : x ∈ update key k f l) : x ∈ l ∨ ∃ y ∈ l, x = f y := by
  induction l with
  | nil => cases h
  | cons y l ih =>
    unfold update at h
    split at h
    · rcases mem_cons.1 h with rfl | h
      · exact .inr ⟨y, mem_cons_self, rfl⟩
      · exact .inl (mem_cons_of_mem y h)
    rcases mem_cons.1 h with rfl | h
    · exact .inl mem_cons_self
    · rcases ih h with h | ⟨z, hz, rfl⟩
      · exact .inl (mem_cons_of_mem y h)
      · exact .inr ⟨z, mem_cons_of_mem y hz, rfl⟩

theorem forall₂_update {R : α → α → Prop} (hr : ∀ x ∈ l, R x x)
    (hf : ∀ x, get key l k = some x → R x (f x)) : List.Forall₂ R l (update key k f l) := by
  induction l with
  | nil => exact .nil
  | cons x l ih =>
    unfold update
    have hl : ∀ y ∈ l, R y y := fun y hy => hr y (mem_cons_of_mem x hy)
    split
    · next hx => exact .cons (hf x (by rw [get_cons, if_pos hx])) (forall₂_same.2 hl)
    · next hx =>
      refine .cons (hr x mem_cons_self) (ih hl fun y hy => hf y ?_)
      rw [get_cons, if_neg hx, hy]

theorem update_append_fresh (h : get key l (key x) = none) :
    update key (key x) f (l ++ [x]) = l ++ [f x] := by
  induction l with
  | nil => simp [update]
  | cons y l ih =>
    rw [get_cons] at h
    split at h
    · cases h
    · next hy =>
      rw [cons_append, update, if_neg hy, ih h, cons_append]

theorem map_update (hf : ∀ x, key x = k → key (f x) = k) :
    (update key k f l).map key = l.map key := by
  induction l with
  | nil => rfl
  | cons x l ih =>
    unfold update
    split
    · next hx => rw [map_cons, hf x hx, map_cons, hx]
    · rw [map_cons, ih, map_cons]

theorem erase_eq_filter (hn : (l.map key).Nodup) : erase key l k = l.filter (key · ≠ k) := by
  induction l with
  | nil => rfl
  | cons x l ih =>
    obtain ⟨hx, hl⟩ := nodup_cons.1 (map_cons ▸ hn)
    unfold erase
    by_cases hk : key x = k
    · rw [eraseP_cons_of_pos (by simpa using hk), filter_cons_of_neg (by simpa using hk),
        filter_eq_self.2]
      intro y hy
      have hne : key y ≠ k := fun he => hx (mem_map.2 ⟨y, hy, he.trans hk.symm⟩)
      simpa using hne
    · rw [eraseP_cons_of_neg (by simpa using hk), filter_cons_of_pos (by simpa using hk)]
      exact congrArg (x :: ·) (ih hl)

theorem get_erase (hn : (l.map key).Nodup) (j : κ) :
    get key (erase key l k) j = if j = k then none else get key l j := by
  rw [erase_eq_filter hn, get, List.find?_filter]
  by_cases hj : j = k
  · rw [if_pos hj, find?_eq_none]
    intro x _
    simp only [ne_eq, hj, decide_eq_true_eq, not_and]
    exact fun hne he => hne he
  rw [if_neg hj, get]
  congr 1
  funext x
  by_cases hx : key x = j
  · simp [hx, hj]
  · simp [hx]

theorem nodup_erase (hn : (l.map key).Nodup) : ((erase key l k).map key).Nodup :=
  hn.sublist (eraseP_sublist.map key)

theorem nodup_append (hn : (l.map key).Nodup) (h : get key l (key x) = none) :
    ((l ++ [x]).map key).Nodup := by
  rw [map_append, List.nodup_append]
  refine ⟨hn, by simp, ?_⟩
  intro a ha b hb
  obtain ⟨y, hy, rfl⟩ := mem_map.1 ha
  obtain rfl : b = key x := by simpa using hb
  exact get_eq_none_iff.1 h y hy

theorem get_filter (hn : (l.map key).Nodup) (p : α → Bool) :
    get key (l.filter p) k = (get key l k).filter p := by
  induction l with
  | nil => rfl
  | cons x l ih =>
    obtain ⟨hx, hl⟩ := nodup_cons.1 (map_cons ▸ hn)
    rw [get_cons]
    by_cases hk : key x = k
    · rw [if_pos hk, filter_cons]
      cases hp : p x with
      | true => simp [get_cons, hk, hp, Option.filter]
      | false =>
        have hnone : get key l k = none := by
          rw [get_eq_none_iff]
          exact fun y hy he => hx (mem_map.2 ⟨y, hy, he.trans hk.symm⟩)
        simp [ih hl, hnone, hp, Option.filter]
    rw [if_neg hk, filter_cons]
    split
    · rw [get_cons, if_neg hk, ih hl]
    · exact ih hl

theorem get_filter_key (q : κ → Bool) :
    get key (l.filter fun x => q (key x)) k = if q k then get key l k else none := by
  induction l with
  | nil => simp [get]
  | cons x l ih =>
    rw [filter_cons, get_cons]
    by_cases hk : key x = k
    · subst hk
      cases hq : q (key x) with
      | true => simp [get_cons]
      | false => simpa [hq] using ih
    split
    · rw [get_cons, if_neg hk, ih]
    · exact ih

/-- Under distinct keys one element at most changes. -/
theorem update_eq_map (hn : (l.map key).Nodup) :
    update key k f l = l.map fun x => if key x = k then f x else x := by
  induction l with
  | nil => rfl
  | cons x l ih =>
    obtain ⟨hx, hl⟩ := nodup_cons.1 (map_cons ▸ hn)
    unfold update
    split
    · next hk =>
      have hsame : l.map (fun y => if key y = k then f y else y) = l.map id :=
        map_congr_left fun y hy =>
          if_neg fun he => hx (mem_map.2 ⟨y, hy, he.trans hk.symm⟩)
      rw [map_cons, if_pos hk, hsame, map_id]
    · next hk => rw [map_cons, if_neg hk, ih hl]

end Keyed
