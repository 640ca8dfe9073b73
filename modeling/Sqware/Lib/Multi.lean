import Mathlib.Data.List.TakeWhile
import Sqware.Lib.Lists

/-!
# Lists sorted by a key that repeats

Entries under one key form a run.  A search goes to the partition point of the smaller keys and
reads on while the key is the one wanted; a new entry goes behind the run of its key.
-/

namespace Multi

open List

variable {α : Type*} (key : α → Nat)

def Sorted (l : List α) : Prop := l.Pairwise fun x y => key x ≤ key y

/-- The number of entries under keys smaller than `k`. -/
def below (l : List α) (k : Nat) : Nat := (l.takeWhile (key · < k)).length

/-- The run of entries under `k`. -/
def run (l : List α) (k : Nat) : List α := (l.drop (below key l k)).takeWhile (key · = k)

def insert (l : List α) (x : α) : List α :=
  l.insertIdx (l.takeWhile (key · ≤ key x)).length x

/-- Remove the first entry of the run under `k` with the property. -/
def remove (l : List α) (k : Nat) (p : α → Bool) : List α :=
  match (run key l k).findIdx? p with
  | none => l
  | some i => l.eraseIdx (below key l k + i)

variable {key} {l : List α} {k : Nat}

theorem drop_below (l : List α) (k : Nat) : l.drop (below key l k) = l.dropWhile (key · < k) := by
  have h := @List.drop_left _ (l.takeWhile (key · < k)) (l.dropWhile (key · < k))
  rwa [takeWhile_append_dropWhile] at h

/-- A sorted list around a key: smaller keys, the run, larger keys. -/
theorem exists_cut (hs : Sorted key l) (k : Nat) :
    ∃ l1 l2, l = l1 ++ (run key l k ++ l2) ∧ below key l k = l1.length ∧
      (∀ x ∈ l1, key x < k) ∧ (∀ x ∈ run key l k, key x = k) ∧ ∀ x ∈ l2, k < key x := by
  have hcut : l = l.takeWhile (key · < k) ++ (run key l k ++
      (l.dropWhile (key · < k)).dropWhile (key · = k)) := by
    rw [run, drop_below, takeWhile_append_dropWhile, takeWhile_append_dropWhile]
  refine ⟨_, _, hcut, rfl, ?_, ?_, ?_⟩
  · intro x hx
    simpa using mem_takeWhile_imp hx
  · intro x hx
    simpa using mem_takeWhile_imp hx
  -- the first entry behind the run is neither smaller nor equal, and the rest are no smaller
  intro x hx
  have hs1 : Sorted key (l.dropWhile (key · < k)) := hs.sublist (dropWhile_sublist _)
  have hs2 := hs1.sublist (dropWhile_sublist (p := fun x => decide (key x = k)))
  cases hd : (l.dropWhile (key · < k)).dropWhile (key · = k) with
  | nil => simp [hd] at hx
  | cons y l2 =>
    have hy : key y ≠ k := by
      have := dropWhile_get_zero_not (fun x => decide (key x = k))
        (l.dropWhile (key · < k)) (by rw [hd]; simp)
      simpa [hd] using this
    have hge : ∀ z ∈ l.dropWhile (key · < k), k ≤ key z := by
      cases he : l.dropWhile (key · < k) with
      | nil => simp
      | cons z0 l0 =>
        have hz0 : k ≤ key z0 := by
          have := dropWhile_get_zero_not (fun x => decide (key x < k)) l
            (by rw [he]; simp)
          simpa [he] using this
        rw [he] at hs1
        intro z hz
        rcases mem_cons.1 hz with rfl | hz
        · exact hz0
        · exact hz0.trans ((pairwise_cons.1 hs1).1 z hz)
    have hky : k < key y := by
      have hm : y ∈ l.dropWhile (key · < k) := by
        refine (dropWhile_sublist (p := fun x => decide (key x = k))).subset ?_
        rw [hd]
        exact mem_cons_self
      have := hge y hm
      omega
    rw [hd] at hx hs2
    rcases mem_cons.1 hx with rfl | hx
    · exact hky
    · exact hky.trans_le ((pairwise_cons.1 hs2).1 x hx)

theorem run_eq_filter (hs : Sorted key l) (k : Nat) : run key l k = l.filter (key · = k) := by
  obtain ⟨l1, l2, hl, _, h1, hr, h2⟩ := exists_cut hs k
  conv => rhs; rw [hl]
  rw [filter_append, filter_append, filter_eq_nil_iff.2, filter_eq_self.2,
    filter_eq_nil_iff.2]
  · simp
  · intro x hx
    have := h2 x hx
    simp; omega
  · intro x hx
    simpa using hr x hx
  · intro x hx
    have := h1 x hx
    simp; omega

theorem mem_run (hs : Sorted key l) {x : α} : x ∈ run key l k ↔ x ∈ l ∧ key x = k := by
  rw [run_eq_filter hs, mem_filter, decide_eq_true_eq]

theorem insert_perm (l : List α) (x : α) : (insert key l x).Perm (x :: l) :=
  perm_insertIdx _ _ ( takeWhile_prefix _).length_le

theorem mem_insert {x y : α} : y ∈ insert key l x ↔ y = x ∨ y ∈ l := by
  rw [(insert_perm l x).mem_iff, mem_cons]

theorem insert_sorted (hs : Sorted key l) (x : α) : Sorted key (insert key l x) := by
  have happ : l = l.takeWhile (key · ≤ key x) ++ l.dropWhile (key · ≤ key x) :=
    takeWhile_append_dropWhile.symm
  have hins : insert key l x = l.takeWhile (key · ≤ key x) ++ x :: l.dropWhile (key · ≤ key x) := by
    have h := Lists.insertIdx_append (l.takeWhile (key · ≤ key x)) x (l.dropWhile (key · ≤ key x))
    rwa [← happ] at h
  have hs' := hs
  rw [Sorted, happ, pairwise_append] at hs'
  obtain ⟨h1, h2, h12⟩ := hs'
  have hlow : ∀ y ∈ l.takeWhile (key · ≤ key x), key y ≤ key x := by
    intro y hy
    simpa using mem_takeWhile_imp hy
  have hup : ∀ y ∈ l.dropWhile (key · ≤ key x), key x ≤ key y := by
    cases hd : l.dropWhile (key · ≤ key x) with
    | nil => simp
    | cons z l0 =>
      have hz : key x < key z := by
        have := dropWhile_get_zero_not (fun y => decide (key y ≤ key x)) l (by rw [hd]; simp)
        simpa [hd] using this
      rw [hd] at h2
      intro y hy
      rcases mem_cons.1 hy with rfl | hy
      · exact hz.le
      · exact hz.le.trans ((pairwise_cons.1 h2).1 y hy)
  rw [hins, Sorted, pairwise_append]
  refine ⟨h1, pairwise_cons.2 ⟨hup, h2⟩, ?_⟩
  intro y hy z hz
  rcases mem_cons.1 hz with rfl | hz
  · exact hlow y hy
  · exact h12 y hy z hz

theorem findIdx?_run {r : List α} (hr : ∀ x ∈ r, key x = k) (p : α → Bool) :
    r.findIdx? (fun x => decide (key x = k) && p x) = r.findIdx? p := by
  induction r with
  | nil => rfl
  | cons x r ih =>
    rw [List.findIdx?_cons, List.findIdx?_cons, ih fun y hy => hr y (mem_cons_of_mem x hy)]
    simp [hr x mem_cons_self]

/-- Removal takes out the first entry with the key and the property. -/
theorem remove_eq (hs : Sorted key l) (p : α → Bool) :
    remove key l k p = l.eraseP fun x => decide (key x = k) && p x := by
  obtain ⟨l1, l2, hl, hb, h1, hr, h2⟩ := exists_cut hs k
  have hn1 : ∀ x ∈ l1, ¬ (decide (key x = k) && p x) = true := by
    intro x hx
    have := h1 x hx
    simp; omega
  have hn2 : ∀ x ∈ l2, ¬ (decide (key x = k) && p x) = true := by
    intro x hx
    have := h2 x hx
    simp; omega
  unfold remove
  cases hi : (run key l k).findIdx? p with
  | none =>
    refine (eraseP_of_forall_not fun x hx => ?_).symm
    rw [hl] at hx
    rcases mem_append.1 hx with hx | hx
    · exact hn1 x hx
    · rcases mem_append.1 hx with hx | hx
      · simp [findIdx?_eq_none_iff.1 hi x hx]
      · exact hn2 x hx
  | some i =>
    have hidx : l.findIdx? (fun x => decide (key x = k) && p x) = some (below key l k + i) := by
      conv => lhs; rw [hl]
      rw [List.findIdx?_append, List.findIdx?_append, findIdx?_run hr, hi,
        findIdx?_eq_none_iff.2 fun x hx => by simpa using hn1 x hx, hb]
      simp [Nat.add_comm]
    rw [eraseP_eq_eraseIdx, hidx]

end Multi
