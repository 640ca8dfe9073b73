import Mathlib.Data.List.Count
import Mathlib.Data.List.Nodup

/-!
# Stacks in memory

Nodes are naturals and the memory gives every node the one below it.  `Chain m h l` says that from
the head `h` the stack is exactly `l`.
-/

namespace Stacks

open List Function

/-- What each node says comes next. -/
abbrev Memory := Nat → Option Nat

/-- The nodes `l`, from the head down. -/
def Chain (m : Memory) : Option Nat → List Nat → Prop
  | h, [] => h = none
  | h, x :: l => h = some x ∧ Chain m (m x) l

/-- Goes down a stack and puts the nodes that are not dropped on another; `none` when the fuel does
not reach. -/
def sift (dropped : Nat → Bool) : Nat → Memory → Option Nat →
    Option Nat → Option (Memory × Option Nat)
  | _, m, none, keep => some (m, keep)
  | 0, _, some _, _ => none
  | fuel + 1, m, some x, keep =>
    if dropped x then sift dropped fuel m (m x) keep
    else sift dropped fuel (update m x keep) (m x) (some x)

/-- Makes `n` nodes at a distance of `size` each point to the next. -/
def row (m : Memory) (size : Nat) : Nat → Nat → Memory
  | _, 0 => m
  | a, n + 1 => row (update m a (some (a + size))) size (a + size) n

section

variable {m m' : Memory} {h : Option Nat} {l : List Nat} {x : Nat}

theorem chain_congr (hm : ∀ x ∈ l, m' x = m x) : Chain m' h l ↔ Chain m h l := by
  induction l generalizing h with
  | nil => rfl
  | cons x l ih =>
    simp only [Chain]
    rw [hm x mem_cons_self, ih fun y hy => hm y (mem_cons_of_mem _ hy)]

theorem Chain.head_eq (hl : Chain m h l) : h = l.head? := by
  cases l with
  | nil => exact hl
  | cons x l => exact hl.1

theorem chain_update (hl : Chain m h l) (hx : x ∉ l) (v : Option Nat) :
    Chain (update m x v) h l :=
  (chain_congr fun _ hy => update_of_ne (ne_of_mem_of_not_mem hy hx) _ _).2 hl

/-- A write on top. -/
theorem chain_push (hl : Chain m h l) (hx : x ∉ l) :
    Chain (update m x h) (some x) (x :: l) := by
  refine ⟨rfl, ?_⟩
  rw [update_self]
  exact chain_update hl hx h

theorem Chain.below {l1 l2 : List Nat} (hl : Chain m h (l1 ++ x :: l2)) : Chain m (m x) l2 := by
  induction l1 generalizing h with
  | nil => exact hl.2
  | cons y l1 ih => exact ih hl.2

theorem Chain.unique {l' : List Nat} (hl : Chain m h l) (hl' : Chain m h l') : l = l' := by
  induction l generalizing h l' with
  | nil =>
    cases l' with
    | nil => rfl
    | cons x l' => cases hl.symm.trans hl'.1
  | cons x l ih =>
    cases l' with
    | nil => cases hl'.symm.trans hl.1
    | cons y l' =>
      obtain rfl := Option.some.inj (hl.1.symm.trans hl'.1)
      rw [ih hl.2 hl'.2]

/-- Another stack below one of the nodes. -/
theorem chain_splice {l1 l2 l3 : List Nat} {q : Option Nat} (hl : Chain m h (l1 ++ x :: l2))
    (hq : Chain m q l3) (h1 : x ∉ l1) (h3 : x ∉ l3) :
    Chain (update m x q) h (l1 ++ x :: l3) := by
  induction l1 generalizing h with
  | nil =>
    refine ⟨hl.1, ?_⟩
    rw [update_self]
    exact chain_update hq h3 q
  | cons y l1 ih =>
    obtain ⟨hy, h1⟩ := not_or.1 (mt mem_cons.2 h1)
    refine ⟨hl.1, ?_⟩
    rw [update_of_ne (Ne.symm hy)]
    exact ih hl.2 h1

/-- Taking nodes out of a stack, which turns the rest around. -/
theorem sift_spec {dropped : Nat → Bool} {fuel : Nat} {keep keep' : Option Nat} {kept : List Nat}
    (hl : Chain m h l) (hk : Chain m keep kept) (hn : l.Nodup) (hdis : ∀ x ∈ l, x ∉ kept)
    (hs : sift dropped fuel m h keep = some (m', keep')) :
    Chain m' keep' ((l.filter (!dropped ·)).reverse ++ kept) ∧ ∀ x, x ∉ l → m' x = m x := by
  induction l generalizing m h keep kept fuel with
  | nil =>
    obtain rfl : h = none := hl
    have hs : some (m, keep) = some (m', keep') := by cases fuel <;> exact hs
    cases hs
    exact ⟨hk, fun _ _ => rfl⟩
  | cons x l ih =>
    obtain ⟨rfl, hl⟩ := hl
    obtain ⟨hx, hn⟩ := nodup_cons.1 hn
    have hdis' : ∀ y ∈ l, y ∉ kept := fun y hy => hdis y (mem_cons_of_mem _ hy)
    cases fuel with
    | zero => simp [sift] at hs
    | succ fuel =>
      unfold sift at hs
      split at hs
      · next hd =>
        obtain ⟨h1, h2⟩ := ih hl hk hn hdis' hs
        rw [filter_cons_of_neg (by simp [hd])]
        exact ⟨h1, fun y hy => h2 y fun hm => hy (mem_cons_of_mem _ hm)⟩
      next hd =>
      have hxk := hdis x mem_cons_self
      obtain ⟨h1, h2⟩ := ih (chain_update hl hx keep) (chain_push hk hxk) hn (fun y hy hm => by
        rcases mem_cons.1 hm with rfl | hm
        · exact hx hy
        · exact hdis' y hy hm) hs
      rw [filter_cons_of_pos (by simpa using hd), reverse_cons, append_assoc]
      refine ⟨h1, fun y hy => ?_⟩
      have hyx : y ≠ x := fun he => hy (he ▸ mem_cons_self)
      rw [h2 y fun hm => hy (mem_cons_of_mem _ hm), update_of_ne hyx]

theorem row_of_lt {size a n y : Nat} (hy : y < a) : row m size a n y = m y := by
  induction n generalizing m a with
  | zero => rfl
  | succ n ih =>
    unfold row
    rw [ih (by omega), update_of_ne (by omega)]

theorem row_of_not_mem {size a n y : Nat} (hy : y ∉ List.range' a n size) :
    row m size a n y = m y := by
  induction n generalizing m a with
  | zero => rfl
  | succ n ih =>
    rw [List.range'_succ, mem_cons, not_or] at hy
    unfold row
    rw [ih hy.2, update_of_ne hy.1]

/-- Nodes at equal distances, each pointing to the next. -/
theorem chain_row {size a n : Nat} (hs : 0 < size) :
    Chain (update (row m size a n) (a + n * size) none) (some a)
      (List.range' a (n + 1) size) := by
  induction n generalizing m a with
  | zero => simp [Chain, row]
  | succ n ih =>
    have hend : a + size + n * size = a + (n + 1) * size := by
      rw [Nat.add_mul, Nat.one_mul]
      omega
    refine ⟨rfl, ?_⟩
    rw [update_of_ne (by omega)]
    unfold row
    rw [row_of_lt (by omega), update_self, ← hend]
    exact ih

end

end Stacks
