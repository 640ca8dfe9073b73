import Mathlib.Data.List.Chain
import Mathlib.Data.List.Nodup

/-!
# An arena cut into pieces

A row of pieces, used and free, that lie end to end from `a` to `b`.  The row is coalesced when no
two free pieces are neighbours; then the free pieces among themselves are never adjacent, and a row
of free pieces only is a single one.
-/

namespace Arena

open List

/-- A piece of the arena, free or in use. -/
structure Piece where
  start : Nat
  size : Nat
  free : Bool
  deriving DecidableEq, Repr

/-- The first address after a piece. -/
def Piece.stop (x : Piece) : Nat := x.start + x.size

/-- The pieces lie end to end from `a` to `b`. -/
def Tiling : Nat → List Piece → Nat → Prop
  | a, [], b => a = b
  | a, x :: l, b => x.start = a ∧ 0 < x.size ∧ Tiling x.stop l b

/-- No two free pieces are neighbours. -/
def Coalesced (l : List Piece) : Prop := l.IsChain fun x y => ¬ (x.free = true ∧ y.free = true)

def StartsUsed (l : List Piece) : Prop := ∀ x ∈ l.head?, x.free = false

def EndsUsed (l : List Piece) : Prop := ∀ x ∈ l.getLast?, x.free = false

def frees (l : List Piece) : List Piece := l.filter (·.free)

def useds (l : List Piece) : List Piece := l.filter (!·.free)

section

variable {a b : Nat} {l l1 l2 : List Piece} {x y : Piece}

@[simp] theorem frees_append : frees (l1 ++ l2) = frees l1 ++ frees l2 := filter_append ..

@[simp] theorem useds_append : useds (l1 ++ l2) = useds l1 ++ useds l2 := filter_append ..

theorem frees_cons_free (h : x.free = true) : frees (x :: l) = x :: frees l :=
  filter_cons_of_pos h

theorem frees_cons_used (h : x.free = false) : frees (x :: l) = frees l :=
  filter_cons_of_neg (by simp [h])

theorem useds_cons_free (h : x.free = true) : useds (x :: l) = useds l :=
  filter_cons_of_neg (by simp [h])

theorem useds_cons_used (h : x.free = false) : useds (x :: l) = x :: useds l :=
  filter_cons_of_pos (by simp [h])

theorem mem_frees : x ∈ frees l ↔ x ∈ l ∧ x.free = true := mem_filter

theorem mem_useds : x ∈ useds l ↔ x ∈ l ∧ x.free = false := by
  simp [useds, mem_filter]

theorem tiling_append : Tiling a (l1 ++ l2) b ↔ ∃ c, Tiling a l1 c ∧ Tiling c l2 b := by
  induction l1 generalizing a with
  | nil => simp [Tiling]
  | cons x l1 ih =>
    simp only [cons_append, Tiling, ih]
    constructor
    · rintro ⟨h1, h2, c, h3, h4⟩
      exact ⟨c, ⟨h1, h2, h3⟩, h4⟩
    · rintro ⟨c, ⟨h1, h2, h3⟩, h4⟩
      exact ⟨h1, h2, c, h3, h4⟩

theorem Tiling.le (h : Tiling a l b) : a ≤ b := by
  induction l generalizing a with
  | nil => exact h.le
  | cons x l ih =>
    obtain ⟨rfl, h1, h2⟩ := h
    have := ih h2
    unfold Piece.stop at this
    omega

theorem Tiling.inside (h : Tiling a l b) (hx : x ∈ l) : a ≤ x.start ∧ 0 < x.size ∧ x.stop ≤ b := by
  induction l generalizing a with
  | nil => simp at hx
  | cons y l ih =>
    obtain ⟨rfl, h1, h2⟩ := h
    rcases mem_cons.1 hx with rfl | hx
    · exact ⟨le_rfl, h1, h2.le⟩
    · obtain ⟨h3, h4⟩ := ih h2 hx
      unfold Piece.stop at h3
      exact ⟨by omega, h4⟩

theorem Tiling.pairwise (h : Tiling a l b) : l.Pairwise fun x y => x.stop ≤ y.start := by
  induction l generalizing a with
  | nil => exact .nil
  | cons x l ih =>
    obtain ⟨rfl, h1, h2⟩ := h
    exact pairwise_cons.2 ⟨fun y hy => (h2.inside hy).1, ih h2⟩

theorem Tiling.starts (h : Tiling a l b) : (l.map Piece.start).Pairwise (· < ·) := by
  refine pairwise_map.2 (h.pairwise.imp_of_mem fun {x y} hx _ hxy => ?_)
  have := (h.inside hx).2.1
  unfold Piece.stop at hxy
  omega

theorem Tiling.nodup_frees (h : Tiling a l b) : ((frees l).map Piece.start).Nodup :=
  (h.starts.sublist (filter_sublist.map _)).imp fun h => h.ne

/-- Pieces of at least `k` bytes: there are not many. -/
theorem Tiling.length_mul_le (h : Tiling a l b) {k : Nat} (hk : ∀ x ∈ l, k ≤ x.size) :
    a + l.length * k ≤ b := by
  induction l generalizing a with
  | nil => simp [h.le]
  | cons x l ih =>
    obtain ⟨rfl, h1, h2⟩ := h
    have h3 := ih h2 fun y hy => hk y (mem_cons_of_mem _ hy)
    have h4 := hk x mem_cons_self
    rw [length_cons, Nat.add_mul, Nat.one_mul]
    unfold Piece.stop at h3
    omega

/-! ## Coalesced rows -/

theorem coalesced_used (hx : x.free = false) :
    Coalesced (l1 ++ x :: l2) ↔ Coalesced l1 ∧ Coalesced l2 := by
  unfold Coalesced
  rw [isChain_append, isChain_cons]
  simp [hx]

theorem coalesced_free (hx : x.free = true) :
    Coalesced (l1 ++ x :: l2) ↔ Coalesced l1 ∧ Coalesced l2 ∧ EndsUsed l1 ∧ StartsUsed l2 := by
  unfold Coalesced EndsUsed StartsUsed
  rw [isChain_append, isChain_cons]
  simp [hx]
  tauto

theorem coalesced_cons_used (hx : x.free = false) : Coalesced (x :: l) ↔ Coalesced l := by
  unfold Coalesced
  rw [isChain_cons]
  simp [hx]

theorem coalesced_cons_free (hx : x.free = true) :
    Coalesced (x :: l) ↔ Coalesced l ∧ StartsUsed l := by
  unfold Coalesced StartsUsed
  rw [isChain_cons]
  simp [hx, and_comm]

theorem not_free_last (h : EndsUsed (l ++ [x])) : x.free = false := h x (by simp)

/-- A free piece in front of a used one ends before it. -/
theorem Tiling.free_before (h : Tiling a l b) (he : EndsUsed l) (hx : x ∈ l) (hf : x.free = true) :
    x.stop < b := by
  rcases eq_nil_or_concat l with rfl | ⟨l', y, rfl⟩
  · simp at hx
  rw [concat_eq_append] at *
  obtain ⟨c, h1, rfl, h2, rfl⟩ := tiling_append.1 h
  rcases mem_append.1 hx with hx | hx
  · have := (h1.inside hx).2.2
    unfold Piece.stop at *
    omega
  · rw [mem_singleton.1 hx, not_free_last he] at hf
    simp at hf

/-- A free piece behind a used one starts after it. -/
theorem Tiling.free_after (h : Tiling a l b) (hs : StartsUsed l) (hx : x ∈ l) (hf : x.free = true) :
    a < x.start := by
  cases l with
  | nil => simp at hx
  | cons y l =>
    obtain ⟨rfl, h1, h2⟩ := h
    rcases mem_cons.1 hx with rfl | hx
    · simp [hs x rfl] at hf
    · have := (h2.inside hx).1
      unfold Piece.stop at this
      omega

/-- Free pieces of a coalesced row keep a gap. -/
theorem Tiling.free_apart (h : Tiling a l b) (hc : Coalesced l) :
    (frees l).Pairwise fun x y => x.stop < y.start := by
  induction l generalizing a with
  | nil => exact .nil
  | cons x l ih =>
    obtain ⟨rfl, h1, h2⟩ := h
    cases hx : x.free with
    | false =>
      rw [frees_cons_used hx]
      exact ih h2 ((coalesced_cons_used hx).1 hc)
    | true =>
      obtain ⟨hc2, hs⟩ := (coalesced_cons_free hx).1 hc
      rw [frees_cons_free hx]
      refine pairwise_cons.2 ⟨fun y hy => ?_, ih h2 hc2⟩
      obtain ⟨hy, hf⟩ := mem_frees.1 hy
      exact h2.free_after hs hy hf

/-- Nothing used, one piece. -/
theorem Tiling.single (h : Tiling a l b) (hc : Coalesced l) (hab : a < b) (hu : useds l = []) :
    l = [⟨a, b - a, true⟩] := by
  have hfree : ∀ x ∈ l, x.free = true := by
    intro x hx
    cases hf : x.free with
    | true => rfl
    | false => exact absurd (mem_useds.2 ⟨hx, hf⟩) (by simp [hu])
  cases l with
  | nil => exact absurd h hab.ne
  | cons x l =>
    obtain ⟨rfl, h1, h2⟩ := h
    have hx := hfree x mem_cons_self
    obtain ⟨_, hs⟩ := (coalesced_cons_free hx).1 hc
    cases l with
    | nil =>
      obtain ⟨start, size, free⟩ := x
      obtain rfl : start + size = b := h2
      simp_all
    | cons y l =>
      have h3 := hfree y (by simp)
      rw [hs y rfl] at h3
      simp at h3

end

end Arena
