import Sqware.Lib.Arena
import Sqware.Spare.Inner

/-!
# The spare heap, from start to end

`Shape s T` reads a heap as a row `T` of pieces from `base` to `edge`, the free ones linked in the
order of their addresses.  Allocations and deallocations are edits of that row.
-/

namespace Sqware.Spare

open Links Arena SpareInner List Option Function

/-- A piece that has its header. -/
structure Formed (s : SpareInner) (x : Piece) : Prop where
  size : s.sizes x.start = x.size
  header : HEADER ≤ x.size
  aligned : MAX_ALIGN ∣ x.start

/-- A heap laid out as the row `T`. -/
structure Laid (s : SpareInner) (T : List Piece) : Prop where
  tiling : Tiling s.base T s.edge
  linked : Linked s.links none s.head ((frees T).map Piece.start)
  formed : ∀ x ∈ T, Formed s x

/-- As `Laid`, with no free neighbours. -/
structure Shape (s : SpareInner) (T : List Piece) : Prop extends Laid s T where
  coalesced : Coalesced T

def SpareInner.range (s : SpareInner) : Nat × Nat := (s.base, s.edge)

section

variable {s : SpareInner} {T A B : List Piece} {x y p : Piece}

theorem shape_new {base edge : Nat} (hb : MAX_ALIGN ∣ base) (he : base + HEADER ≤ edge)
    (links : Memory) (sizes : Nat → Nat) :
    Shape (new base edge links sizes) [⟨base, edge - base, true⟩] := by
  have hh : 0 < HEADER := by decide
  refine ⟨⟨⟨rfl, by dsimp only; omega, ?_⟩, ?_, ?_⟩, isChain_singleton _⟩
  · change base + (edge - base) = edge
    omega
  · simp [frees, new, write, Linked]
  · rw [forall_mem_singleton]
    exact ⟨by simp [new, write], by dsimp only; omega, hb⟩

theorem Formed.payload (h : Formed s x) : s.payload x.start = some (x.size - HEADER) := by
  rw [SpareInner.payload, checkedSub_eq_some, h.size]
  exact ⟨h.header, rfl⟩

theorem Formed.congr {s' : SpareInner} (h : Formed s x) (hs : s'.sizes x.start = s.sizes x.start)
    (hst : y.start = x.start) (hsz : y.size = x.size) : Formed s' y :=
  ⟨by rw [hst, hsz, hs, h.size], hsz ▸ h.header, hst ▸ h.aligned⟩

/-! ## The list -/

theorem Laid.length_le (h : Laid s T) : (frees T).length ≤ s.fuel := by
  have h1 := h.tiling.length_mul_le fun x hx => (h.formed x hx).header
  have h2 : (frees T).length ≤ T.length := length_filter_le _ _
  refine h2.trans ((Nat.le_div_iff_mul_le (by decide)).2 ?_)
  omega

theorem linked_of_unlink {l1 l2 : List Nat} {a : Nat}
    (h : Linked s.links none s.head (l1 ++ a :: l2)) (hn : (l1 ++ a :: l2).Nodup) :
    Linked (s.unlink a).links none (s.unlink a).head (l1 ++ l2) := by
  have hl := linked_unlink h hn
  have hprev := h.prev_eq
  unfold SpareInner.unlink
  rcases eq_nil_or_concat l1 with rfl | ⟨l, w, rfl⟩
  · rw [List.getLast?_nil] at hprev
    simpa [hprev] using hl
  · rw [concat_eq_append, List.getLast?_concat] at hprev
    simpa [hprev] using hl

theorem linked_of_link {l1 l2 : List Nat} {a : Nat} {p q n : Option Nat}
    (hp : Part s.links none s.head l1 q) (hl : Linked s.links p n l2) (hn : (l1 ++ a :: l2).Nodup) :
    Linked (s.link a l1.getLast? n).links none (s.link a l1.getLast? n).head (l1 ++ a :: l2) := by
  have h := linked_between hp hl hn
  unfold link
  rcases eq_nil_or_concat l1 with rfl | ⟨l, w, rfl⟩
  · simpa using h
  · rw [concat_eq_append, List.getLast?_concat] at *
    simpa using h

/-- The walk ends, at a block that is large enough or at the end of the list. -/
theorem firstFit_spec (need : Nat) {l : List Piece} {q h : Option Nat} {fuel : Nat}
    (hl : Linked s.links q h (l.map Piece.start)) (hx : ∀ x ∈ l, Formed s x)
    (hf : l.length ≤ fuel) :
    ∃ r, s.firstFit need fuel h = some r ∧
      ∀ blk, r = some blk → ∃ x ∈ l, x.start = blk ∧ HEADER + need ≤ x.size := by
  induction l generalizing q h fuel with
  | nil =>
    obtain rfl : h = none := hl
    exact ⟨none, by cases fuel <;> rfl, by simp⟩
  | cons x l ih =>
    obtain ⟨rfl, _, hl⟩ := hl
    cases fuel with
    | zero => simp at hf
    | succ fuel =>
      have hform := hx x mem_cons_self
      have hpay := hform.payload
      have hheader := hform.header
      unfold firstFit
      rw [hpay, bind_some]
      split
      · refine ⟨some x.start, rfl, ?_⟩
        rintro _ ⟨⟩
        exact ⟨x, mem_cons_self, rfl, by omega⟩
      obtain ⟨r, hr, hfit⟩ := ih hl (fun y hy => hx y (mem_cons_of_mem _ hy)) (by simpa using hf)
      refine ⟨r, hr, fun blk hblk => ?_⟩
      obtain ⟨y, hy, hrest⟩ := hfit blk hblk
      exact ⟨y, mem_cons_of_mem _ hy, hrest⟩

/-- The walk stops between the blocks below the address and those above it. -/
theorem neighbours_spec {addr : Nat} {l1 l2 : List Nat} {q h : Option Nat} {fuel : Nat}
    (hl : Linked s.links q h (l1 ++ l2)) (h1 : ∀ a ∈ l1, a < addr) (h2 : ∀ a ∈ l2, addr < a)
    (hf : (l1 ++ l2).length ≤ fuel) :
    s.neighbours addr fuel q h = some (l1.getLast?.or q, l2.head?) := by
  induction l1 generalizing q h fuel with
  | nil =>
    cases l2 with
    | nil =>
      obtain rfl : h = none := hl
      cases fuel <;> rfl
    | cons b l2 =>
      obtain ⟨rfl, _⟩ := hl
      cases fuel with
      | zero => simp at hf
      | succ fuel =>
        unfold neighbours
        rw [if_pos (h2 b mem_cons_self)]
        rfl
  | cons a l1 ih =>
    obtain ⟨rfl, _, hl⟩ := hl
    cases fuel with
    | zero => simp at hf
    | succ fuel =>
      have ha := h1 a mem_cons_self
      unfold neighbours
      rw [if_neg (by omega), ih hl (fun b hb => h1 b (mem_cons_of_mem _ hb)) (by simpa using hf),
        getLast?_cons_or]

/-! ## Edits of the row -/

theorem Laid.around (h : Laid s (A ++ x :: B)) :
    Tiling s.base A x.start ∧ 0 < x.size ∧ Tiling x.stop B s.edge := by
  obtain ⟨_, h1, rfl, h2, h3⟩ := tiling_append.1 h.tiling
  exact ⟨h1, h2, h3⟩

theorem Laid.free_linked (h : Laid s (A ++ x :: B)) (hx : x.free = true) :
    Linked s.links none s.head
      ((frees A).map Piece.start ++ x.start :: (frees B).map Piece.start) := by
  have := h.linked
  rwa [frees_append, frees_cons_free hx, map_append, map_cons] at this

theorem Laid.free_nodup (h : Laid s (A ++ x :: B)) (hx : x.free = true) :
    ((frees A).map Piece.start ++ x.start :: (frees B).map Piece.start).Nodup := by
  have := h.tiling.nodup_frees
  rwa [frees_append, frees_cons_free hx, map_append, map_cons] at this

theorem Laid.formed_around (h : Laid s (A ++ x :: B)) :
    (∀ y ∈ A, Formed s y) ∧ Formed s x ∧ ∀ y ∈ B, Formed s y := by
  have := h.formed
  rwa [forall_mem_append, forall_mem_cons] at this

theorem Laid.ne_around (h : Laid s (A ++ x :: B)) :
    (∀ y ∈ A, y.start < x.start) ∧ ∀ y ∈ B, x.start < y.start := by
  obtain ⟨h1, h2, h3⟩ := h.around
  refine ⟨fun y hy => ?_, fun y hy => ?_⟩
  · have := h1.inside hy
    unfold Piece.stop at this
    omega
  · have := (h3.inside hy).1
    unfold Piece.stop at this
    omega

/-- A block that is taken whole. -/
theorem Laid.take (h : Laid s (A ++ x :: B)) (hx : x.free = true) :
    Laid (s.unlink x.start) (A ++ { x with free := false } :: B) := by
  obtain ⟨h1, h2, h3⟩ := h.around
  obtain ⟨hA, hform, hB⟩ := h.formed_around
  refine ⟨tiling_append.2 ⟨_, h1, rfl, h2, h3⟩, ?_, ?_⟩
  · rw [frees_append, frees_cons_used rfl, map_append]
    exact linked_of_unlink (h.free_linked hx) (h.free_nodup hx)
  · rw [forall_mem_append, forall_mem_cons]
    exact ⟨fun y hy => (hA y hy).congr rfl rfl rfl, hform.congr rfl rfl rfl,
      fun y hy => (hB y hy).congr rfl rfl rfl⟩

/-- A block that comes back, before it is joined with others. -/
theorem Laid.give (h : Laid s (A ++ x :: B)) (hx : x.free = false) :
    Laid (s.link x.start ((frees A).map Piece.start).getLast? ((frees B).map Piece.start).head?)
      (A ++ { x with free := true } :: B) := by
  obtain ⟨h1, h2, h3⟩ := h.around
  obtain ⟨hA, hform, hB⟩ := h.formed_around
  have htile : Tiling s.base (A ++ { x with free := true } :: B) s.edge :=
    tiling_append.2 ⟨_, h1, rfl, h2, h3⟩
  refine ⟨htile, ?_, ?_⟩
  · have hl := h.linked
    have hn := htile.nodup_frees
    rw [frees_append, frees_cons_used hx, map_append] at hl
    rw [frees_append, frees_cons_free rfl, map_append, map_cons] at hn ⊢
    obtain ⟨q, hp, hl⟩ := linked_append.1 hl
    rw [← hl.head_eq]
    exact linked_of_link hp hl hn
  · rw [forall_mem_append, forall_mem_cons]
    exact ⟨fun y hy => (hA y hy).congr rfl rfl rfl, hform.congr rfl rfl rfl,
      fun y hy => (hB y hy).congr rfl rfl rfl⟩

/-- A block whose rest becomes a block of its own. -/
theorem Laid.cut (h : Laid s (A ++ x :: B)) (hx : x.free = true) {need left : Nat}
    (hsize : HEADER + need + left = x.size) (hleft : HEADER ≤ left) (hneed : MAX_ALIGN ∣ need)
    {rest : Nat} (hat : rest = x.start + HEADER + need) {s1 s' : SpareInner}
    (hs1 : s1 = s.write rest left)
    (hs' : s' = (s1.link rest (s1.links x.start).prev (s1.links x.start).next).resize x.start
      (HEADER + need)) :
    Laid s' (A ++ ⟨x.start, HEADER + need, false⟩ :: ⟨rest, left, true⟩ :: B) := by
  have hh : 0 < HEADER := by decide
  obtain ⟨h1, h2, h3⟩ := h.around
  obtain ⟨hA, hform, hB⟩ := h.formed_around
  obtain ⟨hltA, hltB⟩ := h.ne_around
  have hrest : (⟨rest, left, true⟩ : Piece).stop = x.stop := by
    simp only [Piece.stop]
    omega
  -- no other block starts where the rest does
  have hneA : ∀ y ∈ A, y.start ≠ rest := fun y hy => by
    have := hltA y hy
    omega
  have hneB : ∀ y ∈ B, y.start ≠ rest := fun y hy => by
    have := (h3.inside hy).1
    unfold Piece.stop at this
    omega
  have hsizes : s'.sizes = update (update s.sizes rest left) x.start (HEADER + need) := by
    rw [hs', hs1]
    rfl
  subst hs'
  have htile : Tiling s1.base
      (A ++ ⟨x.start, HEADER + need, false⟩ :: ⟨rest, left, true⟩ :: B) s1.edge := by
    subst hs1
    refine tiling_append.2 ⟨_, h1, rfl, by dsimp only; omega, ?_, by dsimp only; omega, hrest ▸ h3⟩
    simp only [Piece.stop]
    omega
  have hlinked : Linked s1.links none s1.head
      ((frees A).map Piece.start ++ x.start :: (frees B).map Piece.start) := by
    subst hs1
    refine (linked_congr fun a ha => update_of_ne ?_ _ _).2 (h.free_linked hx)
    rcases mem_append.1 ha with ha | ha
    · obtain ⟨y, hy, rfl⟩ := List.mem_map.1 ha
      exact hneA y (mem_frees.1 hy).1
    rcases mem_cons.1 ha with rfl | ha
    · omega
    · obtain ⟨y, hy, rfl⟩ := List.mem_map.1 ha
      exact hneB y (mem_frees.1 hy).1
  have hprev := hlinked.prev_eq
  rw [or_none] at hprev
  obtain ⟨q, hpart, _, _, htail⟩ := linked_append.1 hlinked
  refine ⟨htile, ?_, ?_⟩
  · have hn := htile.nodup_frees
    rw [frees_append, frees_cons_used rfl, frees_cons_free rfl, map_append, map_cons] at hn ⊢
    rw [hprev]
    exact linked_of_link hpart htail hn
  have hother : ∀ y, Formed s y → y.start ≠ rest → y.start ≠ x.start → Formed _ y :=
    fun y hy h1 h2 => hy.congr (by rw [hsizes, update_of_ne h2, update_of_ne h1]) rfl rfl
  rw [forall_mem_append, forall_mem_cons, forall_mem_cons]
  refine ⟨fun y hy => hother y (hA y hy) (hneA y hy) (hltA y hy).ne,
    ⟨by rw [hsizes, update_self], Nat.le_add_right _ _, hform.aligned⟩,
    ⟨?_, hleft, hat ▸ Nat.dvd_add (Nat.dvd_add hform.aligned (by decide)) hneed⟩,
    fun y hy => hother y (hB y hy) (hneB y hy) (hltB y hy).ne'⟩
  rw [hsizes, update_of_ne (by dsimp only; omega), update_self]

/-- Two free blocks side by side become one. -/
theorem Laid.absorb (h : Laid s (A ++ p :: x :: B)) (hp : p.free = true) (hx : x.free = true) :
    Laid ((s.resize p.start (s.sizes p.start + s.sizes x.start)).unlink x.start)
      (A ++ ⟨p.start, p.size + x.size, true⟩ :: B) := by
  obtain ⟨h1, hp1, hxs, hx1, h3⟩ := h.around
  obtain ⟨hA, hform, hform', hB⟩ := h.formed_around.imp_right (·.imp_right forall_mem_cons.1)
  obtain ⟨hltA, hltB⟩ := h.ne_around
  refine ⟨tiling_append.2 ⟨_, h1, rfl, by dsimp only; omega, ?_⟩, ?_, ?_⟩
  · have : (⟨p.start, p.size + x.size, true⟩ : Piece).stop = x.stop := by
      unfold Piece.stop at *
      simp only
      omega
    rw [this]
    exact h3
  · have hl := h.linked
    have hn := h.tiling.nodup_frees
    rw [frees_append, frees_cons_free hp, frees_cons_free hx, map_append, map_cons,
      map_cons, append_cons] at hl hn
    rw [frees_append, frees_cons_free rfl, map_append, map_cons, append_cons]
    exact linked_of_unlink (s := s.resize p.start (s.sizes p.start + s.sizes x.start)) hl hn
  have hother : ∀ y, Formed s y → y.start ≠ p.start →
      Formed ((s.resize p.start (s.sizes p.start + s.sizes x.start)).unlink x.start) y :=
    fun y hy hne => hy.congr (update_of_ne hne _ _) rfl rfl
  rw [forall_mem_append, forall_mem_cons]
  refine ⟨fun y hy => hother y (hA y hy) (hltA y hy).ne,
    ⟨?_, hform.header.trans (Nat.le_add_right _ _), hform.aligned⟩,
    fun y hy => hother y (hB y hy) (hltB y (mem_cons_of_mem _ hy)).ne'⟩
  exact (update_self _ _ _).trans (by rw [hform.size, hform'.size])

/-! ## Allocation -/

theorem firstFit_frees (h : Laid s T) (need : Nat) : ∃ r, s.firstFit need s.fuel s.head = some r ∧
    ∀ blk, r = some blk → ∃ x ∈ T, x.free = true ∧ x.start = blk ∧ HEADER + need ≤ x.size := by
  obtain ⟨r, hr, hfit⟩ := firstFit_spec need h.linked
    (fun x hx => h.formed x (mem_frees.1 hx).1) h.length_le
  refine ⟨r, hr, fun blk hblk => ?_⟩
  obtain ⟨x, hx, hrest⟩ := hfit blk hblk
  exact ⟨x, (mem_frees.1 hx).1, (mem_frees.1 hx).2, hrest⟩

theorem dvd_need (layout : Layout) : MAX_ALIGN ∣ need layout := Nat.dvd_mul_left _ _

theorem le_need (layout : Layout) : layout.size ≤ need layout := by
  have := Nat.div_add_mod (max layout.size 1 + (MAX_ALIGN - 1)) MAX_ALIGN
  have := Nat.mod_lt (max layout.size 1 + (MAX_ALIGN - 1)) (show MAX_ALIGN > 0 by decide)
  unfold need
  rw [Nat.mul_comm]
  omega

/-- An allocation is refused and changes nothing, or uses a piece of the row. -/
theorem shape_allocate (h : Shape s T) (layout : Layout) :
    ∃ r s', s.allocate layout = some (r, s') ∧ ((∃ e, r = .error e) ∧ s' = s ∨
      ∃ A x B y C, T = A ++ x :: B ∧ x.free = true ∧ r = .ok (y.start + HEADER) ∧
        s'.range = s.range ∧ Shape s' (A ++ y :: C) ∧ y.free = false ∧
        HEADER + layout.size ≤ y.size ∧ useds C = useds B) := by
  unfold allocate
  split
  · exact ⟨_, s, rfl, .inl ⟨⟨_, rfl⟩, rfl⟩⟩
  obtain ⟨r, hr, hfit⟩ := firstFit_frees h.toLaid (need layout)
  unfold pull
  rw [hr, bind_some]
  cases r with
  | none => exact ⟨_, s, rfl, .inl ⟨⟨_, rfl⟩, rfl⟩⟩
  | some blk =>
    obtain ⟨x, hx, hf, rfl, hsize⟩ := hfit blk rfl
    obtain ⟨A, B, rfl⟩ := append_of_mem hx
    obtain ⟨_, hform, _⟩ := h.formed_around
    obtain ⟨hcA, hcB, heA, hsB⟩ := (coalesced_free hf).1 h.coalesced
    have hneed := le_need layout
    have hleft : checkedSub (x.size - HEADER) (need layout) =
        some (x.size - HEADER - need layout) :=
      checkedSub_eq_some.2 ⟨by omega, rfl⟩
    dsimp only
    unfold split
    rw [hform.payload, bind_some, hleft, map_some]
    -- the piece is cut, or taken whole
    split
    · next hcut =>
      refine ⟨_, _, rfl, .inr ⟨A, x, B, ⟨x.start, HEADER + need layout, false⟩,
        ⟨x.start + HEADER + need layout, x.size - HEADER - need layout, true⟩ :: B,
          rfl, hf, rfl, rfl,
        ⟨h.toLaid.cut hf (by omega) hcut (dvd_need layout) rfl rfl rfl,
          (coalesced_used rfl).2 ⟨hcA, (coalesced_cons_free rfl).2 ⟨hcB, hsB⟩⟩⟩,
        rfl, by dsimp only; omega, useds_cons_free rfl⟩⟩
    · exact ⟨_, _, rfl, .inr ⟨A, x, B, { x with free := false }, B, rfl, hf, rfl, rfl,
        ⟨h.toLaid.take hf, (coalesced_used rfl).2 ⟨hcA, hcB⟩⟩, rfl, by dsimp only; omega, rfl⟩⟩

/-! ## Deallocation -/

theorem joinPrev_spec (h : Laid s (A ++ x :: B)) (hx : x.free = true) (hA : Coalesced A) :
    ∃ s' A' y, s.joinPrev ((frees A).map Piece.start).getLast? x.start = (s', y.start) ∧
      s'.range = s.range ∧ Laid s' (A' ++ y :: B) ∧ y.free = true ∧ Coalesced A' ∧ EndsUsed A' ∧
      useds A' = useds A := by
  obtain ⟨h1, _, _⟩ := h.around
  by_cases he : EndsUsed A
  · refine ⟨s, A, x, ?_, rfl, h, hx, hA, he, rfl⟩
    cases hlast : ((frees A).map Piece.start).getLast? with
    | none => rfl
    | some a =>
      -- the last free block ends before a used one
      obtain ⟨z, hz, rfl⟩ := List.mem_map.1 (mem_of_getLast? hlast)
      obtain ⟨hz, hf⟩ := mem_frees.1 hz
      have hlt := h1.free_before he hz hf
      have hsize := (h.formed_around.1 z hz).size
      unfold Piece.stop at hlt
      unfold joinPrev
      dsimp only
      rw [hsize, if_neg (by omega)]
  · obtain ⟨A', p, rfl⟩ : ∃ A' p, A = A' ++ [p] := by
      rcases eq_nil_or_concat A with rfl | ⟨A', p, rfl⟩
      · simp [EndsUsed] at he
      · exact ⟨A', p, concat_eq_append⟩
    have hp : p.free = true := by
      by_contra hp
      exact he fun y hy => by
        rw [List.getLast?_concat] at hy
        cases hy
        simpa using hp
    rw [← append_cons] at h
    obtain ⟨hcA, -, heA, -⟩ := (coalesced_free hp).1 hA
    obtain ⟨_, hform, _⟩ := h.formed_around
    obtain ⟨_, _, hstop, _⟩ := h.around
    refine ⟨(s.resize p.start (s.sizes p.start + s.sizes x.start)).unlink x.start, A',
      ⟨p.start, p.size + x.size, true⟩, ?_, rfl, h.absorb hp hx, rfl, hcA, heA, ?_⟩
    · have hlast : ((frees (A' ++ [p])).map Piece.start).getLast? = some p.start := by
        rw [frees_append, frees_cons_free hp, map_append]
        exact List.getLast?_concat
      unfold Piece.stop at hstop
      unfold joinPrev
      rw [hlast]
      dsimp only
      rw [if_pos (by rw [hform.size, hstop])]
    · rw [useds_append, useds_cons_free hp]
      exact (append_nil _).symm

theorem joinNext_spec (h : Laid s (A ++ x :: B)) (hx : x.free = true) (hB : Coalesced B) :
    ∃ y B', (s.joinNext x.start).range = s.range ∧ Laid (s.joinNext x.start) (A ++ y :: B') ∧
      y.free = true ∧ Coalesced B' ∧ StartsUsed B' ∧ useds B' = useds B := by
  obtain ⟨_, _, h3⟩ := h.around
  obtain ⟨_, hform, _⟩ := h.formed_around
  have hnext := (h.free_linked hx).next_eq
  by_cases hs : StartsUsed B
  · have hsame : s.joinNext x.start = s := by
      unfold joinNext
      split
      · next n hn =>
        rw [hnext] at hn
        obtain ⟨z, hz, rfl⟩ := List.mem_map.1 (mem_of_head? hn)
        obtain ⟨hz, hf⟩ := mem_frees.1 hz
        have hlt := h3.free_after hs hz hf
        unfold Piece.stop at hlt
        rw [hform.size, if_neg (by omega)]
      · rfl
    rw [hsame]
    exact ⟨x, B, rfl, h, hx, hB, hs, rfl⟩
  · cases B with
    | nil => simp [StartsUsed] at hs
    | cons n B =>
      have hn : n.free = true := by
        by_contra hn
        exact hs fun y hy => by
          cases hy
          simpa using hn
      obtain ⟨hcB, hsB⟩ := (coalesced_cons_free hn).1 hB
      have hjoin : s.joinNext x.start =
          (s.resize x.start (s.sizes x.start + s.sizes n.start)).unlink n.start := by
        rw [frees_cons_free hn, map_cons, List.head?_cons] at hnext
        have hstop := h3.1
        unfold Piece.stop at hstop
        unfold joinNext
        simp only [hnext]
        rw [if_pos (by rw [hform.size, hstop])]
      rw [hjoin]
      exact ⟨⟨x.start, x.size + n.size, true⟩, B, rfl, h.absorb hx hn, rfl, hcB, hsB,
        (useds_cons_free hn).symm⟩

/-- A piece that comes back joins its free neighbours. -/
theorem shape_push (h : Shape s (A ++ x :: B)) (hx : x.free = false) :
    ∃ s' T', s.push x.start = some s' ∧ s'.range = s.range ∧ Shape s' T' ∧
      useds T' = useds A ++ useds B := by
  obtain ⟨hcA, hcB⟩ := (coalesced_used hx).1 h.coalesced
  obtain ⟨hltA, hltB⟩ := h.ne_around
  have hnb : s.neighbours x.start s.fuel none s.head =
      some (((frees A).map Piece.start).getLast?, ((frees B).map Piece.start).head?) := by
    have hl := h.linked
    have hlen := h.length_le
    rw [frees_append, frees_cons_used hx] at hl hlen
    rw [map_append] at hl
    have hbelow : ∀ a ∈ (frees A).map Piece.start, a < x.start := by
      intro a ha
      obtain ⟨y, hy, rfl⟩ := List.mem_map.1 ha
      exact hltA y (mem_frees.1 hy).1
    have habove : ∀ a ∈ (frees B).map Piece.start, x.start < a := by
      intro a ha
      obtain ⟨y, hy, rfl⟩ := List.mem_map.1 ha
      exact hltB y (mem_frees.1 hy).1
    rw [neighbours_spec hl hbelow habove (by simpa using hlen), or_none]
  obtain ⟨s2, A', y, hj, hr, h2, hy, hcA', heA', huA⟩ :=
    joinPrev_spec (h.toLaid.give hx) rfl hcA
  obtain ⟨z, B', hr', h3, hz, hcB', hsB', huB⟩ := joinNext_spec h2 hy hcB
  refine ⟨s2.joinNext y.start, A' ++ z :: B', ?_, hr'.trans hr,
    ⟨h3, (coalesced_free hz).2 ⟨hcA', hcB', heA', hsB'⟩⟩, ?_⟩
  · unfold SpareInner.push
    rw [hnb, map_some]
    exact congrArg (fun r : SpareInner × Nat => some (r.1.joinNext r.2)) hj
  · rw [useds_append, useds_cons_free hz, huA, huB]

end

/-! ## Runs -/

/-- The heap and what is handed out: the pointers, each with the size that was asked for. -/
structure World where
  heap : SpareInner
  out : List (Nat × Nat)

/-- A header takes this many of its `HEADER` bytes. -/
def blkSize : Nat := 24

/-- A call, or the users at work. -/
inductive Step : World → World → Prop
  | allocate {w : World} (layout : Layout) {ptr : Nat} {heap : SpareInner}
      (h : w.heap.allocate layout = some (.ok ptr, heap)) :
      Step w ⟨heap, (ptr, layout.size) :: w.out⟩
  | refuse {w : World} (layout : Layout) {e : AllocError} {heap : SpareInner}
      (h : w.heap.allocate layout = some (.error e, heap)) : Step w ⟨heap, w.out⟩
  | deallocate {w : World} {p : Nat × Nat} (hp : p ∈ w.out) {heap : SpareInner}
      (h : w.heap.deallocate p.1 = some heap) : Step w ⟨heap, w.out.erase p⟩
  /-- The users write what they like into what they were given. -/
  | use {w : World} (links : Memory) (sizes : Nat → Nat)
      (h : ∀ a, (∀ p ∈ w.out, a + blkSize ≤ p.1 ∨ p.1 + p.2 ≤ a) →
        links a = w.heap.links a ∧ sizes a = w.heap.sizes a) :
      Step w ⟨{ w.heap with links, sizes }, w.out⟩

/-- Runs from an empty heap. -/
inductive Runs (base edge : Nat) : World → Prop
  | start (links : Memory) (sizes : Nat → Nat) : Runs base edge ⟨new base edge links sizes, []⟩
  | step {w w' : World} : Runs base edge w → Step w w' → Runs base edge w'

/-- The pointers handed out are those of the used pieces. -/
structure Holds (w : World) (T : List Piece) (l : List (Piece × Nat)) : Prop where
  shape : Shape w.heap T
  pieces : l.map Prod.fst = useds T
  out : w.out.Perm (l.map fun z => (z.1.start + HEADER, z.2))
  fits : ∀ z ∈ l, z.2 + HEADER ≤ z.1.size

section

variable {w w' : World} {T : List Piece} {l : List (Piece × Nat)}

theorem Holds.mem (h : Holds w T l) {z : Piece × Nat} (hz : z ∈ l) : z.1 ∈ T :=
  (mem_useds.1 (h.pieces ▸ List.mem_map_of_mem hz)).1

variable {p : Nat × Nat}

theorem Holds.piece (h : Holds w T l) (hp : p ∈ w.out) :
    ∃ z ∈ l, p = (z.1.start + HEADER, z.2) := by
  obtain ⟨z, hz, rfl⟩ := List.mem_map.1 (h.out.subset hp)
  exact ⟨z, hz, rfl⟩

theorem holds_allocate (h : Holds w T l) (layout : Layout) {r : Except AllocError Nat}
    {heap : SpareInner} (ha : w.heap.allocate layout = some (r, heap)) :
    heap.range = w.heap.range ∧ (∀ e, r = .error e → heap = w.heap) ∧
      ∀ ptr, r = .ok ptr → ∃ T' l', Holds ⟨heap, (ptr, layout.size) :: w.out⟩ T' l' := by
  obtain ⟨r', s', hs, hr⟩ := shape_allocate h.shape layout
  cases ha.symm.trans hs
  rcases hr with ⟨⟨e, rfl⟩, rfl⟩ | ⟨A, x, B, y, C, rfl, hx, rfl, hrange, hshape, hy, hsize, hu⟩
  · exact ⟨rfl, fun _ _ => rfl, by simp⟩
  refine ⟨hrange, by simp, fun ptr hptr => ?_⟩
  cases hptr
  have hpieces := h.pieces
  rw [useds_append, useds_cons_free hx, map_eq_append_iff] at hpieces
  obtain ⟨l1, l2, rfl, h1, h2⟩ := hpieces
  refine ⟨A ++ y :: C, l1 ++ (y, layout.size) :: l2, hshape, ?_, ?_, ?_⟩
  · rw [map_append, map_cons, useds_append, useds_cons_used hy, hu, h1, h2]
  · refine (h.out.cons _).trans ?_
    rw [map_append, map_append, map_cons]
    exact perm_middle.symm
  intro z hz
  rcases mem_append.1 hz with hz | hz
  · exact h.fits z (mem_append_left _ hz)
  rcases mem_cons.1 hz with rfl | hz
  · dsimp only
    omega
  · exact h.fits z (mem_append_right _ hz)

/-- The row around the piece of a pointer. -/
theorem Holds.around (h : Holds w T l) (hp : p ∈ w.out) :
    ∃ l1 z l2 A B, l = l1 ++ z :: l2 ∧ T = A ++ z.1 :: B ∧ p = (z.1.start + HEADER, z.2) ∧
      z.1.free = false ∧ useds A = l1.map Prod.fst ∧ useds B = l2.map Prod.fst := by
  obtain ⟨z, hz, rfl⟩ := h.piece hp
  obtain ⟨l1, l2, rfl⟩ := append_of_mem hz
  have hpieces := h.pieces.symm
  rw [map_append, map_cons, useds, filter_eq_append_iff] at hpieces
  obtain ⟨A, B', rfl, hA, hB'⟩ := hpieces
  obtain ⟨A', B, rfl, hA', hf, hB⟩ := filter_eq_cons_iff.1 hB'
  refine ⟨l1, z, l2, A ++ A', B, rfl, (append_assoc _ _ _).symm, rfl, by simpa using hf, ?_, hB⟩
  rw [useds_append, useds, hA, useds, filter_eq_nil_iff.2 hA', append_nil]

theorem holds_deallocate (h : Holds w T l) (hp : p ∈ w.out) :
    ∃ heap T' l', w.heap.deallocate p.1 = some heap ∧ heap.range = w.heap.range ∧
      Holds ⟨heap, w.out.erase p⟩ T' l' := by
  obtain ⟨l1, z, l2, A, B, rfl, rfl, rfl, hf, hA, hB⟩ := h.around hp
  obtain ⟨h1, h2, h3⟩ := h.shape.around
  have howns : w.heap.owns z.1.start = true := by
    have h4 := h1.le
    have h5 := h3.le
    unfold Piece.stop at h5
    unfold owns
    simp only [Bool.and_eq_true, decide_eq_true_eq]
    omega
  have hsub : checkedSub (z.1.start + HEADER) HEADER = some z.1.start :=
    checkedSub_eq_some.2 ⟨Nat.le_add_left _ _, (Nat.add_sub_cancel _ _).symm⟩
  obtain ⟨heap, T', hs, hrange, hshape, hu⟩ := shape_push h.shape hf
  refine ⟨heap, T', l1 ++ l2, ?_, hrange, hshape, ?_, ?_, fun y hy => h.fits y ?_⟩
  · unfold deallocate
    rw [hsub, bind_some, if_pos howns, hs]
  · rw [map_append, hu, hA, hB]
  · have hout := (perm_cons_erase hp).symm.trans h.out
    rw [map_append, map_cons] at hout
    rw [map_append]
    exact (hout.trans perm_middle).cons_inv
  · rcases mem_append.1 hy with hy | hy
    · exact mem_append_left _ hy
    · exact mem_append_right _ (mem_cons_of_mem _ hy)

/-- The headers lie outside of what the users have. -/
theorem Holds.outside (h : Holds w T l) {x : Piece} (hx : x ∈ T) (hp : p ∈ w.out) :
    x.start + blkSize ≤ p.1 ∨ p.1 + p.2 ≤ x.start := by
  obtain ⟨l1, z, l2, A, B, rfl, rfl, rfl, -⟩ := h.around hp
  obtain ⟨h1, _, h3⟩ := h.shape.around
  have hblk : blkSize < HEADER := by decide
  have hfit := h.fits z (by simp)
  unfold Piece.stop at h3
  rcases mem_append.1 hx with hx | hx
  · have := (h1.inside hx).2.2
    unfold Piece.stop at this
    omega
  rcases mem_cons.1 hx with rfl | hx
  · omega
  · have := (h3.inside hx).1
    omega

/-- Every call, and all that users write, keeps a layout. -/
theorem holds_step (h : Holds w T l) (hs : Step w w') :
    ∃ T' l', Holds w' T' l' ∧ w'.heap.range = w.heap.range := by
  cases hs with
  | allocate layout ha =>
    obtain ⟨hrange, _, hok⟩ := holds_allocate h layout ha
    obtain ⟨T', l', h'⟩ := hok _ rfl
    exact ⟨T', l', h', hrange⟩
  | refuse layout ha =>
    obtain ⟨hrange, herr, _⟩ := holds_allocate h layout ha
    obtain rfl := herr _ rfl
    exact ⟨T, l, h, hrange⟩
  | deallocate hp hd =>
    obtain ⟨heap', T', l', hs, hrange, h'⟩ := holds_deallocate h hp
    cases hd.symm.trans hs
    exact ⟨T', l', h', hrange⟩
  | use links sizes hw =>
    have hsame : ∀ x ∈ T, links x.start = w.heap.links x.start ∧
        sizes x.start = w.heap.sizes x.start := fun x hx => hw _ fun p hp => h.outside hx hp
    refine ⟨T, l,
      ⟨⟨⟨h.shape.tiling, ?_, fun x hx => ?_⟩, h.shape.coalesced⟩, h.pieces, h.out, h.fits⟩,
      rfl⟩
    · refine (linked_congr fun a ha => ?_).2 h.shape.linked
      obtain ⟨x, hx, rfl⟩ := List.mem_map.1 ha
      exact (hsame x (mem_frees.1 hx).1).1
    · exact (h.shape.formed x hx).congr (hsame x hx).2 rfl rfl

theorem holds_runs {base edge : Nat} (hb : MAX_ALIGN ∣ base) (he : base + HEADER ≤ edge)
    (h : Runs base edge w) : w.heap.range = (base, edge) ∧ ∃ T l, Holds w T l := by
  induction h with
  | start links sizes =>
    exact ⟨rfl, [⟨base, edge - base, true⟩], [], shape_new hb he links sizes, rfl, .refl _, by simp⟩
  | step _ hs ih =>
    obtain ⟨hrange, T, l, h⟩ := ih
    obtain ⟨T', l', h', hr⟩ := holds_step h hs
    exact ⟨hr.trans hrange, T', l', h'⟩

end

/-- The free list as the links give it, each block with its size. -/
def SpareInner.freeList (s : SpareInner) : Nat → Option Nat → Option (List (Nat × Nat))
  | _, none => some []
  | 0, some _ => none
  | fuel + 1, some blk => (freeList s fuel (s.links blk).next).map ((blk, s.sizes blk) :: ·)

theorem freeList_eq {s : SpareInner} {l : List Piece} {q h : Option Nat} {fuel : Nat}
    (hl : Linked s.links q h (l.map Piece.start)) (hx : ∀ x ∈ l, Formed s x)
    (hf : l.length ≤ fuel) :
    s.freeList fuel h = some (l.map fun x => (x.start, x.size)) := by
  induction l generalizing q h fuel with
  | nil =>
    obtain rfl : h = none := hl
    cases fuel <;> rfl
  | cons x l ih =>
    obtain ⟨rfl, _, hl⟩ := hl
    cases fuel with
    | zero => simp at hf
    | succ fuel =>
      unfold freeList
      rw [ih hl (fun y hy => hx y (mem_cons_of_mem _ hy)) (by simpa using hf),
        (hx x mem_cons_self).size]
      rfl

/-- Where the block of a pointer begins and how long it is. -/
def World.block (w : World) (p : Nat × Nat) : Nat × Nat :=
  (p.1 - HEADER, w.heap.sizes (p.1 - HEADER))

/-- In every state of every run over a range, the free blocks and the blocks handed out tile the
range; the free list is in the order of addresses and leaves gaps; every payload is aligned, large
enough and apart from the others; when nothing is out the range is one block again; and no call
panics or loops. -/
theorem heap_run {base edge : Nat} (hb : MAX_ALIGN ∣ base) (he : base + HEADER ≤ edge) {w : World}
    (h : Runs base edge w) :
    (∃ T, Tiling base T edge ∧
      w.heap.freeList w.heap.fuel w.heap.head = some ((frees T).map fun x => (x.start, x.size)) ∧
      (w.out.map w.block).Perm ((useds T).map fun x => (x.start, x.size)) ∧
      (frees T).Pairwise fun x y => x.stop < y.start) ∧
    (∀ p ∈ w.out, MAX_ALIGN ∣ p.1 ∧ HEADER ≤ p.1 ∧
      p.1 + p.2 ≤ (w.block p).1 + (w.block p).2) ∧
    (w.out.Pairwise fun p q => (w.block p).1 + (w.block p).2 ≤ (w.block q).1 ∨
      (w.block q).1 + (w.block q).2 ≤ (w.block p).1) ∧
    (w.out = [] → w.heap.freeList w.heap.fuel w.heap.head = some [(base, edge - base)]) ∧
    (∀ layout, ∃ r heap, w.heap.allocate layout = some (r, heap)) ∧
    ∀ p ∈ w.out, ∃ heap, w.heap.deallocate p.1 = some heap := by
  obtain ⟨⟨rfl, rfl⟩, T, l, h⟩ := holds_runs hb he h
  have hfree := freeList_eq h.shape.linked (fun x hx => h.shape.formed x (mem_frees.1 hx).1)
    h.shape.length_le
  have hblock : ∀ z ∈ l, w.block (z.1.start + HEADER, z.2) = (z.1.start, z.1.size) := fun z hz => by
    unfold World.block
    rw [Nat.add_sub_cancel, (h.shape.formed z.1 (h.mem hz)).size]
  refine ⟨⟨T, h.shape.tiling, hfree, ?_, h.shape.tiling.free_apart h.shape.coalesced⟩,
    fun p hp => ?_, ?_,
    fun hout => ?_, fun layout => ?_, fun p hp => ?_⟩
  · refine (h.out.map _).trans (.of_eq ?_)
    rw [← h.pieces, List.map_map, List.map_map]
    exact map_congr_left hblock
  · obtain ⟨z, hz, rfl⟩ := h.piece hp
    have hfit := h.fits z hz
    rw [hblock z hz]
    refine ⟨Nat.dvd_add (h.shape.formed z.1 (h.mem hz)).aligned (by decide),
      Nat.le_add_left _ _, ?_⟩
    omega
  · refine h.out.symm.pairwise ?_ fun hpq => hpq.symm
    rw [pairwise_map]
    have hpw : (l.map Prod.fst).Pairwise fun x y => x.stop ≤ y.start :=
      h.pieces ▸ h.shape.tiling.pairwise.sublist filter_sublist
    refine (pairwise_map.1 hpw).imp_of_mem fun {x y} hx hy hxy => .inl ?_
    rw [hblock x hx, hblock y hy]
    exact hxy
  · have hnil : l = [] := by
      have := h.out
      rw [hout] at this
      exact map_eq_nil_iff.1 this.symm.eq_nil
    have hh : 0 < HEADER := by decide
    have hone := h.shape.tiling.single h.shape.coalesced (by omega) (by rw [← h.pieces, hnil]; rfl)
    rw [hfree, hone]
    rfl
  · obtain ⟨r, heap, hr, _⟩ := shape_allocate h.shape layout
    exact ⟨r, heap, hr⟩
  · obtain ⟨heap, _, _, hd, _⟩ := holds_deallocate h hp
    exact ⟨heap, hd⟩

/-- Of two blocks the first is given back: it is free again in front of the other one, and every
request still gets an answer. -/
theorem heap_run_freed : ∃ w, Runs 4096 8192 w ∧ w.out = [(4272, 40)] ∧
    w.heap.freeList w.heap.fuel w.heap.head = some [(4096, 144), (4320, 3872)] ∧
    ∀ layout, ∃ r heap, w.heap.allocate layout = some (r, heap) := by
  have h1 : Runs 4096 8192 ⟨_, [(4128, 100)]⟩ :=
    .step (.start (fun _ => ⟨none, none⟩) fun _ => 0) (.allocate ⟨100, 8⟩ rfl)
  have h2 : Runs 4096 8192 ⟨_, [(4272, 40), (4128, 100)]⟩ := .step h1 (.allocate ⟨40, 16⟩ rfl)
  have h3 := Runs.step h2 (.deallocate (p := (4128, 100)) (by simp) rfl)
  exact ⟨_, h3, rfl, rfl, (heap_run (by decide) (by decide) h3).2.2.2.2.1⟩

end Sqware.Spare
