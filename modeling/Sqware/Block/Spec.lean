import Sqware.Block.Inner

/-!
# What the block allocator keeps

`Accounts` says where every block of every page is: on the free stack of the slot that owns the
page, or busy; and the tally counts the busy blocks.  `Core` adds that the stacks are in memory,
and that a block is busy when it waits in the pump of its slot or is out.
-/

namespace Sqware.Block

open Stacks List Function

def inPage (page b : Nat) : Bool := b / pageSize == page

/-- `b` is a block of a page that the slot owns. -/
def Owns (t : Tally) (i : Slot) (b : Nat) : Prop :=
  (t.cells (b / pageSize)).owner = some i.1 ∧ (t.cells (b / pageSize)).power = i.2 ∧ 2 ^ i.2 ∣ b

/-- Every block of every page is once among the free or once among the busy blocks. -/
structure Accounts (t : Tally) (L B : Slot → List Nat) : Prop where
  free_owns : ∀ i, ∀ b ∈ L i, Owns t i b
  busy_owns : ∀ i, ∀ b ∈ B i, Owns t i b
  once : ∀ i b, Owns t i b → (L i).count b + (B i).count b = 1
  used : ∀ p i n, t.cells p = ⟨some i.1, i.2, n⟩ → n = (B i).countP (inPage p)
  table : ∀ p h, (t.cells p).owner = some h → t.covers p = true ∧
    MIN_POWER ≤ (t.cells p).power ∧ (t.cells p).power ≤ MAX_POWER

section accounts

variable {t : Tally} {L B L' B' : Slot → List Nat} {i j : Slot} {b p : Nat}

theorem inPage_iff : inPage p b = true ↔ b / pageSize = p := beq_iff_eq

theorem Owns.unique (hi : Owns t i b) (hj : Owns t j b) : i = j :=
  Prod.ext (Option.some.inj (hi.1.symm.trans hj.1)) (hi.2.1.symm.trans hj.2.1)

theorem Owns.of_cell {n : Nat} (hi : Owns t i b)
    (hc : t.cells (b / pageSize) = ⟨some j.1, j.2, n⟩) :
    i = j := by
  obtain ⟨h1, h2, _⟩ := hi
  rw [hc] at h1 h2
  exact (Prod.ext (Option.some.inj h1) h2).symm

theorem Accounts.perm (h : Accounts t L B) (hL : ∀ i, (L' i).Perm (L i))
    (hB : ∀ i, (B' i).Perm (B i)) : Accounts t L' B' :=
  ⟨fun i b hb => h.free_owns i b ((hL i).mem_iff.1 hb),
    fun i b hb => h.busy_owns i b ((hB i).mem_iff.1 hb),
    fun i b ho => by rw [(hL i).count_eq, (hB i).count_eq]; exact h.once i b ho,
    fun p i n hp => by rw [(hB i).countP_eq]; exact h.used p i n hp, h.table⟩

theorem Accounts.nodup (h : Accounts t L B) (i : Slot) : (L i ++ B i).Nodup := by
  refine nodup_iff_count_le_one.2 fun b => ?_
  rw [count_append]
  by_cases hb : b ∈ L i ++ B i
  · rcases mem_append.1 hb with hb | hb
    · exact Nat.le_of_eq (h.once i b (h.free_owns i b hb))
    · exact Nat.le_of_eq (h.once i b (h.busy_owns i b hb))
  · rw [mem_append, not_or] at hb
    rw [count_eq_zero_of_not_mem hb.1, count_eq_zero_of_not_mem hb.2]
    exact Nat.zero_le 1

theorem Accounts.owns (h : Accounts t L B) (hb : b ∈ L i ++ B i) : Owns t i b := by
  rcases mem_append.1 hb with hb | hb
  · exact h.free_owns i b hb
  · exact h.busy_owns i b hb

theorem Accounts.slot (h : Accounts t L B) (hi : b ∈ L i ++ B i) (hj : b ∈ L j ++ B j) : i = j :=
  (h.owns hi).unique (h.owns hj)

theorem Accounts.busy_not_free (h : Accounts t L B) (hb : b ∈ B i) (j : Slot) : b ∉ L j := by
  intro hm
  obtain rfl := h.slot (mem_append_right _ hb) (mem_append_left (B j) hm)
  exact (nodup_append.1 (h.nodup i)).2.2 b hm b hb rfl

theorem Accounts.free_once (h : Accounts t L B) (hb : b ∈ L i) (hj : j ≠ i) : b ∉ L j := fun hm =>
  hj (h.slot (mem_append_left _ hm) (mem_append_left _ hb))

theorem Accounts.cell (h : Accounts t L B) (hb : b ∈ L i ++ B i) :
    t.cells (b / pageSize) = ⟨some i.1, i.2, (B i).countP (inPage (b / pageSize))⟩ := by
  obtain ⟨h1, h2, _⟩ := h.owns hb
  have hc : t.cells (b / pageSize) = ⟨some i.1, i.2, (t.cells (b / pageSize)).used⟩ := by
    rw [← h1, ← h2]
  rw [← h.used _ i _ hc]
  exact hc

@[simp] theorem cells_set_self (t : Tally) (p : Nat) (c : Cell) : (t.set p c).cells p = c :=
  update_self _ _ _

theorem cells_set_of_ne {c : Cell} {q : Nat} (h : q ≠ p) : (t.set p c).cells q = t.cells q :=
  update_of_ne h _ _

theorem owns_set_of_ne {c : Cell} (h : b / pageSize ≠ p) : Owns (t.set p c) i b ↔ Owns t i b := by
  unfold Owns
  rw [cells_set_of_ne h]

/-- The count of a page is set anew. -/
def Tally.recount (t : Tally) (page n : Nat) : Tally := t.set page { t.cells page with used := n }

theorem owns_recount {n : Nat} : Owns (t.recount p n) i b ↔ Owns t i b := by
  unfold Tally.recount
  by_cases hp : b / pageSize = p
  · unfold Owns
    rw [hp, cells_set_self]
  · exact owns_set_of_ne hp

/-- Blocks of one slot change places and the page is counted anew. -/
theorem Accounts.move (h : Accounts t L B) {l r : List Nat}
    (hsum : ∀ b, l.count b + r.count b = (L i).count b + (B i).count b)
    (hcount : ∀ q, q ≠ p → r.countP (inPage q) = (B i).countP (inPage q))
    (hi : ∃ n, t.cells p = ⟨some i.1, i.2, n⟩) :
    Accounts (t.recount p (r.countP (inPage p))) (update L i l) (update B i r) := by
  have hmem : ∀ b, b ∈ l ∨ b ∈ r → b ∈ L i ++ B i := by
    intro b hb
    rw [← count_pos_iff, count_append, ← hsum]
    rcases hb with hb | hb <;>
    · have := count_pos_iff.2 hb
      omega
  refine ⟨?_, ?_, fun j b ho => ?_, fun q j n hq => ?_, fun q g hq => ?_⟩
  · refine (forall_update_iff L fun j l => ∀ b ∈ l, Owns _ j b).2
      ⟨fun b hb => ?_, fun j _ b hb => ?_⟩
    · exact owns_recount.2 (h.owns (hmem b (.inl hb)))
    · exact owns_recount.2 (h.free_owns j b hb)
  · refine (forall_update_iff B fun j l => ∀ b ∈ l, Owns _ j b).2
      ⟨fun b hb => ?_, fun j _ b hb => ?_⟩
    · exact owns_recount.2 (h.owns (hmem b (.inr hb)))
    · exact owns_recount.2 (h.busy_owns j b hb)
  · have hone := h.once j b (owns_recount.1 ho)
    by_cases hj : j = i
    · subst hj
      rwa [update_self, update_self, hsum]
    · rwa [update_of_ne hj, update_of_ne hj]
  · obtain ⟨m, hm⟩ := hi
    by_cases hqp : q = p
    · subst hqp
      rw [Tally.recount, cells_set_self, hm, Cell.mk.injEq, Option.some.injEq] at hq
      obtain rfl : j = i := Prod.ext hq.1.symm hq.2.1.symm
      rw [update_self]
      exact hq.2.2.symm
    rw [Tally.recount, cells_set_of_ne hqp] at hq
    have hn := h.used q j n hq
    by_cases hj : j = i
    · subst hj
      rwa [update_self, hcount q hqp]
    · rwa [update_of_ne hj]
  · by_cases hqp : q = p
    · subst hqp
      rw [Tally.recount, cells_set_self] at hq ⊢
      exact h.table q g hq
    · rw [Tally.recount, cells_set_of_ne hqp] at hq ⊢
      exact h.table q g hq

theorem not_inPage (hp : p ≠ b / pageSize) : inPage p b = false := by
  rw [Bool.eq_false_iff]
  exact fun h => hp (inPage_iff.1 h).symm

/-- A busy block becomes free. -/
theorem Accounts.give (h : Accounts t L B) {R : List Nat} (hB : (B i).Perm (b :: R)) :
    Accounts (t.recount (b / pageSize) (R.countP (inPage (b / pageSize))))
      (update L i (b :: L i)) (update B i R) := by
  have hb : b ∈ L i ++ B i := mem_append_right _ (hB.mem_iff.2 mem_cons_self)
  refine h.move (fun c => ?_) (fun q hq => ?_) ⟨_, h.cell hb⟩
  · rw [hB.count_eq, count_cons, count_cons]
    omega
  · rw [hB.countP_eq, countP_cons_of_neg (by simp [not_inPage hq])]

/-- A free block becomes busy. -/
theorem Accounts.take (h : Accounts t L B) {R : List Nat} (hL : L i = b :: R) :
    Accounts (t.recount (b / pageSize) ((b :: B i).countP (inPage (b / pageSize))))
      (update L i R) (update B i (b :: B i)) := by
  have hb : b ∈ L i ++ B i := mem_append_left _ (hL ▸ mem_cons_self)
  refine h.move (fun c => ?_) (fun q hq => ?_) ⟨_, h.cell hb⟩
  · rw [hL, count_cons, count_cons]
    omega
  · rw [countP_cons_of_neg (by simp [not_inPage hq])]

/-- An empty page goes, with its free blocks. -/
theorem Accounts.drop (h : Accounts t L B) (hp : t.cells p = ⟨some i.1, i.2, 0⟩) :
    Accounts (t.set p .free)
      (update L i ((L i).filter (!inPage p ·))) B := by
  have hbusy : ∀ j, ∀ b ∈ B j, b / pageSize ≠ p := by
    intro j b hb he
    obtain rfl := (h.busy_owns j b hb).of_cell (he ▸ hp)
    have hzero := h.used p j 0 hp
    have hpos := countP_pos_iff.2 ⟨b, hb, inPage_iff.2 he⟩
    omega
  refine ⟨fun j b hb => ?_, fun j b hb => ?_, fun j b ho => ?_,
    fun q j n hq => ?_, fun q g hq => ?_⟩
  · obtain ⟨hb, hne⟩ : b ∈ L j ∧ b / pageSize ≠ p := by
      by_cases hj : j = i
      · subst hj
        rw [update_self, mem_filter] at hb
        exact ⟨hb.1, fun he => by simp [inPage_iff.2 he] at hb⟩
      · rw [update_of_ne hj] at hb
        exact ⟨hb, fun he => hj ((h.free_owns j b hb).of_cell (he ▸ hp))⟩
    exact (owns_set_of_ne hne).2 (h.free_owns j b hb)
  · exact (owns_set_of_ne (hbusy j b hb)).2 (h.busy_owns j b hb)
  · have hne : b / pageSize ≠ p := by
      intro he
      have := ho.1
      rw [he, cells_set_self] at this
      simp [Cell.free] at this
    rw [owns_set_of_ne hne] at ho
    by_cases hj : j = i
    · subst hj
      rw [update_self, count_filter (by simp [not_inPage (Ne.symm hne)])]
      exact h.once j b ho
    · rw [update_of_ne hj]
      exact h.once j b ho
  · by_cases hqp : q = p
    · subst hqp
      simp [Cell.free] at hq
    · rw [cells_set_of_ne hqp] at hq
      exact h.used q j n hq
  by_cases hqp : q = p
  · subst hqp
    simp [Cell.free] at hq
  · rw [cells_set_of_ne hqp] at hq ⊢
    exact h.table q g hq

/-! ## The blocks of a page -/

/-- The blocks of a page, in order. -/
def blocks (page power : Nat) : List Nat :=
  List.range' (page * pageSize) (pageSize / 2 ^ power) (2 ^ power)

theorem pow_dvd_pageSize {k : Nat} (hk : k ≤ MAX_POWER) : 2 ^ k ∣ pageSize :=
  Nat.dvd_trans (Nat.pow_dvd_pow 2 hk) (by decide)

theorem mem_blocks {k : Nat} (hk : k ≤ MAX_POWER) : b ∈ blocks p k ↔
    b / pageSize = p ∧ 2 ^ k ∣ b := by
  have hpos : 0 < 2 ^ k := Nat.two_pow_pos k
  obtain ⟨n, hn⟩ := pow_dvd_pageSize hk
  have hdiv : pageSize / 2 ^ k = n := by rw [hn, Nat.mul_div_cancel_left _ hpos]
  have hps := pageSize_pos
  unfold blocks
  rw [hdiv, mem_range', Nat.div_eq_iff hps]
  constructor
  · rintro ⟨m, hm, rfl⟩
    have h1 : 2 ^ k * (m + 1) ≤ pageSize := hn ▸ Nat.mul_le_mul_left _ hm
    rw [Nat.mul_add, Nat.mul_one] at h1
    refine ⟨⟨Nat.le_add_right _ _, by omega⟩, ?_⟩
    exact Nat.dvd_add (Nat.dvd_mul_left_of_dvd (pow_dvd_pageSize hk) p) (Nat.dvd_mul_right _ _)
  rintro ⟨⟨h1, h2⟩, h3⟩
  have hd : 2 ^ k ∣ b - p * pageSize :=
    Nat.dvd_sub h3 (Nat.dvd_mul_left_of_dvd (pow_dvd_pageSize hk) p)
  obtain ⟨m, hm⟩ := hd
  refine ⟨m, ?_, by omega⟩
  have : 2 ^ k * m < 2 ^ k * n := by omega
  exact Nat.lt_of_mul_lt_mul_left this

theorem nodup_blocks (p k : Nat) : (blocks p k).Nodup :=
  nodup_range' (2 ^ k) (Nat.two_pow_pos k)

theorem blocks_eq {k : Nat} (hk : k ≤ MAX_POWER) : ∃ n, pageSize / 2 ^ k = n + 1 ∧
    blocks p k = p * pageSize :: List.range' (p * pageSize + 2 ^ k) n (2 ^ k) := by
  have hle : 2 ^ k ≤ pageSize := Nat.le_of_dvd (by decide) (pow_dvd_pageSize hk)
  have hpos := Nat.div_pos hle (Nat.two_pow_pos k)
  refine ⟨pageSize / 2 ^ k - 1, by omega, ?_⟩
  unfold blocks
  rw [← List.range'_succ]
  congr 1
  omega

/-- The count of a page is far from the limit of its cell. -/
theorem Accounts.countP_le (h : Accounts t L B) : (B i).countP (inPage p) ≤ pageSize := by
  have hn : ((B i).filter (inPage p)).Nodup :=
    ((nodup_append.1 (h.nodup i)).2.1).sublist filter_sublist
  have hsub : (B i).filter (inPage p) ⊆ List.range' (p * pageSize) pageSize := by
    intro b hb
    have := inPage_iff.1 (mem_filter.1 hb).2
    have hps := pageSize_pos
    rw [Nat.div_eq_iff hps] at this
    rw [mem_range'_1]
    omega
  have := (subperm_of_subset hn hsub).length_le
  rwa [length_range', ← countP_eq_length_filter] at this

/-- A fresh page comes; its first block is busy. -/
theorem Accounts.prime (h : Accounts t L B) (hp : (t.cells p).owner = none) (hc : t.covers p = true)
    (hk : MIN_POWER ≤ i.2) (hk' : i.2 ≤ MAX_POWER) {rest : List Nat}
    (hb : blocks p i.2 = b :: rest) :
    Accounts (t.set p ⟨some i.1, i.2, 1⟩)
      (update L i (rest ++ L i)) (update B i (b :: B i)) := by
  have hmem : ∀ c, c ∈ b :: rest ↔ c / pageSize = p ∧ 2 ^ i.2 ∣ c := fun c => hb ▸ mem_blocks hk'
  have hcount : ∀ c, c / pageSize = p → 2 ^ i.2 ∣ c → (b :: rest).count c = 1 := fun c h1 h2 =>
    count_eq_one_of_mem (hb ▸ nodup_blocks p i.2) ((hmem c).2 ⟨h1, h2⟩)
  -- nothing of the page is anywhere
  have hnone : ∀ {j c}, Owns t j c → c / pageSize ≠ p := fun ho he => by
    have := ho.1
    rw [he, hp] at this
    simp at this
  have hnew : ∀ {c}, c ∈ b :: rest → Owns (t.set p ⟨some i.1, i.2, 1⟩) i c := fun {c} hm => by
    obtain ⟨h1, h2⟩ := (hmem c).1 hm
    unfold Owns
    rw [h1, cells_set_self]
    exact ⟨rfl, rfl, h2⟩
  have hold : ∀ {j c}, Owns t j c → Owns (t.set p ⟨some i.1, i.2, 1⟩) j c := fun ho =>
    (owns_set_of_ne (hnone ho)).2 ho
  refine ⟨?_, ?_, fun j c ho => ?_, fun q j n hq => ?_, fun q g hq => ?_⟩
  · refine (forall_update_iff L fun j l => ∀ b ∈ l, Owns _ j b).2
      ⟨fun c hm => ?_, fun j _ c hm => ?_⟩
    · rcases mem_append.1 hm with hm | hm
      · exact hnew (mem_cons_of_mem _ hm)
      · exact hold (h.free_owns i c hm)
    · exact hold (h.free_owns j c hm)
  · refine (forall_update_iff B fun j l => ∀ b ∈ l, Owns _ j b).2
      ⟨fun c hm => ?_, fun j _ c hm => ?_⟩
    · rcases mem_cons.1 hm with rfl | hm
      · exact hnew mem_cons_self
      · exact hold (h.busy_owns i c hm)
    · exact hold (h.busy_owns j c hm)
  · by_cases hc : c / pageSize = p
    · have hj : j = i := by
        obtain ⟨h1, h2, _⟩ := ho
        rw [hc, cells_set_self] at h1 h2
        exact (Prod.ext (Option.some.inj h1) h2).symm
      subst hj
      have h1 := hcount c hc ho.2.2
      have h2 : (L j).count c = 0 := count_eq_zero_of_not_mem fun hm =>
        hnone (h.free_owns j c hm) hc
      have h3 : (B j).count c = 0 := count_eq_zero_of_not_mem fun hm =>
        hnone (h.busy_owns j c hm) hc
      rw [update_self, update_self, count_append, count_cons, h2, h3]
      rw [count_cons] at h1
      omega
    · rw [owns_set_of_ne hc] at ho
      have hnot : c ∉ b :: rest := fun hm => hc ((hmem c).1 hm).1
      have hone := h.once j c ho
      by_cases hj : j = i
      · subst hj
        rw [mem_cons, not_or] at hnot
        rw [update_self, update_self, count_append,
          count_eq_zero_of_not_mem hnot.2, count_cons_of_ne (Ne.symm hnot.1)]
        omega
      · rw [update_of_ne hj, update_of_ne hj]
        exact hone
  · have hbp := ((hmem b).1 mem_cons_self).1
    by_cases hqp : q = p
    · subst hqp
      rw [cells_set_self, Cell.mk.injEq, Option.some.injEq] at hq
      obtain rfl : j = i := Prod.ext hq.1.symm hq.2.1.symm
      rw [update_self, countP_cons_of_pos (inPage_iff.2 hbp), ← hq.2.2]
      have : (B j).countP (inPage q) = 0 := countP_eq_zero.2 fun c hm hin =>
        hnone (h.busy_owns j c hm) (inPage_iff.1 hin)
      omega
    rw [cells_set_of_ne hqp] at hq
    have hn := h.used q j n hq
    by_cases hj : j = i
    · subst hj
      rw [update_self, countP_cons_of_neg]
      · exact hn
      · rw [inPage_iff, hbp]
        exact fun he => hqp he.symm
    · rw [update_of_ne hj]
      exact hn
  · by_cases hqp : q = p
    · subst hqp
      rw [cells_set_self]
      exact ⟨hc, hk, hk'⟩
    · rw [cells_set_of_ne hqp] at hq ⊢
      exact h.table q g hq

end accounts

end Sqware.Block
