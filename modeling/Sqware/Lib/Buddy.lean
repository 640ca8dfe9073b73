import Mathlib.Data.Nat.Bitwise
import Mathlib.Data.List.Nodup
import Mathlib.Tactic.Ring

/-!
# Buddy blocks

A block of power `k` starts at a multiple of `2 ^ k` and holds `2 ^ k` frames.  Its buddy is the
other half of the block of power `k + 1` around it.

`Tiles n R has` says that the blocks in `has` partition the frames below `n` outside `R`.  A
block may be halved, and a block and its buddy joined, without breaking the partition.  `Pool`
is a set of such blocks kept as free lists by power and as blocks in use; every buddy allocator
runs on its four moves `take`, `halve`, `join` and `give`.
-/

namespace Buddy

open List Function

/-- The frame lies in the block of power `k` at `i`. -/
def InBlock (f i k : Nat) : Prop := i ≤ f ∧ f < i + 2 ^ k

instance (f i k : Nat) : Decidable (InBlock f i k) := inferInstanceAs (Decidable (_ ∧ _))

/-- The block that a block is joined with. -/
def buddy (i k : Nat) : Nat := i ^^^ 2 ^ k

/-! ## Arithmetic of buddies -/

theorem buddy_mul (m k : Nat) : buddy (2 ^ k * m) k = 2 ^ k * (m ^^^ 1) := by
  have h := Nat.shiftLeft_xor_distrib (i := k) (a := m) (b := 1)
  simp only [Nat.shiftLeft_eq, one_mul] at h
  rw [buddy, Nat.mul_comm (2 ^ k) m, ← h, Nat.mul_comm]

variable {k i : Nat}

theorem buddy_of_dvd (h : 2 ^ (k + 1) ∣ i) : buddy i k = i + 2 ^ k := by
  obtain ⟨m, rfl⟩ := h
  rw [pow_succ, Nat.mul_assoc, buddy_mul, Nat.xor_one_of_even (even_two_mul m)]
  ring

/-- The lower half of a pair of buddies is the one that the larger block starts with. -/
theorem buddy_cases (h : 2 ^ k ∣ i) :
    (2 ^ (k + 1) ∣ i ∧ buddy i k = i + 2 ^ k) ∨
      (2 ^ (k + 1) ∣ buddy i k ∧ i = buddy i k + 2 ^ k) := by
  obtain ⟨m, rfl⟩ := h
  rcases Nat.even_or_odd m with hm | hm
  · left
    obtain ⟨r, rfl⟩ := hm
    have hd : 2 ^ (k + 1) ∣ 2 ^ k * (r + r) := ⟨r, by ring⟩
    exact ⟨hd, buddy_of_dvd hd⟩
  right
  rw [buddy_mul, Nat.xor_one_of_odd hm]
  obtain ⟨r, rfl⟩ := hm
  exact ⟨⟨r, by rw [Nat.add_sub_cancel]; ring⟩, by rw [Nat.add_sub_cancel]; ring⟩

theorem buddy_buddy (i k : Nat) : buddy (buddy i k) k = i := by
  unfold buddy
  rw [Nat.xor_assoc, Nat.xor_self, Nat.xor_zero]

theorem buddy_ne (i k : Nat) : buddy i k ≠ i := by
  intro h
  have h0 : i ^^^ (i ^^^ 2 ^ k) = i ^^^ i := congrArg (i ^^^ ·) h
  rw [← Nat.xor_assoc, Nat.xor_self, Nat.zero_xor] at h0
  exact absurd h0 (Nat.two_pow_pos k).ne'

theorem min_buddy_dvd (h : 2 ^ k ∣ i) : 2 ^ (k + 1) ∣ min i (buddy i k) := by
  rcases buddy_cases h with ⟨hd, he⟩ | ⟨hd, he⟩
  · rwa [he, min_eq_left (Nat.le_add_right _ _)]
  · rwa [min_eq_right (by omega)]

theorem inBlock_succ {f : Nat} : InBlock f i (k + 1) ↔ InBlock f i k ∨ InBlock f (i + 2 ^ k) k := by
  unfold InBlock
  omega

theorem inBlock_self (i k : Nat) : InBlock i i k := ⟨le_rfl, by simp⟩

theorem le_of_aligned {a c : Nat} (ha : 2 ^ k ∣ a) (hc : 2 ^ k ∣ c) (h : c < a + 2 ^ k) :
    c ≤ a := by
  obtain ⟨a, rfl⟩ := ha
  obtain ⟨c, rfl⟩ := hc
  exact Nat.mul_le_mul_left _ (Nat.le_of_lt_succ (Nat.lt_of_mul_lt_mul_left h))

/-! ## Partitions into blocks -/

/-- The blocks partition the frames below `n` outside `R`. -/
structure Tiles (n : Nat) (R : Nat → Prop) (has : Nat → Nat → Prop) : Prop where
  aligned : ∀ i k, has i k → 2 ^ k ∣ i
  inside : ∀ i k f, has i k → InBlock f i k → f < n ∧ ¬ R f
  cover : ∀ f, f < n → ¬ R f → ∃ i k, has i k ∧ InBlock f i k
  apart : ∀ i k j l f, has i k → has j l → InBlock f i k → InBlock f j l → i = j ∧ k = l

variable {n : Nat} {R : Nat → Prop} {has has' : Nat → Nat → Prop}

theorem Tiles.congr (h : Tiles n R has) (he : ∀ i k, has' i k ↔ has i k) : Tiles n R has' := by
  obtain rfl : has' = has := funext₂ fun i k => propext (he i k)
  exact h

theorem Tiles.le (h : Tiles n R has) (hb : has i k) : i + 2 ^ k ≤ n := by
  have hk := Nat.one_le_two_pow (n := k)
  have := (h.inside i k (i + 2 ^ k - 1) hb ⟨by omega, by omega⟩).1
  omega

/-- Some of the blocks give way to others that hold the same frames. -/
theorem Tiles.swap (h : Tiles n R has) {old new : Nat → Nat → Prop}
    (ho : ∀ j l, old j l → has j l) (he : ∀ j l, has' j l ↔ new j l ∨ has j l ∧ ¬ old j l)
    (ha : ∀ j l, new j l → 2 ^ l ∣ j)
    (hf : ∀ f, (∃ j l, new j l ∧ InBlock f j l) ↔ ∃ j l, old j l ∧ InBlock f j l)
    (hn : ∀ j l j' l' f, new j l → new j' l' → InBlock f j l → InBlock f j' l' → j = j' ∧ l = l') :
    Tiles n R has' where
  aligned := by
    intro j l hj
    rcases (he j l).1 hj with hj | ⟨hj, _⟩
    · exact ha j l hj
    · exact h.aligned j l hj
  inside := by
    intro j l f hj hjf
    rcases (he j l).1 hj with hj | ⟨hj, _⟩
    · obtain ⟨i, k, hi, hif⟩ := (hf f).1 ⟨j, l, hj, hjf⟩
      exact h.inside i k f (ho i k hi) hif
    · exact h.inside j l f hj hjf
  cover := by
    intro f hlt hr
    obtain ⟨j, l, hj, hjf⟩ := h.cover f hlt hr
    by_cases hc : old j l
    · obtain ⟨i, k, hi, hif⟩ := (hf f).2 ⟨j, l, hc, hjf⟩
      exact ⟨i, k, (he i k).2 (.inl hi), hif⟩
    · exact ⟨j, l, (he j l).2 (.inr ⟨hj, hc⟩), hjf⟩
  apart := by
    -- a frame of a new block is in one of the old ones, and in no other block
    have hgone : ∀ j l j' l' f, new j l → InBlock f j l → has j' l' →
        InBlock f j' l' → old j' l' := by
      intro j l j' l' f hj hjf hj' hjf'
      obtain ⟨i, k, hi, hif⟩ := (hf f).1 ⟨j, l, hj, hjf⟩
      obtain ⟨rfl, rfl⟩ := h.apart _ _ _ _ f hj' (ho i k hi) hjf' hif
      exact hi
    intro j l j' l' f hj hj' hjf hjf'
    rcases (he j l).1 hj with hj | ⟨hj, hne⟩ <;> rcases (he j' l').1 hj' with hj' | ⟨hj', hne'⟩
    · exact hn j l j' l' f hj hj' hjf hjf'
    · exact absurd (hgone j l j' l' f hj hjf hj' hjf') hne'
    · exact absurd (hgone j' l' j l f hj' hjf' hj hjf) hne
    · exact h.apart _ _ _ _ f hj hj' hjf hjf'

/-- The frames of the two halves are those of the block. -/
theorem exists_half {f : Nat} :
    (∃ j l, ((j = i ∨ j = i + 2 ^ k) ∧ l = k) ∧ InBlock f j l) ↔
      ∃ j l, (j = i ∧ l = k + 1) ∧ InBlock f j l := by
  constructor
  · rintro ⟨j, l, ⟨rfl | rfl, rfl⟩, hf⟩
    · exact ⟨_, _, ⟨rfl, rfl⟩, inBlock_succ.2 (.inl hf)⟩
    · exact ⟨_, _, ⟨rfl, rfl⟩, inBlock_succ.2 (.inr hf)⟩
  · rintro ⟨_, _, ⟨rfl, rfl⟩, hf⟩
    rcases inBlock_succ.1 hf with hf | hf
    · exact ⟨_, _, ⟨.inl rfl, rfl⟩, hf⟩
    · exact ⟨_, _, ⟨.inr rfl, rfl⟩, hf⟩

theorem Tiles.halve (h : Tiles n R has) (hb : has i (k + 1))
    (he : ∀ j l, has' j l ↔ (j = i ∨ j = i + 2 ^ k) ∧ l = k ∨ has j l ∧ ¬ (j = i ∧ l = k + 1)) :
    Tiles n R has' := by
  refine h.swap ?_ he ?_ (fun f => exists_half) ?_
  · rintro _ _ ⟨rfl, rfl⟩
    exact hb
  · have hk : 2 ^ k ∣ i := (pow_dvd_pow 2 (Nat.le_succ k)).trans (h.aligned i (k + 1) hb)
    rintro _ _ ⟨rfl | rfl, rfl⟩
    · exact hk
    · exact (Nat.dvd_add_right hk).2 dvd_rfl
  · rintro j l j' l' f ⟨hj, rfl⟩ ⟨hj', rfl⟩ hf hf'
    unfold InBlock at hf hf'
    omega

theorem Tiles.join (h : Tiles n R has) (hd : 2 ^ (k + 1) ∣ i) (hb : has i k)
    (hb' : has (i + 2 ^ k) k)
    (he : ∀ j l, has' j l ↔
      j = i ∧ l = k + 1 ∨ has j l ∧ ¬ ((j = i ∨ j = i + 2 ^ k) ∧ l = k)) :
    Tiles n R has' := by
  refine h.swap ?_ he ?_ (fun f => exists_half.symm) ?_
  · rintro _ _ ⟨rfl | rfl, rfl⟩
    · exact hb
    · exact hb'
  · rintro _ _ ⟨rfl, rfl⟩
    exact hd
  · rintro _ _ _ _ _ ⟨rfl, rfl⟩ ⟨rfl, rfl⟩ _ _
    exact ⟨rfl, rfl⟩

theorem Tiles.empty : Tiles 0 R fun _ _ => False :=
  ⟨by simp, by simp, by simp, by simp⟩

/-- The partition reaches on over frames outside it. -/
theorem Tiles.skip (h : Tiles n R has) {m : Nat} (hm : n ≤ m)
    (hr : ∀ f, n ≤ f → f < m → R f) : Tiles m R has where
  aligned := h.aligned
  inside := fun i k f hb hf => ⟨(h.inside i k f hb hf).1.trans_le hm, (h.inside i k f hb hf).2⟩
  cover := fun f hf hnr => h.cover f (not_le.1 fun hge => hnr (hr f hge hf)) hnr
  apart := h.apart

/-- The partition grows by a block at its end. -/
theorem Tiles.extend (h : Tiles n R has) (hd : 2 ^ k ∣ n)
    (hr : ∀ f, InBlock f n k → ¬ R f) (he : ∀ j l, has' j l ↔ j = n ∧ l = k ∨ has j l) :
    Tiles (n + 2 ^ k) R has' where
  aligned := by
    intro j l hj
    rcases (he j l).1 hj with ⟨rfl, rfl⟩ | hj
    · exact hd
    · exact h.aligned j l hj
  inside := by
    intro j l f hj hf
    rcases (he j l).1 hj with ⟨rfl, rfl⟩ | hj
    · exact ⟨hf.2, hr f hf⟩
    · exact ⟨(h.inside j l f hj hf).1.trans_le (Nat.le_add_right _ _), (h.inside j l f hj hf).2⟩
  cover := by
    intro f hf hnr
    by_cases hlt : f < n
    · obtain ⟨j, l, hj, hjf⟩ := h.cover f hlt hnr
      exact ⟨j, l, (he j l).2 (.inr hj), hjf⟩
    · exact ⟨n, k, (he n k).2 (.inl ⟨rfl, rfl⟩), not_lt.1 hlt, hf⟩
  apart := by
    have old : ∀ j l f, has j l → InBlock f j l → ¬ InBlock f n k :=
      fun j l f hj hf hn => absurd (h.inside j l f hj hf).1 (not_lt.2 hn.1)
    intro j l j' l' f hj hj' hf hf'
    rcases (he j l).1 hj with ⟨rfl, rfl⟩ | ho <;> rcases (he j' l').1 hj' with ⟨rfl, rfl⟩ | ho'
    · exact ⟨rfl, rfl⟩
    · exact absurd hf (old _ _ f ho' hf')
    · exact absurd hf' (old _ _ f ho hf)
    · exact h.apart _ _ _ _ f ho ho' hf hf'

/-! ## Pools -/

/-- Free blocks by power, and the blocks in use. -/
structure Pool where
  free : Nat → List Nat
  used : List (Nat × Nat)

namespace Pool

/-- The pool has the block, free or in use. -/
def Has (p : Pool) (i k : Nat) : Prop := i ∈ p.free k ∨ (i, k) ∈ p.used

/-- The blocks tile `0` to `n`, the places of `R` apart, and none is listed twice. -/
structure Good (n : Nat) (R : Nat → Prop) (p : Pool) : Prop where
  tiles : Tiles n R p.Has
  free_nodup : ∀ k, (p.free k).Nodup
  used_nodup : p.used.Nodup
  apart : ∀ i k, i ∈ p.free k → (i, k) ∉ p.used

/-- No block is free together with its buddy. -/
def Coalesced (p : Pool) : Prop := ∀ i k, i ∈ p.free k → buddy i k ∉ p.free k

/-- A free block comes into use. -/
def take (p : Pool) (i k : Nat) : Pool :=
  ⟨update p.free k ((p.free k).erase i), (i, k) :: p.used⟩

/-- The upper half of a block in use becomes free. -/
def halve (p : Pool) (i k : Nat) : Pool :=
  ⟨update p.free k (buddy i k :: p.free k), (i, k) :: p.used.erase (i, k + 1)⟩

/-- A block in use takes in its free buddy. -/
def join (p : Pool) (i k : Nat) : Pool :=
  ⟨update p.free k ((p.free k).erase (buddy i k)),
    (min i (buddy i k), k + 1) :: p.used.erase (i, k)⟩

/-- A block in use becomes free. -/
def give (p : Pool) (i k : Nat) : Pool :=
  ⟨update p.free k (i :: p.free k), p.used.erase (i, k)⟩

variable {n : Nat} {R : Nat → Prop} {p : Pool} {i k : Nat} {free : Nat → List Nat}

theorem mem_update_cons {j l : Nat} :
    j ∈ update free k (i :: free k) l ↔ j = i ∧ l = k ∨ j ∈ free l := by
  by_cases h : l = k
  · subst h
    simp
  · simp [h]

theorem mem_update_erase (hn : ∀ k, (free k).Nodup) {j l : Nat} :
    j ∈ update free k ((free k).erase i) l ↔ j ∈ free l ∧ ¬ (j = i ∧ l = k) := by
  by_cases h : l = k
  · subst h
    simp [(hn l).mem_erase_iff, and_comm]
  · simp [h]

theorem nodup_update (hn : ∀ k, (free k).Nodup) {l : List Nat}
    (hl : l.Nodup) (m : Nat) : (update free k l m).Nodup := by
  by_cases h : m = k
  · subst h
    simpa using hl
  · rw [update_of_ne h]
    exact hn m

/-- No other block shares the frames of a block that the pool has. -/
theorem Good.not_has (h : p.Good n R) (hb : p.Has i k) {j l f : Nat} (hf : InBlock f i k)
    (hf' : InBlock f j l) (hne : ¬ (j = i ∧ l = k)) : ¬ p.Has j l :=
  fun hj => hne (h.tiles.apart _ _ _ _ f hj hb hf' hf)

theorem Good.take (h : p.Good n R) (hi : i ∈ p.free k) : (p.take i k).Good n R where
  tiles := by
    refine h.tiles.congr fun j l => ?_
    unfold Has Pool.take
    simp only [mem_update_erase h.free_nodup, mem_cons, Prod.mk.injEq]
    constructor
    · rintro (⟨hj, _⟩ | ⟨rfl, rfl⟩ | hj)
      · exact .inl hj
      · exact .inl hi
      · exact .inr hj
    rintro (hj | hj)
    · by_cases hc : j = i ∧ l = k
      · exact .inr (.inl hc)
      · exact .inl ⟨hj, hc⟩
    · exact .inr (.inr hj)
  free_nodup := nodup_update h.free_nodup ((h.free_nodup k).erase i)
  used_nodup := nodup_cons.2 ⟨h.apart i k hi, h.used_nodup⟩
  apart := by
    intro j l hj
    obtain ⟨hj, hne⟩ := (mem_update_erase h.free_nodup).1 hj
    simp only [Pool.take, mem_cons, Prod.mk.injEq, not_or]
    exact ⟨hne, h.apart j l hj⟩

theorem Good.give (h : p.Good n R) (hi : (i, k) ∈ p.used) : (p.give i k).Good n R where
  tiles := by
    refine h.tiles.congr fun j l => ?_
    unfold Has Pool.give
    simp only [mem_update_cons, h.used_nodup.mem_erase_iff, ne_eq, Prod.mk.injEq]
    constructor
    · rintro ((⟨rfl, rfl⟩ | hj) | ⟨_, hj⟩)
      · exact .inr hi
      · exact .inl hj
      · exact .inr hj
    rintro (hj | hj)
    · exact .inl (.inr hj)
    · by_cases hc : j = i ∧ l = k
      · exact .inl (.inl hc)
      · exact .inr ⟨hc, hj⟩
  free_nodup := nodup_update h.free_nodup
    (nodup_cons.2 ⟨fun hf => h.apart i k hf hi, h.free_nodup k⟩)
  used_nodup := h.used_nodup.erase _
  apart := by
    intro j l hj
    simp only [Pool.give, h.used_nodup.mem_erase_iff, ne_eq, Prod.mk.injEq, not_and]
    rcases mem_update_cons.1 hj with ⟨rfl, rfl⟩ | hj
    · simp
    · exact fun _ => h.apart j l hj

theorem Good.halve (h : p.Good n R) (hi : (i, k + 1) ∈ p.used) : (p.halve i k).Good n R := by
  have hb : buddy i k = i + 2 ^ k := buddy_of_dvd (h.tiles.aligned i (k + 1) (.inr hi))
  have hpos := Nat.one_le_two_pow (n := k)
  have hlow : ¬ p.Has i k :=
    h.not_has (.inr hi) (inBlock_self i _) (inBlock_self i k) (by omega)
  have hup : ¬ p.Has (i + 2 ^ k) k :=
    h.not_has (.inr hi) (inBlock_succ.2 (.inr (inBlock_self _ k))) (inBlock_self _ k) (by omega)
  have hfree : ∀ j l, j ∈ (p.halve i k).free l ↔ j = i + 2 ^ k ∧ l = k ∨ j ∈ p.free l := by
    intro j l
    rw [Pool.halve, hb]
    exact mem_update_cons
  have hused : ∀ j l, (j, l) ∈ (p.halve i k).used ↔
      j = i ∧ l = k ∨ (j, l) ∈ p.used ∧ ¬ (j = i ∧ l = k + 1) := by
    intro j l
    simp only [Pool.halve, mem_cons, h.used_nodup.mem_erase_iff, ne_eq, Prod.mk.injEq]
    tauto
  have hnf : ¬ (i ∈ p.free (k + 1)) := fun hf => h.apart _ _ hf hi
  refine ⟨h.tiles.halve (.inr hi) fun j l => ?_, ?_, ?_, ?_⟩
  · unfold Has
    rw [hfree, hused]
    constructor
    · rintro ((⟨rfl, rfl⟩ | hj) | ⟨rfl, rfl⟩ | ⟨hj, hne⟩)
      · exact .inl ⟨.inr rfl, rfl⟩
      · refine .inr ⟨.inl hj, ?_⟩
        rintro ⟨rfl, rfl⟩
        exact hnf hj
      · exact .inl ⟨.inl rfl, rfl⟩
      · exact .inr ⟨.inr hj, hne⟩
    rintro (⟨rfl | rfl, rfl⟩ | ⟨hj | hj, hne⟩)
    · exact .inr (.inl ⟨rfl, rfl⟩)
    · exact .inl (.inl ⟨rfl, rfl⟩)
    · exact .inl (.inr hj)
    · exact .inr (.inr ⟨hj, hne⟩)
  · refine nodup_update h.free_nodup (nodup_cons.2 ⟨fun hf => hup ?_, h.free_nodup k⟩)
    exact .inl (hb ▸ hf)
  · refine nodup_cons.2 ⟨fun hm => hlow (.inr (mem_of_mem_erase hm)), ?_⟩
    exact h.used_nodup.erase _
  intro j l hj hm
  rcases (hfree j l).1 hj with ⟨hj1, hj2⟩ | hj' <;>
    rcases (hused j l).1 hm with ⟨hm1, hm2⟩ | ⟨hm', _⟩
  · omega
  · exact hup (.inr (hj1 ▸ hj2 ▸ hm'))
  · exact hlow (.inl (hm1 ▸ hm2 ▸ hj'))
  · exact h.apart j l hj' hm'

theorem Good.join (h : p.Good n R) (hi : (i, k) ∈ p.used) (hf : buddy i k ∈ p.free k) :
    (p.join i k).Good n R := by
  have hd := h.tiles.aligned i k (.inr hi)
  have hmin := min_buddy_dvd hd
  -- the two halves in address order
  obtain ⟨hlo, hhi, hpair⟩ : p.Has (min i (buddy i k)) k ∧ p.Has (min i (buddy i k) + 2 ^ k) k ∧
      ∀ j, (j = min i (buddy i k) ∨ j = min i (buddy i k) + 2 ^ k) ↔ (j = i ∨ j = buddy i k) := by
    rcases buddy_cases hd with ⟨_, he⟩ | ⟨_, he⟩
    · rw [min_eq_left (by omega), ← he]
      exact ⟨.inr hi, .inl hf, fun j => Iff.rfl⟩
    · rw [min_eq_right (by omega), ← he]
      exact ⟨.inl hf, .inr hi, fun j => or_comm⟩
  have hfree : ∀ j l, j ∈ (p.join i k).free l ↔ j ∈ p.free l ∧ ¬ (j = buddy i k ∧ l = k) :=
    fun j l => mem_update_erase h.free_nodup
  have hused : ∀ j l, (j, l) ∈ (p.join i k).used ↔
      j = min i (buddy i k) ∧ l = k + 1 ∨ (j, l) ∈ p.used ∧ ¬ (j = i ∧ l = k) := by
    intro j l
    simp only [Pool.join, mem_cons, h.used_nodup.mem_erase_iff, ne_eq, Prod.mk.injEq]
    tauto
  have hnew : ¬ p.Has (min i (buddy i k)) (k + 1) :=
    h.not_has hlo (inBlock_self _ k) (inBlock_self _ (k + 1)) (by omega)
  refine ⟨h.tiles.join hmin hlo hhi fun j l => ?_, ?_, ?_, ?_⟩
  · unfold Has
    rw [hfree, hused, hpair]
    constructor
    · rintro (⟨hj, hne⟩ | ⟨rfl, rfl⟩ | ⟨hj, hne⟩)
      · refine .inr ⟨.inl hj, ?_⟩
        rintro ⟨rfl | rfl, rfl⟩
        · exact h.apart _ _ hj hi
        · exact hne ⟨rfl, rfl⟩
      · exact .inl ⟨rfl, rfl⟩
      refine .inr ⟨.inr hj, ?_⟩
      rintro ⟨rfl | rfl, rfl⟩
      · exact hne ⟨rfl, rfl⟩
      · exact h.apart _ _ hf hj
    · rintro (⟨rfl, rfl⟩ | ⟨hj | hj, hne⟩)
      · exact .inr (.inl ⟨rfl, rfl⟩)
      · exact .inl ⟨hj, fun hc => hne ⟨.inr hc.1, hc.2⟩⟩
      · exact .inr (.inr ⟨hj, fun hc => hne ⟨.inl hc.1, hc.2⟩⟩)
  · exact nodup_update h.free_nodup ((h.free_nodup k).erase _)
  · refine nodup_cons.2 ⟨fun hm => hnew (.inr (mem_of_mem_erase hm)), ?_⟩
    exact h.used_nodup.erase _
  intro j l hj hm
  have hj := ((hfree j l).1 hj).1
  rcases (hused j l).1 hm with ⟨rfl, rfl⟩ | ⟨hm, _⟩
  · exact hnew (.inl hj)
  · exact h.apart j l hj hm

/-- A pool with nothing in use grows by a free block at its end. -/
theorem Good.extend (h : p.Good n R) (hu : p.used = []) (hd : 2 ^ k ∣ n)
    (hr : ∀ f, InBlock f n k → ¬ R f) :
    (⟨update p.free k (n :: p.free k), []⟩ : Pool).Good (n + 2 ^ k) R where
  tiles := by
    refine h.tiles.extend hd hr fun j l => ?_
    simp only [Has, mem_update_cons, hu, not_mem_nil, or_false]
  free_nodup := nodup_update h.free_nodup <| nodup_cons.2
    ⟨fun hf => absurd (h.tiles.inside n k n (.inl hf) (inBlock_self n k)).1 (lt_irrefl n),
      h.free_nodup k⟩
  used_nodup := nodup_nil
  apart := by simp

/-! ## Free buddies -/

theorem Coalesced.mono {q : Pool} (h : p.Coalesced) (hs : ∀ i k, i ∈ q.free k → i ∈ p.free k) :
    q.Coalesced := fun i k hi hb => h i k (hs i k hi) (hs _ k hb)

theorem Coalesced.give (h : p.Coalesced) (hb : buddy i k ∉ p.free k) : (p.give i k).Coalesced := by
  intro j l hj hbj
  rcases mem_update_cons.1 hj with ⟨rfl, rfl⟩ | hj' <;>
    rcases mem_update_cons.1 hbj with ⟨he, he'⟩ | hbj'
  · exact buddy_ne _ _ he
  · exact hb hbj'
  · subst he'
    rw [← he, buddy_buddy] at hb
    exact hb hj'
  · exact h j l hj' hbj'

/-- The half that becomes free has a buddy in use. -/
theorem Coalesced.halve (hg : p.Good n R) (h : p.Coalesced) (hi : (i, k + 1) ∈ p.used) :
    (p.halve i k).Coalesced := by
  have hlow : i ∉ p.free k := fun hf =>
    hg.not_has (.inr hi) (inBlock_self i _) (inBlock_self i k) (by omega) (.inl hf)
  refine (h.give (p := p) (i := buddy i k) (k := k) (by rwa [buddy_buddy])).mono ?_
  exact fun j l hj => hj

/-- An aligned run of free frames lies in one free block. -/
theorem Coalesced.run (hc : p.Coalesced) (hg : p.Good n R) (hd : 2 ^ k ∣ i)
    (hf : ∀ f, InBlock f i k → ∃ j l, j ∈ p.free l ∧ InBlock f j l) :
    ∃ j l, k ≤ l ∧ j ∈ p.free l ∧ InBlock i j l := by
  induction k generalizing i with
  | zero =>
    obtain ⟨j, l, hj⟩ := hf i (inBlock_self i 0)
    exact ⟨j, l, Nat.zero_le l, hj⟩
  | succ k ih =>
    have hlow : 2 ^ k ∣ i := (pow_dvd_pow 2 k.le_succ).trans hd
    have hup := Nat.dvd_add hlow (dvd_refl (2 ^ k))
    obtain ⟨j, l, hl, hj, hin⟩ := ih hlow fun f h => hf f (inBlock_succ.2 (.inl h))
    obtain ⟨j', l', hl', hj', hin'⟩ := ih hup fun f h => hf f (inBlock_succ.2 (.inr h))
    have hdj := hg.tiles.aligned j l (.inl hj)
    have hdj' := hg.tiles.aligned j' l' (.inl hj')
    rcases hl.lt_or_eq with hl | rfl
    · exact ⟨j, l, hl, hj, hin⟩
    rcases hl'.lt_or_eq with hl' | rfl
    · have hle := hin'.1.trans_lt (Nat.add_lt_add_left (Nat.pow_lt_pow_succ Nat.one_lt_two) i)
      exact ⟨j', l', hl', hj', le_of_aligned hd ((pow_dvd_pow 2 hl').trans hdj') hle,
        (Nat.le_add_right ..).trans_lt hin'.2⟩
    · -- the halves are free buddies
      obtain rfl := hin.1.antisymm (le_of_aligned hdj hlow hin.2)
      rw [hin'.1.antisymm (le_of_aligned hdj' hup hin'.2), ← buddy_of_dvd hd] at hj'
      exact absurd hj' (hc j k hj)

end Pool

end Buddy
