import Sqware.Frame.Init

/-!
# Runs of the frame allocator

After `init` the kernel allocates blocks, gives back blocks it holds, and writes into the frames
it holds, in any order.  In every state reached the free blocks and the outstanding ones
partition the frames that no reserved region touches (`frame_run`).
-/

namespace Sqware.Frame

open Links Buddy FrameInner Function

/-- The allocator, and the blocks that are allocated. -/
structure State where
  inner : FrameInner
  outstanding : List (Nat × Nat)

/-- A frame that starts a free block of this power. -/
def FreeBlock (s : FrameInner) (i k : Nat) : Prop := s.pagemeta[i]? = some (some k)

/-- A call on the frames, or an owner writing into its own. -/
inductive Step (b : Board) : State → State → Prop
  | allocate {s : State} {power i : Nat} {s' : FrameInner}
      (h : s.inner.splitBlock power = some (s', some i)) :
      Step b s ⟨s', (i, power) :: s.outstanding⟩
  | exhausted {s : State} {power : Nat} {s' : FrameInner}
      (h : s.inner.splitBlock power = some (s', none)) : Step b s ⟨s', s.outstanding⟩
  | free {s : State} {i k : Nat} {s' : FrameInner} (hi : (i, k) ∈ s.outstanding)
      (h : s.inner.mergeBlock i k = some s') : Step b s ⟨s', s.outstanding.erase (i, k)⟩
  -- the owner of an outstanding block, or of a reserved region, writes into its frame
  | write {s : State} {f : Nat} (link : Link)
      (h : b.Reserved f ∨ ∃ i k, (i, k) ∈ s.outstanding ∧ InBlock f i k) :
      Step b s ⟨{ s.inner with memory := update s.inner.memory f link }, s.outstanding⟩

/-- Free and outstanding blocks form a partition, and the free ones are linked by power. -/
structure Partition (b : Board) (s : State) : Prop where
  tiles : Tiles b.maxFrame b.Reserved fun i k => FreeBlock s.inner i k ∨ (i, k) ∈ s.outstanding
  apart : ∀ i k, FreeBlock s.inner i k → (i, k) ∉ s.outstanding
  outstanding_nodup : s.outstanding.Nodup
  linked : ∀ k head, s.inner.freelist[k]? = some head →
    ∃ l, Linked s.inner.memory none head l ∧ l.Nodup ∧ ∀ i, i ∈ l ↔ FreeBlock s.inner i k
  power_lt : ∀ i k, FreeBlock s.inner i k → k < s.inner.freelist.length
  -- neither operation indexes out of bounds
  split_ok : ∀ power, (s.inner.splitBlock power).isSome
  merge_ok : ∀ i k, (i, k) ∈ s.outstanding → (s.inner.mergeBlock i k).isSome

/-- No two free buddies of equal power. -/
def Coalesced (s : State) : Prop :=
  ∀ i k, FreeBlock s.inner i k → ¬ FreeBlock s.inner (buddy i k) k

/-! ## Lemmas -/

/-- The state holds the free lists of a good pool whose blocks in use are the outstanding ones. -/
structure Inv (b : Board) (s : State) (p : Pool) : Prop where
  holds : Holds s.inner p.free
  good : p.Good b.maxFrame b.Reserved
  used_eq : p.used = s.outstanding
  coalesced : p.Coalesced
  pagemeta : s.inner.pagemeta.length = b.maxFrame
  freelist : s.inner.freelist.length = Nat.log2 b.maxFrame + 1

variable {b : Board} {s s' : State} {p : Pool}

theorem Inv.of_leaves (h : Inv b s p) {s' : FrameInner} {p' : Pool} {used : List (Nat × Nat)}
    (hl : Leaves b.maxFrame b.Reserved s.inner p s' p' used) : Inv b ⟨s', used⟩ p' where
  holds := hl.holds
  good := hl.good
  used_eq := hl.used_eq
  coalesced := hl.coalesced h.coalesced
  pagemeta := hl.pagemeta.trans h.pagemeta
  freelist := hl.freelist.trans h.freelist

/-- Every step leaves the frames of some pool. -/
theorem inv_step (h : Inv b s p) (hstep : Step b s s') : ∃ p', Inv b s' p' := by
  cases hstep with
  | @allocate power i s1 he =>
    rcases splitBlock_spec power h.pagemeta h.holds h.good with ⟨hn, _⟩ | ⟨i', s2, p', hs, hl⟩
    · cases hn.symm.trans he
    · cases hs.symm.trans he
      exact ⟨p', h.of_leaves (h.used_eq ▸ hl)⟩
  | @exhausted power s1 he =>
    rcases splitBlock_spec power h.pagemeta h.holds h.good with ⟨hn, _⟩ | ⟨i', s2, p', hs, hl⟩
    · rw [hn] at he
      simp only [Option.some.injEq, Prod.mk.injEq, and_true] at he
      exact ⟨p, he ▸ h⟩
    · cases hs.symm.trans he
  | @free i k s1 hi he =>
    obtain ⟨s2, p', hs, hl⟩ := mergeBlock_spec h.pagemeta h.freelist h.holds h.good
      (h.used_eq ▸ hi)
    cases hs.symm.trans he
    exact ⟨p', h.of_leaves (h.used_eq ▸ hl)⟩
  | @write f link hf =>
    -- the memory of a frame that starts no free block is not the allocator's
    suffices hn : ∀ l, f ∉ p.free l from
      ⟨p, ⟨fun k hd hget => (linked_congr fun _ hx =>
        update_of_ne (ne_of_mem_of_not_mem hx (hn k)) _ _).2 (h.holds.linked k hd hget),
        h.holds.absent, h.holds.head, h.holds.nodup, h.holds.apart⟩, h.good, h.used_eq, h.coalesced,
        h.pagemeta, h.freelist⟩
    intro l hm
    rcases hf with hr | ⟨i, k, hi, hin⟩
    · exact (h.good.tiles.inside f l f (.inl hm) (inBlock_self f l)).2 hr
    · rw [← h.used_eq] at hi
      obtain ⟨rfl, rfl⟩ := h.good.tiles.apart f l i k f (.inl hm) (.inr hi) (inBlock_self f l) hin
      exact h.good.apart f l hm hi

theorem inv_run {s0 : State} (h0 : Inv b s0 p) (hrun : Relation.ReflTransGen (Step b) s0 s) :
    ∃ p', Inv b s p' := by
  induction hrun with
  | refl => exact ⟨p, h0⟩
  | tail _ hstep ih =>
    obtain ⟨p', h'⟩ := ih
    exact inv_step h' hstep

theorem Inv.partition (h : Inv b s p) : Partition b s where
  tiles := h.good.tiles.congr fun i k => by
    rw [FreeBlock, h.holds.head, Pool.Has, h.used_eq]
  apart := fun i k hf => h.used_eq ▸ h.good.apart i k ((h.holds.head i k).1 hf)
  outstanding_nodup := h.used_eq ▸ h.good.used_nodup
  linked := fun k head hget =>
    ⟨p.free k, h.holds.linked k head hget, h.holds.nodup k, fun i => (h.holds.head i k).symm⟩
  power_lt := fun i k hf => (h.holds.lt_length ((h.holds.head i k).1 hf)).1
  split_ok := fun power => by
    rcases splitBlock_spec power h.pagemeta h.holds h.good with ⟨hs, _⟩ | ⟨_, _, _, hs, _⟩ <;>
      rw [hs] <;> rfl
  merge_ok := fun i k hi => by
    obtain ⟨s2, p', hs, _⟩ := mergeBlock_spec h.pagemeta h.freelist h.holds h.good
      (h.used_eq ▸ hi)
    rw [hs]
    rfl

/-! ## Top theorems -/

/-- `init` ends, and from the state it leaves every run of allocations, releases of outstanding
blocks and writes into held frames keeps the partition, with no two free buddies of equal power. -/
theorem frame_run (b : Board) (room : Bool) (memory : Memory) :
    (init b room memory).isSome ∧
    ∀ s₀ s, init b room memory = some (.ok s₀) →
      Relation.ReflTransGen (Step b) ⟨s₀, []⟩ s →
      Partition b s ∧
      (s.outstanding.Pairwise fun x y => ∀ f, InBlock f x.1 x.2 → ¬ InBlock f y.1 y.2) ∧
      Coalesced s := by
  rcases init_spec b room memory with ⟨e, he⟩ | ⟨s1, p, hs, hr, hg, hu, hc, hl, hp⟩
  · rw [he]
    exact ⟨rfl, by simp⟩
  rw [hs]
  refine ⟨rfl, fun s₀ s he hrun => ?_⟩
  obtain rfl : s1 = s₀ := by simpa using he
  obtain ⟨p', h⟩ := inv_run ⟨hr, hg, hu, hc, hl, hp⟩ hrun
  refine ⟨h.partition, ?_, fun i k hi hb => ?_⟩
  · refine h.partition.outstanding_nodup.imp_of_mem fun {x y} hx hy hne f hf hf' => hne ?_
    have := h.partition.tiles.apart x.1 x.2 y.1 y.2 f (.inr hx) (.inr hy) hf hf'
    exact Prod.ext this.1 this.2
  · exact h.coalesced i k ((h.holds.head i k).1 hi) ((h.holds.head _ k).1 hb)

/-- Eight frames with the third one reserved: frames 3 and 0 are handed out, and frame 0 comes
back and is joined with frame 1 again. -/
theorem frame_run_joined : ∃ (b : Board) (s₀ s : FrameInner), b.reserved = [⟨8192, 4096⟩] ∧
    init b true (fun _ => ⟨none, none⟩) = some (.ok s₀) ∧
    Relation.ReflTransGen (Step b) ⟨s₀, []⟩ ⟨s, [(3, 0)]⟩ ∧ FreeBlock s 0 1 ∧
    Partition b ⟨s, [(3, 0)]⟩ ∧ Coalesced ⟨s, [(3, 0)]⟩ := by
  have hrun : ∃ (b : Board) (s₀ s : FrameInner), b.reserved = [⟨8192, 4096⟩] ∧
      init b true (fun _ => ⟨none, none⟩) = some (.ok s₀) ∧
      Relation.ReflTransGen (Step b) ⟨s₀, []⟩ ⟨s, [(3, 0)]⟩ ∧ FreeBlock s 0 1 :=
    ⟨⟨0, 0, 32768, [⟨8192, 4096⟩], by decide, by simp, by decide⟩, _, _, rfl, rfl,
      .tail (.tail (.tail .refl (@Step.allocate _ _ 0 3 _ rfl)) (@Step.allocate _ _ 0 0 _ rfl))
        (@Step.free _ _ 0 0 _ (by decide) rfl), by exact rfl⟩
  obtain ⟨b, s₀, s, hb, hs, hrun, hfree⟩ := hrun
  obtain ⟨hp, -, hc⟩ := (frame_run b _ _).2 s₀ _ hs hrun
  exact ⟨b, s₀, s, hb, hs, hrun, hfree, hp, hc⟩

/-- An allocation finds a block just when an aligned run of its length is in memory, not reserved
and not handed out. -/
theorem splitBlock_iff {room : Bool} {memory : Memory} {s₀ : FrameInner}
    (hinit : init b room memory = some (.ok s₀))
    (hrun : Relation.ReflTransGen (Step b) ⟨s₀, []⟩ s) (power : Nat) :
    (∃ s' i, s.inner.splitBlock power = some (s', some i)) ↔
      ∃ i, 2 ^ power ∣ i ∧ ∀ f, InBlock f i power →
        f < b.maxFrame ∧ ¬ b.Reserved f ∧ ∀ x ∈ s.outstanding, ¬ InBlock f x.1 x.2 := by
  obtain ⟨e, he⟩ | ⟨s1, p0, hs, hr, hg, hu, hc, hl, hp⟩ := init_spec b room memory
  · simp [he] at hinit
  obtain rfl : s1 = s₀ := by simpa [hs] using hinit
  obtain ⟨p, h⟩ := inv_run ⟨hr, hg, hu, hc, hl, hp⟩ hrun
  obtain ⟨hn, hfree⟩ | ⟨i, s', p', hs, hl⟩ := splitBlock_spec power h.pagemeta h.holds h.good
  · refine iff_of_false (by simp [hn]) fun ⟨i, hd, hi⟩ => ?_
    obtain ⟨j, l, hle, hj, -⟩ := h.coalesced.run h.good hd fun f hf => by
      obtain ⟨hlt, hnr, hout⟩ := hi f hf
      obtain ⟨j, l, hj | hj, hin⟩ := h.good.tiles.cover f hlt hnr
      · exact ⟨j, l, hj, hin⟩
      · exact absurd hin (hout _ (h.used_eq ▸ hj))
    simp [hfree l hle] at hj
  · have hi : p'.Has i power := .inr (by simp [hl.used_eq])
    refine iff_of_true ⟨s', i, hs⟩ ⟨i, hl.good.tiles.aligned _ _ hi, fun f hf => ?_⟩
    obtain ⟨hlt, hnr⟩ := hl.good.tiles.inside _ _ f hi hf
    refine ⟨hlt, hnr, fun x hx hin => ?_⟩
    rw [← h.used_eq] at hx
    obtain ⟨rfl, rfl⟩ := hl.good.tiles.apart _ _ x.1 x.2 f hi
      (.inr (hl.used_eq ▸ List.mem_cons_of_mem _ hx)) hf hin
    exact (List.nodup_cons.1 (hl.used_eq ▸ hl.good.used_nodup)).1 hx

/-- Once frames 4 to 7 of eight are handed out no block of four is left, for frame 2 is reserved,
though a block of two is. -/
theorem splitBlock_iff_spent : ∃ (b : Board) (s₀ s : FrameInner),
    b.reserved = [⟨8192, 4096⟩] ∧
    init b true (fun _ => ⟨none, none⟩) = some (.ok s₀) ∧
    Relation.ReflTransGen (Step b) ⟨s₀, []⟩ ⟨s, [(4, 2)]⟩ ∧
    (¬ ∃ s' i, s.splitBlock 2 = some (s', some i)) ∧
      ∃ s' i, s.splitBlock 1 = some (s', some i) := by
  have hrun : ∃ (b : Board) (s₀ s : FrameInner), b.reserved = [⟨8192, 4096⟩] ∧
      init b true (fun _ => ⟨none, none⟩) = some (.ok s₀) ∧
      Relation.ReflTransGen (Step b) ⟨s₀, []⟩ ⟨s, [(4, 2)]⟩ ∧ b.base = 0 ∧ b.maxFrame = 8 :=
    ⟨⟨0, 0, 32768, [⟨8192, 4096⟩], by decide, by simp, by decide⟩, _, _, rfl, rfl,
      .tail .refl (@Step.allocate _ _ 2 4 _ rfl), rfl, rfl⟩
  obtain ⟨b, s₀, s, hb, hs, hrun, hbase, hmax⟩ := hrun
  refine ⟨b, s₀, s, hb, hs, hrun, fun hfound => ?_, ?_⟩
  · obtain ⟨i, ⟨c, rfl⟩, hi⟩ := (splitBlock_iff hs hrun 2).1 hfound
    obtain ⟨hlt, -, hout⟩ := hi (2 ^ 2 * c) ⟨le_rfl, by omega⟩
    obtain ⟨-, hres, -⟩ := hi (2 ^ 2 * c + 2) ⟨by omega, by omega⟩
    -- the run starts at frame 0, over the reserved frame, or at frame 4
    obtain rfl | rfl : c = 0 ∨ c = 1 := by omega
    · exact hres ⟨_, hb ▸ List.mem_cons_self, by simp [hbase, pageSize]⟩
    · exact hout _ List.mem_cons_self (by decide)
  · refine (splitBlock_iff hs hrun 1).2 ⟨0, by decide, fun f hf => ⟨?_, ?_, ?_⟩⟩
    all_goals simp [InBlock, Board.Reserved, hb, hbase, hmax, pageSize] at hf ⊢
    all_goals omega

end Sqware.Frame
