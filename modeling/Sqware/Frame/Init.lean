import Sqware.Frame.Refine

/-!
# Initialisation fills the memory with free blocks

`init` sweeps over the frames from the bottom, skips the holes and starts at each other frame
the largest block that is aligned, fits in the memory and stops before the next hole.
-/

namespace Sqware.Frame

open Links Buddy FrameInner List Option

/-! ## Powers -/

theorem trailingZeros_dvd (bits n : Nat) : 2 ^ trailingZeros bits n ∣ n := by
  induction bits generalizing n with
  | zero => simp [trailingZeros]
  | succ bits ih =>
    rw [trailingZeros]
    split
    · simp
    next hodd =>
    obtain ⟨c, hc⟩ := ih (n / 2)
    refine ⟨c, ?_⟩
    rw [pow_succ, Nat.mul_right_comm, ← hc]
    omega

theorem trailingZeros_max {bits n : Nat} (h : trailingZeros bits n < bits) :
    ¬ 2 ^ (trailingZeros bits n + 1) ∣ n := by
  induction bits generalizing n with
  | zero => simp at h
  | succ bits ih =>
    rw [trailingZeros] at h ⊢
    split
    · next hodd =>
      intro hd
      omega
    next hodd =>
    rw [if_neg hodd] at h
    intro hd
    refine ih (n := n / 2) (by omega) ?_
    obtain ⟨c, hc⟩ := hd
    refine ⟨c, ?_⟩
    rw [pow_succ, Nat.mul_right_comm] at hc
    omega

theorem shrink_le (index limit power : Nat) : shrink index limit power ≤ power := by
  induction power with
  | zero => exact le_rfl
  | succ power ih =>
    rw [shrink]
    split
    · omega
    · exact le_rfl

theorem shrink_fits {index limit power : Nat} (h : index < limit) :
    index + 2 ^ shrink index limit power ≤ limit := by
  induction power with
  | zero => exact h
  | succ power ih =>
    rw [shrink]
    split
    · exact ih
    · next hc => exact not_lt.1 hc

/-- The loop only goes down while the next power does not fit. -/
theorem shrink_max {index limit power : Nat} (h : shrink index limit power < power) :
    limit < index + 2 ^ (shrink index limit power + 1) := by
  induction power with
  | zero => simp at h
  | succ power ih =>
    rw [shrink] at h ⊢
    split
    · next hc =>
      rcases Nat.lt_or_ge (shrink index limit power) power with hlt | hge
      · exact ih hlt
      · have := shrink_le index limit power
        rwa [show shrink index limit power = power by omega]
    · next hc =>
      rw [if_neg hc] at h
      omega

/-! ## Holes -/

/-- The frame lies in one of the holes. -/
def InHole (holes : List (Nat × Nat)) (f : Nat) : Prop := ∃ h ∈ holes, h.1 ≤ f ∧ f < h.2

theorem holeContaining_eq_some {holes : List (Nat × Nat)} {f last : Nat}
    (h : holeContaining holes f = some last) : ∃ g ∈ holes, g.1 ≤ f ∧ f < g.2 ∧ g.2 = last := by
  simp only [holeContaining, map_eq_some_iff] at h
  obtain ⟨g, hg, rfl⟩ := h
  have hp := List.find?_some hg
  simp only [decide_eq_true_eq] at hp
  exact ⟨g, mem_of_find?_eq_some hg, hp.1, hp.2, rfl⟩

/-- The next hole above a frame, or the end of the memory. -/
def limitAt (holes : List (Nat × Nat)) (n index : Nat) : Nat :=
  (((holes.map (·.1)).filter (index < ·)).min?).getD n

theorem limitAt_cases (holes : List (Nat × Nat)) (n index : Nat) :
    (limitAt holes n index = n ∧ ∀ h ∈ holes, h.1 ≤ index) ∨
    (∃ h ∈ holes, index < h.1 ∧ h.1 = limitAt holes n index ∧
      ∀ g ∈ holes, index < g.1 → h.1 ≤ g.1) := by
  unfold limitAt
  cases hm : ((holes.map (·.1)).filter (index < ·)).min? with
  | none =>
    left
    rw [min?_eq_none_iff, filter_eq_nil_iff] at hm
    refine ⟨rfl, fun h hh => ?_⟩
    simpa using hm h.1 (List.mem_map_of_mem hh)
  | some m =>
    right
    obtain ⟨hmem, hmin⟩ := min?_eq_some_iff.1 hm
    simp only [mem_filter, List.mem_map, decide_eq_true_eq] at hmem hmin
    obtain ⟨⟨h, hh, rfl⟩, hlt⟩ := hmem
    exact ⟨h, hh, hlt, rfl, fun g hg hgt => hmin g.1 ⟨⟨g, hg, rfl⟩, hgt⟩⟩

/-- The block could not have been twice as large: it is not aligned, or the memory ends, or a
hole starts first. -/
def Maximal (holes : List (Nat × Nat)) (n i k : Nat) : Prop :=
  2 ^ (k + 1) ∣ i → i + 2 ^ (k + 1) ≤ n → ∃ h ∈ holes, i < h.1 ∧ h.1 < i + 2 ^ (k + 1)

section
variable {holes : List (Nat × Nat)} {n : Nat}

theorem blockAt_spec (hin : ∀ h ∈ holes, h.1 ≤ n ∧ h.2 ≤ n) (hn : n < usizeSize)
    {index remaining : Nat} (hsum : index + remaining = n) (hpos : remaining ≠ 0)
    (hout : ¬ InHole holes index) :
    2 ^ blockAt holes n index remaining ∣ index ∧
    index + 2 ^ blockAt holes n index remaining ≤ n ∧
    (∀ f, InBlock f index (blockAt holes n index remaining) → ¬ InHole holes f) ∧
    Maximal holes n index (blockAt holes n index remaining) := by
  have hlim := limitAt_cases holes n index
  obtain ⟨hlt, hle⟩ : index < limitAt holes n index ∧ limitAt holes n index ≤ n := by
    rcases hlim with ⟨he, _⟩ | ⟨h, hh, h1, h2, _⟩
    · omega
    · have := (hin h hh).1
      omega
  have hk : blockAt holes n index remaining = shrink index (limitAt holes n index)
      (min (min (trailingZeros 64 index) (Nat.log2 remaining)) (Nat.log2 n)) := rfl
  generalize hp : min (min (trailingZeros 64 index) (Nat.log2 remaining)) (Nat.log2 n) = p at hk
  rw [hk]
  have hfit : index + 2 ^ shrink index (limitAt holes n index) p ≤ limitAt holes n index :=
    shrink_fits hlt
  have hkp := shrink_le index (limitAt holes n index) p
  refine ⟨?_, hfit.trans hle, ?_, ?_⟩
  · exact (pow_dvd_pow 2 (show _ ≤ trailingZeros 64 index by omega)).trans
      (trailingZeros_dvd 64 index)
  · rintro f ⟨hf1, hf2⟩ ⟨g, hg, hg1, hg2⟩
    rcases Nat.lt_or_ge index g.1 with hgt | hge
    · rcases hlim with ⟨_, hall⟩ | ⟨h, _, _, he, hmin⟩
      · have := hall g hg
        omega
      · have := hmin g hg hgt
        omega
    · exact hout ⟨g, hg, hge, by omega⟩
  intro hd hend
  rcases Nat.lt_or_ge (shrink index (limitAt holes n index) p) p with hlt' | hge
  · -- the loop went down, so a limit before the end of the memory is in the way
    have hmax := shrink_max hlt'
    rcases hlim with ⟨he, _⟩ | ⟨h, hh, h1, h2, _⟩
    · omega
    · exact ⟨h, hh, h1, by omega⟩
  -- the loop did not go down, so one of the three bounds is exact
  exfalso
  have hkeq : shrink index (limitAt holes n index) p = p := by omega
  rw [hkeq] at hd hend
  have hbig : ∀ m, m ≤ n → 2 ^ (p + 1) ≤ m → p ≠ Nat.log2 m := by
    rintro m _ hm rfl
    exact absurd (Nat.lt_log2_self (n := m)) (not_lt.2 hm)
  have h1 := hbig n le_rfl (by omega)
  have h2 := hbig remaining (by omega) (by omega)
  have h3 : p = trailingZeros 64 index := by omega
  rcases Nat.lt_or_ge (trailingZeros 64 index) 64 with h64 | h64
  · exact trailingZeros_max h64 (h3 ▸ hd)
  · have : 2 ^ 64 ≤ 2 ^ (p + 1) := Nat.pow_le_pow_right (by omega) (by omega)
    unfold usizeSize at hn
    omega

/-- The sweep from a frame below which everything is tiled. -/
theorem fill_spec (hin : ∀ h ∈ holes, h.1 ≤ n ∧ h.2 ≤ n) (hn : n < usizeSize) {fuel : Nat}
    {s : FrameInner} {p : Pool} {index remaining : Nat} (hsum : index + remaining = n)
    (hfuel : remaining ≤ fuel) (hlen : s.pagemeta.length = n)
    (hpow : s.freelist.length = Nat.log2 n + 1) (h : Holds s p.free)
    (hg : p.Good index (InHole holes)) (hu : p.used = [])
    (hmax : ∀ i k, i ∈ p.free k → Maximal holes n i k) :
    ∃ (s' : FrameInner) (p' : Pool), fill holes n fuel s index remaining = some s' ∧
      Holds s' p'.free ∧
      p'.Good n (InHole holes) ∧ p'.used = [] ∧ (∀ i k, i ∈ p'.free k → Maximal holes n i k) ∧
      s'.pagemeta.length = n ∧ s'.freelist.length = Nat.log2 n + 1 := by
  induction fuel generalizing s p index remaining with
  | zero =>
    obtain rfl : remaining = 0 := by omega
    obtain rfl : index = n := by omega
    exact ⟨s, p, rfl, h, hg, hu, hmax, hlen, hpow⟩
  | succ fuel ih =>
    rw [fill]
    by_cases hz : remaining = 0
    · obtain rfl : index = n := by omega
      exact ⟨s, p, if_pos hz, h, hg, hu, hmax, hlen, hpow⟩
    rw [if_neg hz]
    cases hc : holeContaining holes index with
    | some last =>
      obtain ⟨g, hgm, hg1, hg2, rfl⟩ := holeContaining_eq_some hc
      have hgn := (hin g hgm).2
      refine ih (by omega) (by omega) hlen hpow h ?_ hu hmax
      exact ⟨hg.tiles.skip hg2.le fun f hf1 hf2 => ⟨g, hgm, hg1.trans hf1, hf2⟩, hg.free_nodup,
        hg.used_nodup, hg.apart⟩
    | none =>
      have hnot : ¬ InHole holes index := by
        rintro ⟨g, hg, h1, h2⟩
        simp only [holeContaining, map_eq_none_iff, find?_eq_none] at hc
        simpa [h1, h2] using hc g hg
      obtain ⟨hd, hend, hout, hmx⟩ := blockAt_spec hin hn hsum hz hnot
      generalize blockAt holes n index remaining = k at hd hend hout hmx ⊢
      have hk : k < s.freelist.length := by
        rw [hpow]
        exact (Nat.pow_lt_pow_iff_right Nat.one_lt_two).1
          (lt_of_le_of_lt (by omega) (Nat.lt_log2_self (n := n)))
      have hnot : ∀ l, index ∉ p.free l := fun l hf =>
        absurd (lt_of_has hg (.inl hf)) (lt_irrefl index)
      obtain ⟨s1, hs1, hr1, hl1, hm1⟩ := pushLink_spec h hk (by omega) hnot
      simp only [hs1, bind_some]
      refine ih (p := ⟨Function.update p.free k (index :: p.free k), []⟩) (by omega) (by omega)
        (hm1.trans hlen) (hl1.trans hpow) hr1 (hg.extend hu hd hout) rfl fun i l hi => ?_
      rcases Pool.mem_update_cons.1 hi with ⟨rfl, rfl⟩ | hi
      · exact hmx
      · exact hmax i l hi

/-- Two free buddies would have been one block, unless an empty hole stood between them. -/
theorem coalesced_of_maximal {p : Pool} (hg : p.Good n (InHole holes))
    (hmax : ∀ i k, i ∈ p.free k → Maximal holes n i k)
    (hne : ∀ h ∈ holes, h.1 < n → h.1 < h.2) : p.Coalesced := by
  -- stated for the lower of the two
  have lower : ∀ i k, 2 ^ (k + 1) ∣ i → i ∈ p.free k → i + 2 ^ k ∉ p.free k := by
    intro i k hd hi hi'
    have hend := hg.tiles.le (.inl hi')
    obtain ⟨h, hh, h1, h2⟩ := hmax i k hi hd (by rw [pow_succ]; omega)
    have hlt : h.1 < n := by rw [pow_succ] at h2; omega
    have hhole : InHole holes h.1 := ⟨h, hh, le_rfl, hne h hh hlt⟩
    rcases inBlock_succ.1 (show InBlock h.1 i (k + 1) from ⟨h1.le, h2⟩) with hf | hf
    · exact (hg.tiles.inside i k h.1 (.inl hi) hf).2 hhole
    · exact (hg.tiles.inside _ k h.1 (.inl hi') hf).2 hhole
  intro i k hi hb
  rcases buddy_cases (hg.tiles.aligned i k (.inl hi)) with ⟨hd, he⟩ | ⟨hd, he⟩
  · exact lower i k hd hi (he ▸ hb)
  · exact lower _ k hd hb (he ▸ hi)

end

/-! ## Reserved regions -/

variable {b : Board}

theorem mem_holes {g : Nat × Nat} :
    g ∈ holes b.base b.edge b.maxFrame b.reserved ↔
      ∃ r ∈ b.reserved, hole b.base b.edge b.maxFrame r = some g := by
  rw [holes, mem_insertionSort, mem_filterMap]

theorem hole_eq_some {r : Region} {g : Nat × Nat} (h : hole b.base b.edge b.maxFrame r = some g) :
    b.base < r.base + r.size ∧ r.base < b.edge ∧
    g = (min ((max r.base b.base - b.base) / pageSize) b.maxFrame,
      min ((min (r.base + r.size) b.edge - b.base + (pageSize - 1)) / pageSize) b.maxFrame) := by
  unfold hole at h
  simp only [] at h
  split at h
  · simp at h
  · next hc =>
    rw [not_or, not_le, not_le] at hc
    exact ⟨hc.1, hc.2, (some.inj h).symm⟩

/-- A frame lies in a hole exactly when it shares bytes with a reserved region. -/
theorem inHole_iff {f : Nat} (hf : f < b.maxFrame) :
    InHole (holes b.base b.edge b.maxFrame b.reserved) f ↔ b.Reserved f := by
  have hedge : b.base + (f + 1) * pageSize ≤ b.edge := by
    have := (Nat.le_div_iff_mul_le pageSize_pos).1 (Nat.succ_le_of_lt hf)
    unfold pageSize at *
    omega
  constructor
  · rintro ⟨g, hg, h1, h2⟩
    obtain ⟨r, hr, he⟩ := mem_holes.1 hg
    obtain ⟨h3, h4, rfl⟩ := hole_eq_some he
    refine ⟨r, hr, ?_, ?_⟩ <;> unfold pageSize at * <;> omega
  rintro ⟨r, hr, h1, h2⟩
  have hc : ¬ (r.base + r.size ≤ b.base ∨ b.edge ≤ r.base) := by
    omega
  refine ⟨_, mem_holes.2 ⟨r, hr, by rw [hole]; exact if_neg hc⟩, ?_, ?_⟩ <;>
    unfold pageSize at * <;> omega

theorem base_le_of_maxFrame (h : b.maxFrame ≠ 0) : b.base < b.edge := by
  unfold Board.maxFrame pageSize at h
  omega

/-- `init` ends, and where it succeeds it leaves a good pool with nothing in use. -/
theorem init_spec (b : Board) (room : Bool) (memory : Memory) :
    (∃ e, FrameInner.init b room memory = some (.error e)) ∨
    ∃ (s : FrameInner) (p : Pool), FrameInner.init b room memory = some (.ok s) ∧
      Holds s p.free ∧ p.Good b.maxFrame b.Reserved ∧ p.used = [] ∧
      p.Coalesced ∧
      s.pagemeta.length = b.maxFrame ∧ s.freelist.length = Nat.log2 b.maxFrame + 1 := by
  unfold FrameInner.init
  split
  · exact .inl ⟨_, rfl⟩
  split
  · exact .inl ⟨_, rfl⟩
  split
  · exact .inl ⟨_, rfl⟩
  next hne =>
  right
  have hn : b.maxFrame < usizeSize :=
    ((Nat.div_le_self _ _).trans (Nat.sub_le _ _)).trans_lt b.edge_lt
  have hin : ∀ h ∈ holes b.base b.edge b.maxFrame b.reserved,
      h.1 ≤ b.maxFrame ∧ h.2 ≤ b.maxFrame := by
    intro h hh
    obtain ⟨r, _, he⟩ := mem_holes.1 hh
    obtain ⟨_, _, rfl⟩ := hole_eq_some he
    exact ⟨min_le_right _ _, min_le_right _ _⟩
  have hstart : Holds ⟨List.replicate (Nat.log2 b.maxFrame + 1) none,
      List.replicate b.maxFrame none, memory⟩ fun _ => [] := by
    refine ⟨fun k h hget => ?_, fun _ _ => rfl, fun i k => ?_, fun _ => nodup_nil, by simp⟩
    · obtain ⟨_, hget⟩ := List.getElem?_eq_some_iff.1 hget
      simpa [Linked] using hget.symm
    · simp [List.getElem?_replicate]
  obtain ⟨s, p, hs, hr, hg, hu, hmax, hl, hp⟩ := fill_spec hin hn (p := ⟨fun _ => [], []⟩)
    (Nat.zero_add _) le_rfl (by simp) (by simp) hstart
    ⟨Tiles.empty.congr (by simp [Pool.Has]), by simp, by simp, by simp⟩ rfl (by simp)
  refine ⟨s, p, by simp only [hs, map_some], hr, ?_, hu, ?_, hl, hp⟩
  · have ht := hg.tiles
    exact ⟨⟨ht.aligned, fun i k f hb hf =>
        ⟨(ht.inside i k f hb hf).1, fun hr => (ht.inside i k f hb hf).2
          ((inHole_iff (ht.inside i k f hb hf).1).2 hr)⟩,
      fun f hf hr => ht.cover f hf fun hh => hr ((inHole_iff hf).1 hh), ht.apart⟩,
      hg.free_nodup, hg.used_nodup, hg.apart⟩
  refine coalesced_of_maximal hg hmax fun h hh hlt => ?_
  obtain ⟨r, hr, he⟩ := mem_holes.1 hh
  obtain ⟨h1, h2, rfl⟩ := hole_eq_some he
  have := b.size_pos r hr
  have := base_le_of_maxFrame hne
  unfold pageSize at *
  omega

end Sqware.Frame
