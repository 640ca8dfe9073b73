import Sqware.Frame.Inner

/-!
# The free lists of the frame allocator are a buddy pool

`Holds s free` connects the state of the allocator to free lists by power: the links in memory
run through exactly those blocks, and `pagemeta` names exactly their first frames.  Over it each
primitive of the allocator is a move of the pool:

    pullLink                 take      (pullLink_spec)
    pushLink                 give      (pushLink_spec)
    removeLink, clearHead    erase     (removeLink_spec)

and `splitBlock` and `mergeBlock` are a take with halvings and joins with a give
(`splitBlock_spec`, `mergeBlock_spec`).
-/

namespace Sqware.Frame

open Links Buddy FrameInner List Option Function

/-- The state holds these free lists. -/
structure Holds (s : FrameInner) (free : Nat → List Nat) : Prop where
  linked : ∀ k h, s.freelist[k]? = some h → Linked s.memory none h (free k)
  absent : ∀ k, s.freelist.length ≤ k → free k = []
  head : ∀ i k, s.pagemeta[i]? = some (some k) ↔ i ∈ free k
  nodup : ∀ k, (free k).Nodup
  apart : ∀ i k l, i ∈ free k → i ∈ free l → k = l

variable {s : FrameInner} {free : Nat → List Nat} {i k : Nat}

theorem Holds.lt_length (h : Holds s free) (hi : i ∈ free k) :
    k < s.freelist.length ∧ i < s.pagemeta.length := by
  constructor
  · by_contra hk
    rw [h.absent k (not_lt.1 hk)] at hi
    simp at hi
  · obtain ⟨hlt, _⟩ := List.getElem?_eq_some_iff.1 ((h.head i k).2 hi)
    exact hlt

variable {hd : Option Nat}

/-- Writing links of blocks of one power leaves the other lists alone. -/
theorem Holds.linked_of_ne (h : Holds s free) {m : Memory} {l : Nat} (hl : l ≠ k)
    (hm : ∀ x, x ∉ free k → x ≠ i → m x = s.memory x) (hi : i ∉ free l)
    (hhd : s.freelist[l]? = some hd) : Linked m none hd (free l) := by
  refine (linked_congr fun x hx => hm x ?_ ?_).2 (h.linked l hd hhd)
  · intro hxk
    exact hl (h.apart x l k hx hxk)
  · rintro rfl
    exact hi hx

/-- Pushing a block that no list holds. -/
theorem pushLink_spec (h : Holds s free) (hk : k < s.freelist.length) (hi : i < s.pagemeta.length)
    (hn : ∀ l, i ∉ free l) :
    ∃ s', s.pushLink i k = some s' ∧ Holds s' (update free k (i :: free k)) ∧
      s'.freelist.length = s.freelist.length ∧ s'.pagemeta.length = s.pagemeta.length := by
  obtain ⟨hd, hhd⟩ : ∃ hd, s.freelist[k]? = some hd := ⟨_, getElem?_eq_getElem hk⟩
  have hlk := h.linked k hd hhd
  refine ⟨_, by rw [pushLink, hhd]; exact if_pos hi, ⟨?_, ?_, ?_, ?_, ?_⟩, by simp, by simp⟩
  · intro l hd' hget
    by_cases hl : l = k
    · subst hl
      rw [getElem?_set_self hk] at hget
      rw [update_self, ← some.inj hget]
      exact linked_push hlk (h.nodup l) (hn l)
    · rw [getElem?_set_ne (Ne.symm hl)] at hget
      rw [update_of_ne hl]
      refine h.linked_of_ne hl (fun x hx hne => ?_) (hn l) hget
      refine (setPrev_of_ne ?_).trans (update_of_ne hne _ _)
      rintro rfl
      exact hx (mem_of_head? hlk.head_eq.symm)
  · intro l hl
    rw [length_set] at hl
    rw [update_of_ne (by omega)]
    exact h.absent l hl
  · intro j l
    rw [Pool.mem_update_cons, List.getElem?_set]
    split
    · next he =>
      subst he
      simp only [some.injEq]
      constructor
      · rintro rfl
        exact .inl ⟨trivial, rfl⟩
      · rintro (⟨_, rfl⟩ | hj)
        · rfl
        · exact absurd hj (hn l)
    · next hne =>
      rw [h.head]
      exact ⟨.inr, fun hj => hj.resolve_left fun hc => hne hc.1.symm⟩
  · exact Pool.nodup_update h.nodup (nodup_cons.2 ⟨hn k, h.nodup k⟩)
  intro j l l' hj hj'
  rcases Pool.mem_update_cons.1 hj with ⟨rfl, rfl⟩ | ho <;>
    rcases Pool.mem_update_cons.1 hj' with ⟨he, he'⟩ | ho'
  · exact he'.symm
  · exact absurd ho' (hn l')
  · exact absurd ho (he ▸ hn l)
  · exact h.apart j l l' ho ho'

/-- Unlinking a block from its list, with the new head where it was the head. -/
theorem Holds.unlink (h : Holds s free) {l1 l2 : List Nat} (hf : free k = l1 ++ i :: l2)
    (hhd : s.freelist[k]? = some hd) :
    Holds ⟨s.freelist.set k (if l1 = [] then (s.memory i).next else hd), s.pagemeta.set i none,
      unlink s.memory i⟩ (update free k ((free k).erase i)) := by
  have hik : i ∈ free k := by rw [hf]; simp
  obtain ⟨hk, hi⟩ := h.lt_length hik
  have hlk := h.linked k hd hhd
  have hnd := h.nodup k
  rw [hf] at hlk hnd
  have hnot : i ∉ l1 := fun hm =>
    (disjoint_of_nodup_append hnd) hm mem_cons_self
  have herase : (free k).erase i = l1 ++ l2 := by
    rw [hf, erase_append_right _ hnot, erase_cons_head]
  refine ⟨?_, ?_, ?_, Pool.nodup_update h.nodup ((h.nodup k).erase i), ?_⟩
  · intro l hd' hget
    by_cases hl : l = k
    · subst hl
      simp only [getElem?_set_self hk, some.injEq] at hget
      rw [update_self, herase, ← hget]
      exact linked_unlink hlk hnd
    simp only [getElem?_set_ne (Ne.symm hl)] at hget
    rw [update_of_ne hl]
    refine h.linked_of_ne (i := i) hl (fun x hx _ => ?_) (fun hm => hl ?_) hget
    · rw [hf] at hx
      refine (setPrev_of_ne ?_).trans (setNext_of_ne ?_)
      swap
      · rw [hlk.prev_eq, or_none]
        intro he
        exact hx (mem_append_left _ (mem_of_getLast? he))
      · rw [hlk.next_eq]
        intro he
        exact hx (mem_append_right _ (mem_cons_of_mem _ (mem_of_head? he)))
    · exact h.apart i l k hm hik
  · intro l hl
    simp only [length_set] at hl
    rw [update_of_ne (by omega)]
    exact h.absent l hl
  · intro j l
    rw [Pool.mem_update_erase h.nodup, List.getElem?_set]
    split
    · next he =>
      subst he
      simp only [some.injEq, reduceCtorEq, false_iff]
      rintro ⟨hj, hne⟩
      exact hne ⟨trivial, h.apart i l k hj hik⟩
    · next hne =>
      rw [h.head]
      exact ⟨fun hj => ⟨hj, fun hc => hne hc.1.symm⟩, fun hj => hj.1⟩
  · intro j l l' hj hj'
    exact h.apart j l l' ((Pool.mem_update_erase h.nodup).1 hj).1
      ((Pool.mem_update_erase h.nodup).1 hj').1

/-- The head of a list comes off it. -/
theorem pullLink_spec (h : Holds s free) (hhd : s.freelist[k]? = some (some i)) :
    i ∈ free k ∧ ∃ s', s.pullLink k = some (s', some i) ∧
      Holds s' (update free k ((free k).erase i)) ∧
      s'.freelist.length = s.freelist.length ∧ s'.pagemeta.length = s.pagemeta.length := by
  have hlk := h.linked k _ hhd
  obtain ⟨l2, hf⟩ : ∃ l2, free k = [] ++ i :: l2 := by
    cases hl : free k with
    | nil =>
      rw [hl] at hlk
      exact absurd hlk (by simp [Linked])
    | cons j l2 =>
      rw [hl] at hlk
      exact ⟨l2, by rw [some.inj hlk.1]; rfl⟩
  have hik : i ∈ free k := by rw [hf]; simp
  obtain ⟨_, hi⟩ := h.lt_length hik
  rw [hf] at hlk
  refine ⟨hik, _, ?_, h.unlink hf hhd, by simp, by simp⟩
  rw [pullLink, hhd]
  simp only [if_neg (not_le.2 hi), clearHead, if_pos hi, map_some, if_true, unlink,
    hlk.prev_eq, List.getLast?_nil, or_none, setNext]

/-- `remove_link` and `clear_head` together take a block out of its list, wherever it is. -/
theorem removeLink_spec (h : Holds s free) (hik : i ∈ free k) :
    ∃ s', ((s.removeLink i k).bind fun s => s.clearHead i) = some s' ∧
      Holds s' (update free k ((free k).erase i)) ∧
      s'.freelist.length = s.freelist.length ∧ s'.pagemeta.length = s.pagemeta.length := by
  obtain ⟨hk, hi⟩ := h.lt_length hik
  obtain ⟨hd, hhd⟩ : ∃ hd, s.freelist[k]? = some hd := ⟨_, getElem?_eq_getElem hk⟩
  have hlk := h.linked k hd hhd
  obtain ⟨l1, l2, hf⟩ := append_of_mem hik
  rw [hf] at hlk
  refine ⟨_, ?_, h.unlink hf hhd, by simp, by simp⟩
  rw [removeLink]
  simp only [unlink]
  have hprev : (s.memory i).prev = l1.getLast? := by rw [hlk.prev_eq, or_none]
  cases hl : l1.getLast? with
  | none =>
    rw [getLast?_eq_none_iff] at hl
    subst hl
    rw [hprev]
    simp only [List.getLast?_nil, if_pos hk, bind_some, clearHead, if_pos hi, setNext,
      if_true]
  | some p =>
    have hne : l1 ≠ [] := by
      rintro rfl
      simp at hl
    have hset : s.freelist.set k hd = s.freelist := by
      obtain ⟨_, rfl⟩ := List.getElem?_eq_some_iff.1 hhd
      exact set_getElem_self _
    rw [hprev, hl]
    simp only [bind_some, clearHead, if_pos hi, if_neg hne, hset]

theorem inFreelist_spec (h : Holds s free) (hk : k < s.freelist.length) :
    s.inFreelist i k = some (decide (i ∈ free k)) := by
  have hget : s.freelist[k]? = some s.freelist[k] := getElem?_eq_getElem hk
  have hlen : (free k).length ≤ s.pagemeta.length := by
    have hsub : free k ⊆ List.range s.pagemeta.length :=
      fun j hj => mem_range.2 (h.lt_length hj).2
    simpa using (subperm_of_subset (h.nodup k) hsub).length_le
  rw [inFreelist, hget]
  exact walk_eq (h.linked k _ hget) i hlen

theorem Holds.clearHead (h : Holds s free) (hn : ∀ l, i ∉ free l) :
    Holds { s with pagemeta := s.pagemeta.set i none } free where
  linked := h.linked
  absent := h.absent
  head := by
    intro j l
    rw [List.getElem?_set]
    split
    · next he =>
      subst he
      split <;> simp [hn l]
    · exact h.head j l
  nodup := h.nodup
  apart := h.apart

/-! ## Split and merge -/

section
variable {n : Nat} {R : Nat → Prop} {p : Pool} {rest : List (Nat × Nat)}

theorem not_mem_free_of_used (hg : p.Good n R) (hi : (i, k) ∈ p.used) (l : Nat) :
    i ∉ p.free l := by
  intro hf
  obtain ⟨_, rfl⟩ := hg.tiles.apart i l i k i (.inl hf) (.inr hi) (inBlock_self _ _)
    (inBlock_self _ _)
  exact hg.apart i l hf hi

theorem lt_of_has (hg : p.Good n R) (hi : p.Has i k) : i < n :=
  (hg.tiles.inside i k i hi (inBlock_self i k)).1

/-- No block is larger than the memory, so its power has a list. -/
theorem power_lt (hg : p.Good n R) (hi : p.Has i k) : k < Nat.log2 n + 1 := by
  have hle := hg.tiles.le hi
  have hlt : 2 ^ k < 2 ^ (Nat.log2 n + 1) := lt_of_le_of_lt (by omega) Nat.lt_log2_self
  exact (Nat.pow_lt_pow_iff_right Nat.one_lt_two).1 hlt

/-- What an operation on the allocator leaves: a good pool whose blocks in use are `used`. -/
structure Leaves (n : Nat) (R : Nat → Prop) (s : FrameInner) (p : Pool) (s' : FrameInner)
    (p' : Pool) (used : List (Nat × Nat)) : Prop where
  holds : Holds s' p'.free
  good : p'.Good n R
  used_eq : p'.used = used
  coalesced : p.Coalesced → p'.Coalesced
  freelist : s'.freelist.length = s.freelist.length
  pagemeta : s'.pagemeta.length = s.pagemeta.length

theorem Leaves.trans {s' s'' : FrameInner} {p' p'' : Pool} {u u' : List (Nat × Nat)}
    (h : Leaves n R s p s' p' u) (h' : Leaves n R s' p' s'' p'' u') :
    Leaves n R s p s'' p'' u' where
  holds := h'.holds
  good := h'.good
  used_eq := h'.used_eq
  coalesced := fun hc => h'.coalesced (h.coalesced hc)
  freelist := h'.freelist.trans h.freelist
  pagemeta := h'.pagemeta.trans h.pagemeta

theorem pushBuddies_spec {power : Nat} (hp : power ≤ k) (hk : k ≤ s.freelist.length)
    (hn : s.pagemeta.length = n) (h : Holds s p.free) (hg : p.Good n R)
    (hu : p.used = (i, k) :: rest) :
    ∃ s' p', pushBuddies i power k s = some s' ∧
      Leaves n R s p s' p' ((i, power) :: rest) := by
  induction k generalizing s p with
  | zero =>
    obtain rfl : power = 0 := by omega
    exact ⟨s, p, rfl, h, hg, hu, id, rfl, rfl⟩
  | succ k ih =>
    rw [pushBuddies]
    by_cases hlt : power < k + 1
    · have hi : (i, k + 1) ∈ p.used := by rw [hu]; simp
      have hg' := hg.halve hi
      have hfree : ∀ l, buddy i k ∉ p.free l := by
        intro l hf
        rw [buddy_of_dvd (hg.tiles.aligned i (k + 1) (.inr hi))] at hf
        have := hg.tiles.apart _ l i (k + 1) _ (.inl hf) (.inr hi) (inBlock_self _ _)
          (inBlock_succ.2 (.inr (inBlock_self _ _)))
        have := Nat.two_pow_pos k
        omega
      have hb : buddy i k < n := lt_of_has (k := k) hg' (.inl (by simp [Pool.halve]))
      obtain ⟨s1, hs1, hr1, hl1, hm1⟩ := pushLink_spec (k := k) h (by omega) (hn ▸ hb) hfree
      have hu1 : (p.halve i k).used = (i, k) :: rest := by
        simp [Pool.halve, hu]
      have hleaf : Leaves n R s p s1 (p.halve i k) ((i, k) :: rest) :=
        ⟨hr1, hg', hu1, fun hc => Pool.Coalesced.halve hg hc hi, hl1, hm1⟩
      obtain ⟨s2, p2, hs2, hl2⟩ := ih (by omega) (by omega) (hm1.trans hn) hr1 hg' hu1
      exact ⟨s2, p2, by rw [if_pos hlt, hs1, bind_some, hs2], hleaf.trans hl2⟩
    · obtain rfl : power = k + 1 := by omega
      exact ⟨s, p, if_neg hlt, h, hg, hu, id, rfl, rfl⟩

theorem splitBlock_spec (power : Nat) (hn : s.pagemeta.length = n) (h : Holds s p.free)
    (hg : p.Good n R) :
    (s.splitBlock power = some (s, none) ∧ ∀ k, power ≤ k → p.free k = []) ∨
    ∃ i s' p', s.splitBlock power = some (s', some i) ∧
      Leaves n R s p s' p' ((i, power) :: p.used) := by
  rw [splitBlock]
  cases hd : (s.freelist.drop power).findIdx? Option.isSome with
  | none =>
    left
    refine ⟨rfl, fun k hk => ?_⟩
    by_cases hlt : k < s.freelist.length
    · have hget : s.freelist[k]? = some s.freelist[k] := getElem?_eq_getElem hlt
      have hmem : s.freelist[k] ∈ s.freelist.drop power := by
        refine mem_of_getElem? (i := k - power) ?_
        rw [List.getElem?_drop, Nat.add_sub_cancel' hk, hget]
      have hnone := findIdx?_eq_none_iff.1 hd _ hmem
      have hlk := h.linked k _ hget
      rw [isSome_eq_false_iff, isNone_iff_eq_none] at hnone
      have := hlk.head_eq
      rw [hnone] at this
      exact head?_eq_none_iff.1 this.symm
    · exact h.absent k (not_lt.1 hlt)
  | some d =>
    right
    obtain ⟨hlt, hsome, _⟩ := findIdx?_eq_some_iff_getElem.1 hd
    rw [getElem_drop] at hsome
    obtain ⟨i, hi⟩ := isSome_iff_exists.1 hsome
    have hlt' : power + d < s.freelist.length := by
      rw [length_drop] at hlt
      omega
    have hget : s.freelist[power + d]? = some (some i) := by
      rw [getElem?_eq_getElem hlt', hi]
    obtain ⟨hif, s1, hs1, hr1, hl1, hm1⟩ := pullLink_spec h hget
    have hleaf : Leaves n R s p s1 (p.take i (power + d)) ((i, power + d) :: p.used) :=
      ⟨hr1, hg.take hif, rfl, fun hc => hc.mono fun j l hj =>
        ((Pool.mem_update_erase hg.free_nodup).1 hj).1, hl1, hm1⟩
    obtain ⟨s2, p2, hs2, hl2⟩ := pushBuddies_spec (Nat.le_add_right power d) (by omega)
      (hm1.trans hn) hr1 hleaf.good hleaf.used_eq
    exact ⟨i, s2, p2, by simp only [hs1, hs2, map_some], hleaf.trans hl2⟩

/-- A block in hand with its buddy free is joined; the loop ends at a block whose buddy is not
free, and before the table of lists does. -/
theorem mergeUp_spec {fuel : Nat} (hn : s.pagemeta.length = n)
    (hlen : s.freelist.length = Nat.log2 n + 1) (hfuel : s.freelist.length - k ≤ fuel)
    (h : Holds s p.free) (hg : p.Good n R) (hu : p.used = (i, k) :: rest) :
    ∃ s' i' k' p', mergeUp fuel s i k = some (s', i', k') ∧
      Leaves n R s p s' p' ((i', k') :: rest) ∧ buddy i' k' ∉ p'.free k' := by
  induction fuel generalizing s p i k with
  | zero =>
    have := power_lt hg (.inr (by rw [hu]; exact mem_cons_self))
    omega
  | succ fuel ih =>
    have hi : (i, k) ∈ p.used := by rw [hu]; simp
    rw [mergeUp]
    by_cases hb : buddy i k ∈ p.free k
    · have hk := (h.lt_length hb).1
      rw [if_pos ((h.head _ _).2 hb), inFreelist_spec h hk, decide_eq_true hb]
      obtain ⟨s1, hs1, hr1, hl1, hm1⟩ := removeLink_spec h hb
      have hleaf : Leaves n R s p s1 (p.join i k) ((min i (buddy i k), k + 1) :: rest) := by
        refine ⟨hr1, hg.join hi hb, by simp [Pool.join, hu], fun hc => hc.mono fun j l hj => ?_,
          hl1, hm1⟩
        exact ((Pool.mem_update_erase hg.free_nodup).1 hj).1
      obtain ⟨s2, i2, k2, p2, hs2, hl2, hb2⟩ := ih (hm1.trans hn) (hl1.trans hlen) (by omega) hr1
        hleaf.good hleaf.used_eq
      refine ⟨s2, i2, k2, p2, ?_, hleaf.trans hl2, hb2⟩
      rw [← bind_assoc, hs1, bind_some, hs2]
    · rw [if_neg fun hc => hb ((h.head _ _).1 hc)]
      exact ⟨s, i, k, p, rfl, ⟨h, hg, hu, id, rfl, rfl⟩, hb⟩

theorem mergeBlock_spec (hn : s.pagemeta.length = n) (hlen : s.freelist.length = Nat.log2 n + 1)
    (h : Holds s p.free) (hg : p.Good n R) (hi : (i, k) ∈ p.used) :
    ∃ s' p', s.mergeBlock i k = some s' ∧ Leaves n R s p s' p' (p.used.erase (i, k)) := by
  have hnot := not_mem_free_of_used hg hi
  have hlt : i < s.pagemeta.length := by rw [hn]; exact lt_of_has hg (.inr hi)
  have hu := (perm_cons_erase hi).symm
  have hg1 : (⟨p.free, (i, k) :: p.used.erase (i, k)⟩ : Pool).Good n R :=
    ⟨hg.tiles.congr fun i k => by simp only [Pool.Has, hu.mem_iff], hg.free_nodup,
      hu.nodup_iff.2 hg.used_nodup, fun i k hi hm => hg.apart i k hi (hu.mem_iff.1 hm)⟩
  obtain ⟨s2, i2, k2, p2, hs2, hl2, hb2⟩ := mergeUp_spec
    (s := { s with pagemeta := s.pagemeta.set i none })
    (p := ⟨p.free, (i, k) :: p.used.erase (i, k)⟩)
    (by simpa using hn) hlen le_rfl (h.clearHead hnot) hg1 rfl
  have hi2 : (i2, k2) ∈ p2.used := by rw [hl2.used_eq]; exact mem_cons_self
  have hk2 : k2 < s2.freelist.length := by
    rw [hl2.freelist, hlen]
    exact power_lt hl2.good (.inr hi2)
  have hlt2 : i2 < s2.pagemeta.length := by
    rw [hl2.pagemeta, length_set, hn]
    exact lt_of_has hl2.good (.inr hi2)
  obtain ⟨s3, hs3, hr3, hl3, hm3⟩ := pushLink_spec hl2.holds hk2 hlt2
    (not_mem_free_of_used hl2.good hi2)
  refine ⟨s3, p2.give i2 k2, ?_, hr3, hl2.good.give hi2, ?_, fun hc => ?_,
    hl3.trans hl2.freelist, by rw [hm3, hl2.pagemeta, length_set]⟩
  · rw [mergeBlock, clearHead, if_pos hlt, bind_some, hs2, bind_some]
    simp only []
    rw [hs3, bind_some, inFreelist_spec hr3 (by omega), map_some]
  · simp [Pool.give, hl2.used_eq]
  · exact (hl2.coalesced hc).give hb2

end

end Sqware.Frame
