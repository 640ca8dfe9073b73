import Sqware.Nest.TableSpec

/-!
# Splitting, unmapping and pruning

The operations that take a range apart: leaves that cross its ends are split, its leaves are cleared
and the tables that became empty are taken out.
-/

namespace Sqware.Nest

open Radix List Option Keyed

namespace TableNode

/-! ## Splitting -/

/-- The leaf over a page may have come to be smaller. -/
def Finer (x y : Option Leaf) : Prop :=
  (x = none ∧ y = none) ∨
    ∃ a b, x = some a ∧ y = some b ∧ b.ppn = a.ppn ∧ b.flags = a.flags ∧ b.level ≤ a.level

theorem Finer.refl (x : Option Leaf) : Finer x x := by
  cases x with
  | none => exact .inl ⟨rfl, rfl⟩
  | some a => exact .inr ⟨a, a, rfl, rfl, rfl, rfl, le_rfl⟩

theorem Finer.trans {x y z : Option Leaf} (h : Finer x y) (h' : Finer y z) : Finer x z := by
  rcases h with ⟨rfl, rfl⟩ | ⟨a, b, rfl, rfl, hp, hf, hl⟩
  · exact h'
  rcases h' with ⟨hn, _⟩ | ⟨b', c, hb, rfl, hp', hf', hl'⟩
  · simp at hn
  · cases hb
    exact .inr ⟨a, c, rfl, rfl, hp'.trans hp, hf'.trans hf, hl'.trans hl⟩

/-- Leaves were split: the table is well formed still, and translations are as they were. -/
structure Refined (l : Nat) (n n' : TableNode) : Prop where
  wf : WF l n'
  finer : ∀ q, Finer (look l n q) (look l n' q)

theorem Refined.refl {l : Nat} {n : TableNode} (h : WF l n) : Refined l n n := ⟨h, fun _ => .refl _⟩

theorem Refined.trans {l : Nat} {n n1 n2 : TableNode} (h : Refined l n n1) (h' : Refined l n1 n2) :
    Refined l n n2 :=
  ⟨h'.wf, fun q => (h.finer q).trans (h'.finer q)⟩

@[simp] theorem entries_shatter (e : Entry) (l i : Nat) :
    (shatter e l).entries i = { ppn := e.ppn + i * span l, flags := e.flags } := rfl

variable {l : Nat} {n : TableNode}

theorem wf_shatter {e : Entry} (hl : e.isLeaf = true) (ha : span (l + 1) ∣ e.ppn) :
    WF l (shatter e l) := by
  have hb : ∀ i, ((shatter e l).entries i).isBranch = false := fun i => not_branch_of_leaf hl
  cases l with
  | zero => exact wf_zero rfl hb
  | succ l =>
    refine wf_succ nodup_nil (fun i => hb i) (fun i _ _ => ?_) (fun i c hc => ?_)
    · exact Nat.dvd_add (Nat.dvd_trans (span_dvd (Nat.le_succ _)) ha) (Nat.dvd_mul_left _ _)
    · simp [child, shatter, children, Keyed.get] at hc

theorem look_shatter {e : Entry} (hv : e.isValid = true) (hl : e.isLeaf = true) (p : Nat) :
    look l (shatter e l) p = some ⟨l, e.ppn + p % span (l + 1), e.flags⟩ := by
  rw [look_leaf (n := shatter e l) hv hl, entries_shatter]
  have : p % span (l + 1) = digit 512 l p * span l + p % span l := by
    rw [span, span, pow_succ, Nat.mod_mul, digit, Nat.mul_comm, Nat.add_comm]
  rw [this, Nat.add_assoc]

variable {p : Nat}

theorem look_level_le {a : Leaf} (h : look l n p = some a) : a.level ≤ l := by
  induction l, n, a, h using look_induct with
  | leaf => exact le_rfl
  | branch l n c a hb hc h ih => exact ih.trans (Nat.le_succ l)

variable {answer : Except NestError Unit} {room' : Nat} {n' : TableNode}

theorem splitAt_spec {t : Nat} (h : WF l n) (room : Nat)
    (hr : splitAt t p l n room = (answer, n', room')) :
    Refined l n n' ∧ ∀ a, answer = .ok () → look l n p = some a → t ≤ a.level →
        ∃ b, look l n' p = some b ∧ b.level = t := by
  induction l generalizing n room answer n' room' with
  | zero =>
    unfold splitAt at hr
    cases hr
    refine ⟨.refl h, fun a _ ha ht => ⟨a, ha, ?_⟩⟩
    have := look_level_le ha
    omega
  | succ l ih =>
    unfold splitAt at hr
    split at hr
    · next hle =>
      cases hr
      refine ⟨.refl h, fun a _ ha ht => ⟨a, ha, ?_⟩⟩
      have := look_level_le ha
      omega
    next hlt =>
    simp only at hr
    split at hr
    · next hv =>
      cases hr
      refine ⟨.refl h, fun a _ ha => ?_⟩
      cases (look_invalid (by simpa using hv)).symm.trans ha
    next hv =>
    rw [Bool.not_eq_true, Bool.not_eq_eq_eq_not, Bool.not_false] at hv
    split at hr
    · cases hr
      exact ⟨.refl h, by simp⟩
    next n1 room1 hg =>
    -- a leaf was split into a table, in which the walk goes on
    have hsplit : Refined (l + 1) n n1 ∧ ∀ a, look (l + 1) n p = some a → t ≤ a.level →
        ∃ b, look (l + 1) n1 p = some b ∧ t ≤ b.level := by
      split at hg
      · next hl =>
        have hh := hangs_grown (c := shatter (n.entries (digit 512 (l + 1) p)) l) h
          (h.child_none (not_branch_of_leaf hl))
        rw [grow_ok hg]
        refine ⟨⟨hh.wf h (wf_shatter hl (h.aligned hv hl)), fun q => ?_⟩, fun a ha _ => ?_⟩
        · rw [hh.look_eq]
          split
          · next hd =>
            rw [look_leaf (hd ▸ hv) (hd ▸ hl), look_shatter hv hl]
            exact .inr ⟨_, _, rfl, rfl, by rw [hd], by rw [hd], Nat.le_succ l⟩
          · exact .refl _
        · rw [hh.look_eq, if_pos rfl, look_shatter hv hl]
          exact ⟨_, rfl, by dsimp only; omega⟩
      · cases hg
        exact ⟨.refl h, fun a ha ht => ⟨a, ha, ht⟩⟩
    obtain ⟨hs, hlevel⟩ := hsplit
    split at hr
    · cases hr
      exact ⟨hs, by simp⟩
    next c hc =>
    rcases hsub : splitAt t p l c room1 with ⟨a, c', r⟩
    obtain ⟨hsc, hlc⟩ := ih (hs.wf.child hc) room1 hsub
    rw [hsub] at hr
    cases hr
    have hh : Hangs _ c' n1 _ := hangs_setChild hs.wf hc
    have hlook : ∀ q, digit 512 (l + 1) q = digit 512 (l + 1) p →
        look (l + 1) n1 q = look l c q := fun q hd =>
      look_branch (hd ▸ hs.wf.isBranch hc) (hd ▸ hc)
    refine ⟨hs.trans ⟨hh.wf hs.wf hsc.wf, fun q => ?_⟩, fun x hok hx ht => ?_⟩
    · rw [hh.look_eq]
      split
      · next hd => rw [hlook q hd]; exact hsc.finer q
      · exact .refl _
    obtain ⟨b, hb, htb⟩ := hlevel x hx ht
    rw [hlook p rfl] at hb
    rw [hh.look_eq, if_pos rfl]
    exact hlc b hok hb htb

/-- What a walk over a well-formed tree finds. -/
theorem leafRef_spec (h : WF l n) (p : Nat) :
    ∃ e k, leafRef p l n = .ok (e, k) ∧ ((e.isValid = false ∧ look l n p = none) ∨
      (e.isValid = true ∧ e.isLeaf = true ∧ span k ∣ e.ppn ∧
        look l n p = some ⟨k, e.ppn + p % span k, e.flags⟩)) := by
  induction l generalizing n with
  | zero =>
    cases hv : (n.entries (digit 512 0 p)).isValid with
    | false => exact ⟨_, 0, by unfold leafRef; simp [hv], .inl ⟨hv, look_invalid hv⟩⟩
    | true =>
      have hb := h.not_branch_zero (digit 512 0 p)
      have hl : (n.entries (digit 512 0 p)).isLeaf = true := by simpa [isBranch_eq, hv] using hb
      exact ⟨_, 0, by unfold leafRef; simp [hl], .inr ⟨hv, hl, h.aligned hv hl, look_leaf hv hl⟩⟩
  | succ l ih =>
    cases hv : (n.entries (digit 512 (l + 1) p)).isValid with
    | false => exact ⟨_, l + 1, by rw [leafRef]; simp [hv], .inl ⟨hv, look_invalid hv⟩⟩
    | true =>
      cases hl : (n.entries (digit 512 (l + 1) p)).isLeaf with
      | true =>
        exact ⟨_, l + 1, by rw [leafRef]; simp [hl],
          .inr ⟨hv, hl, h.aligned hv hl, look_leaf hv hl⟩⟩
      | false =>
        have hb := isBranch_of_not_leaf hv hl
        obtain ⟨c, hc, hw⟩ := h.exists_child hb
        obtain ⟨e, k, he, hcase⟩ := ih hw
        exact ⟨e, k, by rw [leafRef]; simp [hv, hl, hc, he], look_branch hb hc ▸ hcase⟩

/-- `walk_ref` reads the translation. -/
theorem walkRef_ok_iff (h : WF l n) {ppn : Nat} {flags : PteFlags} :
    walkRef l n p = .ok (ppn, flags) ↔ ∃ a, look l n p = some a ∧
      a.ppn = ppn ∧ a.flags = flags := by
  obtain ⟨e, k, he, hcase⟩ := leafRef_spec h p
  unfold walkRef
  rw [he]
  rcases hcase with ⟨hv, hn⟩ | ⟨hv, hl, ha, hs⟩
  · simp [hv, hn]
  · simp [hv, hl, hs, Nat.mod_eq_zero_of_dvd ha]

variable {q : Nat}

/-- A leaf is the same from every page of its block. -/
theorem look_block {r : Nat} {a : Leaf} (h : look l n q = some a)
    (hr : r / span a.level = q / span a.level) :
    ∃ b, look l n r = some b ∧ b.level = a.level ∧ b.flags = a.flags ∧
      b.ppn + q % span a.level = a.ppn + r % span a.level := by
  have hag : Agree 512 l a.level r q := agree_of_div hr
  clear hr
  induction l, n, a, h using look_induct with
  | leaf l n hv hl =>
    rw [agree_self] at hag
    rw [look_leaf (hag ▸ hv) (hag ▸ hl)]
    exact ⟨_, rfl, rfl, by rw [hag], by rw [hag]; exact Nat.add_right_comm _ _ _⟩
  | branch l n c a hb hc h ih =>
    have hlev := look_level_le h
    obtain ⟨hd, hag⟩ := (agree_succ (by omega)).1 hag
    rw [look_branch (hd ▸ hb) (hd ▸ hc)]
    exact ih hag

variable {size : Nat}

theorem prepareEnd_spec {point : Nat} {atStart : Bool} (fuel : Nat) (h : WF l n)
    (room : Nat) (hr : prepareEnd l point size atStart fuel n room = (answer, n', room')) :
    Refined l n n' ∧ ((∀ a, look l n point = some a → a.level < fuel) → answer = .ok () →
      ∀ b, look l n' point = some b → b.level = 0 ∨ covered b.level point size atStart = true) := by
  induction fuel generalizing n room with
  | zero =>
    unfold prepareEnd at hr
    cases hr
    exact ⟨.refl h, fun hf _ b hb => absurd (hf b hb) (by omega)⟩
  | succ fuel ih =>
    unfold prepareEnd at hr
    obtain ⟨e, k, he, hcase⟩ := leafRef_spec h point
    rw [he] at hr
    simp only at hr
    split at hr
    · next hstop =>
      cases hr
      refine ⟨.refl h, fun _ _ b hb => ?_⟩
      rcases hcase with ⟨_, hn⟩ | ⟨hv, _, _, hs⟩
      · cases hn.symm.trans hb
      cases hs.symm.trans hb
      simp only [hv, Bool.not_true, Bool.false_or, decide_eq_true_eq] at hstop
      exact .inl hstop
    next hgo =>
    simp only [Bool.or_eq_true, Bool.not_eq_eq_eq_not, Bool.not_true, decide_eq_true_eq, not_or,
      Bool.not_eq_false] at hgo
    rcases hcase with ⟨hv, _⟩ | ⟨_, _, _, hs⟩
    · rw [hgo.1] at hv
      simp at hv
    split at hr
    · next hcov =>
      cases hr
      refine ⟨.refl h, fun _ _ b hb => .inr ?_⟩
      cases hs.symm.trans hb
      exact hcov
    rcases hsp : splitAt (k - 1) point l n room with ⟨a, n1, room1⟩
    obtain ⟨hs1, hlev⟩ := splitAt_spec h room hsp
    rw [hsp] at hr
    cases a with
    | error e' =>
      cases hr
      exact ⟨hs1, by simp⟩
    | ok u =>
      obtain ⟨hs2, hdone⟩ := ih hs1.wf room1 hr
      refine ⟨hs1.trans hs2, fun hf hok => hdone (fun a ha => ?_) hok⟩
      obtain ⟨b, hb, hbl⟩ := hlev _ rfl hs (by dsimp only; omega)
      cases ha.symm.trans hb
      have := hf _ hs
      dsimp only at this
      omega

/-- No leaf crosses an end of the range. -/
def Uncut (l : Nat) (n : TableNode) (start stop : Nat) : Prop :=
  ∀ q a, look l n q = some a → start ≤ q → q < stop →
    ∀ r, r / span a.level = q / span a.level → start ≤ r ∧ r < stop

theorem div_eq_of_between {a b c s : Nat} (h : a / s = c / s) (hab : a ≤ b) (hbc : b ≤ c) :
    b / s = c / s :=
  Nat.le_antisymm (Nat.div_le_div_right hbc) (h ▸ Nat.div_le_div_right hab)

variable {va : Nat}

theorem uncut_of_ends
    (hs : ∀ b, look l n va = some b → b.level = 0 ∨ covered b.level va size true = true)
    (he : ∀ b, look l n (va + (size - 1)) = some b →
      b.level = 0 ∨ covered b.level (va + (size - 1)) size false = true) :
    Uncut l n va (va + size) := by
  intro q a ha hq hq' r hr
  have hpos := span_pos a.level
  constructor
  · by_contra hlt
    -- the block starts before the range, so the first page is in it
    obtain ⟨b, hb, hlev, _⟩ := look_block ha (r := va) (div_eq_of_between hr (by omega) hq)
    rcases hs b hb with h0 | hc
    · rw [hlev] at h0
      simp only [h0, span_zero, Nat.div_one] at hr
      omega
    simp only [covered, hlev, if_pos, Bool.and_eq_true, decide_eq_true_eq] at hc
    have hva := div_eq_of_between hr (by omega : r ≤ va) hq
    have h1 := Nat.div_add_mod va (span a.level)
    have h2 := Nat.div_mul_le_self r (span a.level)
    rw [hr, ← hva, Nat.mul_comm] at h2
    omega
  · by_contra hge
    have hlast : va + (size - 1) < r := by omega
    have hdiv : (va + (size - 1)) / span a.level = r / span a.level :=
      div_eq_of_between (a := q) hr.symm (by omega) hlast.le
    obtain ⟨b, hb, hlev, _⟩ := look_block ha (hdiv.trans hr)
    rcases he b hb with h0 | hc
    · rw [hlev] at h0
      simp only [h0, span_zero, Nat.div_one] at hr
      omega
    simp only [covered, hlev, Bool.false_eq_true, if_false, Bool.and_eq_true,
      decide_eq_true_eq] at hc
    have h1 := Nat.div_add_mod (va + (size - 1)) (span a.level)
    have h2 := Nat.div_add_mod r (span a.level)
    have h3 := Nat.mod_lt r hpos
    rw [hdiv] at h1
    omega

/-- Splitting: translations stay, no leaf crosses the ends. -/
theorem prepareWith_spec (h : WF l n) (room : Nat)
    (hr : prepareWith l va size n room = (answer, n', room')) :
    Refined l n n' ∧ (answer = .ok () → Uncut l n' va (va + size)) := by
  unfold prepareWith at hr
  split at hr
  · next hs =>
    cases hr
    exact ⟨.refl h, fun _ q a _ h1 h2 => by omega⟩
  rcases hp : prepareEnd l va size true (l + 1) n room with ⟨a, n1, room1⟩
  obtain ⟨hs1, hstart⟩ := prepareEnd_spec (l + 1) h room hp
  rw [hp] at hr
  cases a with
  | error e =>
    cases hr
    exact ⟨hs1, by simp⟩
  | ok u =>
    obtain ⟨hs2, hend⟩ := prepareEnd_spec (l + 1) hs1.wf room1 hr
    refine ⟨hs1.trans hs2, fun hok => ?_⟩
    refine uncut_of_ends (fun b hb => ?_)
      (hend (fun a ha => Nat.lt_succ_of_le (look_level_le ha)) hok)
    -- the second end may have made the leaf over the first one smaller
    rcases hs2.finer va with ⟨_, hn⟩ | ⟨a, b', ha, hb', _, _, hle⟩
    · cases hn.symm.trans hb
    cases hb'.symm.trans hb
    rcases hstart (fun a ha => Nat.lt_succ_of_le (look_level_le ha)) rfl a ha with h0 | hc
    · exact .inl (by omega)
    simp only [covered, if_pos, Bool.and_eq_true, decide_eq_true_eq] at hc ⊢
    have hdvd := span_dvd hle
    exact .inr ⟨Nat.mod_eq_zero_of_dvd (Nat.dvd_trans hdvd (Nat.dvd_of_mod_eq_zero hc.1)),
      (Nat.le_of_dvd (span_pos _) hdvd).trans hc.2⟩

/-- The table was only split, if it was well formed. -/
def Refines (l : Nat) (n n' : TableNode) : Prop := WF l n → Refined l n n'

theorem Refines.refl (l : Nat) (n : TableNode) : Refines l n n := Refined.refl

theorem Refines.trans {n1 n2 : TableNode} (h : Refines l n n1) (h' : Refines l n1 n2) :
    Refines l n n2 := fun hw => (h hw).trans (h' (h hw).wf)

theorem Extends.refined {fresh : Nat → Nat → Prop} (h : Extends l fresh n n') : Refined l n n' :=
  ⟨h.wf, fun q => h.look q ▸ .refl _⟩

theorem prepareWith_refines {room : Nat}
    (hr : prepareWith l va size n room = (answer, n', room')) : Refines l n n' := fun h =>
  (prepareWith_spec h room hr).1

theorem div_eq_of_le {a b k : Nat} (hk : k ≤ l) (h : a / span k = b / span k) :
    a / span l = b / span l := by
  obtain ⟨m, hm⟩ := span_dvd hk
  rw [hm, ← Nat.div_div_eq_div_mul, ← Nat.div_div_eq_div_mul, h]

theorem Uncut.refined {start stop : Nat} (h : Uncut l n start stop) (hs : Refined l n n') :
    Uncut l n' start stop := by
  intro q b hb hq hq' r hr
  rcases hs.finer q with ⟨_, hn⟩ | ⟨a, b', ha, hb', _, _, hle⟩
  · cases hn.symm.trans hb
  · cases hb'.symm.trans hb
    exact h q a ha hq hq' r (div_eq_of_le hle hr)

/-- Nothing is left to split in a range that no leaf crosses. -/
theorem prepareEnd_uncut {point : Nat} {atStart : Bool} (h : WF l n)
    (hcut : Uncut l n va (va + size)) (hs : 0 < size)
    (hp : point = if atStart then va else va + (size - 1)) (fuel room : Nat) :
    prepareEnd l point size atStart fuel n room = (.ok (), n, room) := by
  cases fuel with
  | zero => rfl
  | succ fuel =>
    unfold prepareEnd
    obtain ⟨e, k, he, hcase⟩ := leafRef_spec h point
    rw [he]
    dsimp only
    rcases hcase with ⟨hv, _⟩ | ⟨hv, hl, _, hlook⟩
    · simp [hv]
    by_cases hk : k = 0
    · simp [hk]
    rw [if_neg (by simp [hv, hk]), if_pos]
    -- the first and the last page of the block are in the range
    have hin : va ≤ point ∧ point < va + size := by
      subst hp
      split <;> omega
    have hpos := span_pos k
    have hmod := Nat.mod_lt point hpos
    have hdiv := Nat.div_add_mod point (span k)
    have hblock := hcut point _ hlook hin.1 hin.2
    have hfirst := hblock (span k * (point / span k)) (Nat.mul_div_cancel_left _ hpos)
    have hlast := hblock (span k * (point / span k) + (span k - 1)) (by
      rw [Nat.mul_add_div hpos, Nat.div_eq_of_lt (Nat.sub_lt hpos Nat.one_pos), Nat.add_zero])
    unfold covered
    cases atStart with
    | true =>
      simp only [if_true, Bool.and_eq_true, decide_eq_true_eq] at hp ⊢
      omega
    | false =>
      simp only [Bool.false_eq_true, if_false, Bool.and_eq_true, decide_eq_true_eq] at hp ⊢
      omega

/-! ## Clearing leaves -/

section
variable {l : Nat} {n : TableNode} {g : Nat → TableNode → TableNode}

/-- A leaf goes, a branch has its child cleared, another slot stays. -/
structure Cleared (g : Nat → TableNode → TableNode) (slots : List Nat) (n n' : TableNode) :
    Prop where
  keys : n'.children.map Prod.fst = n.children.map Prod.fst
  entry : ∀ i, n'.entries i = if i ∈ slots ∧ (n.entries i).isLeaf = true then
    (if (n.entries i).isValid then {} else n.entries i) else n.entries i
  child : ∀ i, n'.child i = if i ∈ slots then (n.child i).map (g i) else n.child i

/-- One slot is cleared where the others are not touched. -/
theorem Cleared.of_slot {s : Nat} (hk : n'.children.map Prod.fst = n.children.map Prod.fst)
    (hother : ∀ i, i ≠ s → n'.entries i = n.entries i ∧ n'.child i = n.child i)
    (he : n'.entries s = if (n.entries s).isLeaf = true ∧ (n.entries s).isValid = true then {}
      else n.entries s) (hc : n'.child s = (n.child s).map (g s)) : Cleared g [s] n n' := by
  refine ⟨hk, fun i => ?_, fun i => ?_⟩ <;> by_cases hi : i = s
  · subst hi
    rw [he, ite_and]
    simp
  · rw [(hother i hi).1, if_neg (by simp [hi])]
  · rw [hi, hc, if_pos (mem_singleton.2 rfl)]
  · rw [(hother i hi).2, if_neg (by simp [hi])]

theorem clearSlot_cleared (hb : ∀ i, (n.entries i).isBranch = (n.child i).isSome) (s : Nat) :
    Cleared g [s] n (clearSlot (g s) n s) := by
  have hnone : (n.entries s).isBranch = false → n.child s = (n.child s).map (g s) := by
    intro h
    rw [hb, isSome_eq_false_iff, isNone_iff_eq_none] at h
    rw [h, map_none]
  unfold clearSlot
  simp only
  split
  · next hv =>
    rw [Bool.not_eq_eq_eq_not, Bool.not_true] at hv
    exact .of_slot rfl (fun _ _ => ⟨rfl, rfl⟩) (if_neg (by simp [hv])).symm
      (hnone (not_branch_of_invalid hv))
  next hv =>
  simp only [Bool.not_eq_true', Bool.not_eq_false] at hv
  split
  · next hl =>
    refine .of_slot rfl (fun i hi => ⟨if_neg hi, rfl⟩) ?_ (hnone (not_branch_of_leaf hl))
    rw [entries_setEntry, if_pos rfl, if_pos ⟨hl, hv⟩]
  · next hl =>
    have hbr := isBranch_of_not_leaf hv (by simpa using hl)
    rw [hb, isSome_iff_exists] at hbr
    obtain ⟨c, hc⟩ := hbr
    rw [hc]
    refine .of_slot (keys_setChild _) (fun i hi => ⟨rfl, ?_⟩) (if_neg fun h => hl h.1).symm ?_
    · rw [child_setChild hc, if_neg hi]
    · rw [child_setChild hc, if_pos rfl, hc]
      rfl

variable {slots : List Nat}

theorem Cleared.branch (h : Cleared g slots n n')
    (hb : ∀ i, (n.entries i).isBranch = (n.child i).isSome) (i : Nat) :
    (n'.entries i).isBranch = (n'.child i).isSome := by
  rw [h.child, h.entry]
  split
  · next hi =>
    rw [if_pos hi.1, isSome_map, ← hb, not_branch_of_leaf hi.2]
    split
    · rfl
    · exact not_branch_of_leaf hi.2
  rw [hb]
  split
  · rw [isSome_map]
  · rfl

theorem clearSlots_cleared (hn : slots.Nodup)
    (hb : ∀ i, (n.entries i).isBranch = (n.child i).isSome) :
    Cleared g slots n (clearSlots g n slots) := by
  induction slots generalizing n with
  | nil => exact ⟨rfl, fun i => by simp [clearSlots], fun i => by simp [clearSlots]⟩
  | cons s slots ih =>
    obtain ⟨hs, hn⟩ := nodup_cons.1 hn
    have h1 := clearSlot_cleared (g := g) hb s
    have h2 := ih hn (h1.branch hb)
    refine ⟨h2.keys.trans h1.keys, fun i => (h2.entry i).trans ?_,
      fun i => (h2.child i).trans ?_⟩ <;> by_cases hi : i = s
    · subst hi
      simp [h1.entry, hs]
    · simp [h1.entry, hi]
    · subst hi
      simp [h1.child, hs]
    · simp [h1.child, hi]

theorem Cleared.entry_cases (h : Cleared g slots n n') (i : Nat) :
    n'.entries i = {} ∨ n'.entries i = n.entries i := by
  rw [h.entry]
  split
  · split
    · exact .inl rfl
    · exact .inr rfl
  · exact .inr rfl

theorem Cleared.look_out (h : Cleared g slots n n') (hq : digit 512 l q ∉ slots) :
    look l n' q = look l n q := by
  have he : n'.entries (digit 512 l q) = n.entries (digit 512 l q) := by
    rw [h.entry, if_neg (by simp [hq])]
  have hc : n'.child (digit 512 l q) = n.child (digit 512 l q) := by rw [h.child, if_neg hq]
  exact look_congr he hc

end

theorem digit_of_base {base : Nat} (hb : span (l + 1) ∣ base) (hq : base ≤ q)
    (hq' : q < base + span (l + 1)) : digit 512 l q = (q - base) / span l := by
  obtain ⟨m, rfl⟩ := hb
  obtain ⟨r, rfl⟩ := Nat.exists_eq_add_of_le hq
  rw [Nat.add_sub_cancel_left]
  have hr : r / span l < 512 := Nat.div_lt_of_lt_mul (by rw [span_succ] at hq'; omega)
  have h : (span (l + 1) * m + r) / span l = r / span l + 512 * m := by
    rw [span_succ, Nat.mul_assoc, Nat.mul_add_div (span_pos l), Nat.add_comm]
  change (span (l + 1) * m + r) / span l % 512 = _
  rw [h, Nat.add_mul_mod_self_left, Nat.mod_eq_of_lt hr]

section
variable {start stop l base i : Nat}

theorem mem_metSlots : i ∈ metSlots start stop l base ↔
    (max start base - base) / span l ≤ i ∧
      i < (max start base - base) / span l +
        ((min stop (base + span l * 512) - base - 1) / span l + 1 -
          (max start base - base) / span l) :=
  mem_range'_1

/-- A slot that has a page of the range is looked at. -/
theorem met_of_mem (hq : base ≤ q) (hq' : q < base + span l * 512) (hs : start ≤ q)
    (hs' : q < stop) : (q - base) / span l ∈ metSlots start stop l base := by
  have h1 : (max start base - base) / span l ≤ (q - base) / span l :=
    Nat.div_le_div_right (by omega)
  have h2 : (q - base) / span l ≤ (min stop (base + span l * 512) - base - 1) / span l :=
    Nat.div_le_div_right (by omega)
  rw [mem_metSlots]
  omega

theorem exists_of_met (hlt : start < stop) (hbase : base < stop)
    (hi : i ∈ metSlots start stop l base) :
    ∃ x, start ≤ x ∧ x < stop ∧ base + i * span l ≤ x ∧ x < base + (i + 1) * span l := by
  rw [mem_metSlots] at hi
  have hpos := span_pos l
  have h1 : max start base - base < (i + 1) * span l :=
    (Nat.div_lt_iff_lt_mul hpos).1 (by omega)
  have h2 : i * span l ≤ min stop (base + span l * 512) - base - 1 :=
    (Nat.le_div_iff_mul_le hpos).1 (by omega)
  have h3 : i * span l < (i + 1) * span l := Nat.mul_lt_mul_of_pos_right (Nat.lt_succ_self i) hpos
  refine ⟨max start (base + i * span l), le_max_left _ _, by omega, le_max_right _ _, by omega⟩

theorem met_lt (hi : i ∈ metSlots start stop l base) : i < 512 := by
  rw [mem_metSlots] at hi
  have h : (min stop (base + span l * 512) - base - 1) / span l < 512 := by
    have hpos := span_pos l
    refine (Nat.div_lt_iff_lt_mul hpos).2 ?_
    omega
  omega

end

/-- No leaf of the table at `base` crosses an end of the range. -/
def UncutFrom (base l : Nat) (n : TableNode) (start stop : Nat) : Prop :=
  ∀ q a, base ≤ q → q < base + span (l + 1) → look l n q = some a → start ≤ q → q < stop →
    ∀ r, r / span a.level = q / span a.level → start ≤ r ∧ r < stop

/-- One table that the range meets, given what happens to its children. -/
theorem clearTable_look {start stop base : Nat} {g : Nat → TableNode → TableNode}
    (h : WF l n) (hlt : start < stop) (hb : span (l + 1) ∣ base) (hbase : base < stop)
    (hcut : UncutFrom base l n start stop)
    (hbelow : ∀ i c q, n.child i = some c → base + i * span l ≤ q →
      q < base + (i + 1) * span l → digit 512 l q = i → ∀ k, l = k + 1 →
      look k (g i c) q = if start ≤ q ∧ q < stop then none else look k c q)
    (hq : base ≤ q) (hq' : q < base + span (l + 1)) :
    look l (clearSlots g n (metSlots start stop l base)) q =
      if start ≤ q ∧ q < stop then none else look l n q := by
  have hpos := span_pos l
  have hspan := span_succ l
  have hcl : Cleared g (metSlots start stop l base) n _ :=
    clearSlots_cleared nodup_range' h.branch
  have hdigit := digit_of_base hb hq hq'
  by_cases hmet : digit 512 l q ∈ metSlots start stop l base
  swap
  · rw [hcl.look_out hmet, if_neg]
    rintro ⟨h1, h2⟩
    exact hmet (hdigit ▸ met_of_mem hq (by omega) h1 h2)
  -- the bounds of the slot the page is in
  have hlo : base + digit 512 l q * span l ≤ q := by
    have := Nat.div_mul_le_self (q - base) (span l)
    rw [hdigit]
    omega
  have hhi : q < base + (digit 512 l q + 1) * span l := by
    have := Nat.lt_mul_div_succ (q - base) hpos
    rw [Nat.mul_comm] at this
    rw [hdigit]
    omega
  cases hv : (n.entries (digit 512 l q)).isValid with
  | false =>
    rw [look_invalid hv, look_invalid, ite_self]
    rw [hcl.entry]
    split
    · rwa [hv, if_neg (by simp)]
    · exact hv
  | true =>
    cases hl : (n.entries (digit 512 l q)).isLeaf with
    | true =>
      -- the leaf meets the range, and no leaf crosses its ends
      obtain ⟨x, hx, hx', hxlo, hxhi⟩ := exists_of_met hlt hbase hmet
      obtain ⟨m, hm⟩ := Nat.dvd_trans (span_dvd (Nat.le_succ l)) hb
      have hdiv : ∀ y, base + digit 512 l q * span l ≤ y → y < base + (digit 512 l q + 1) * span l →
          y / span l = m + digit 512 l q := by
        intro y h1 h2
        have hbm : base = m * span l := by rw [hm, Nat.mul_comm]
        rw [Nat.div_eq_iff hpos, Nat.add_mul, ← hbm]
        rw [Nat.add_mul] at h2
        omega
      have hsame := (hdiv q hlo hhi).trans (hdiv x hxlo hxhi).symm
      obtain ⟨b, hbx, hbl, _⟩ := look_block (look_leaf hv hl) (r := x) hsame.symm
      have hxb : x < base + span (l + 1) := by
        have h512 : digit 512 l q + 1 ≤ 512 := digit_lt (by decide) l q
        have := Nat.mul_le_mul_right (span l) h512
        omega
      have hrange := hcut x b (by omega) hxb hbx hx hx' q (by rw [hbl]; exact hsame)
      rw [if_pos hrange, look_invalid]
      rw [hcl.entry, if_pos ⟨hmet, hl⟩, if_pos hv]
      exact isValid_cleared
    | false =>
      have hbr := isBranch_of_not_leaf hv hl
      have hentry : (clearSlots g n (metSlots start stop l base)).entries (digit 512 l q) =
          n.entries (digit 512 l q) := by
        rw [hcl.entry, if_neg (by simp [hl])]
      cases l with
      | zero =>
        rw [h.not_branch_zero] at hbr
        simp at hbr
      | succ k =>
        obtain ⟨c, hc, _⟩ := h.exists_child hbr
        rw [look_branch hbr hc, ← hbelow _ c q hc hlo hhi rfl k rfl]
        exact look_branch (hentry ▸ hbr) (by rw [hcl.child, if_pos hmet, hc]; rfl)

theorem wf_clearSlots {g : Nat → TableNode → TableNode} (h : WF l n)
    {slots : List Nat} (hn : slots.Nodup)
    (hg : ∀ k i c, l = k + 1 → i ∈ slots → n.child i = some c → WF k (g i c)) :
    WF l (clearSlots g n slots) := by
  have hcl := clearSlots_cleared (g := g) hn h.branch
  have hbranch := hcl.branch h.branch
  cases l with
  | zero =>
    refine wf_zero ?_ fun i => ?_
    · have hkeys := hcl.keys
      rw [h.childless] at hkeys
      exact map_eq_nil_iff.1 hkeys
    rcases hcl.entry_cases i with he | he <;> rw [he]
    · rfl
    · exact h.not_branch_zero i
  | succ k =>
    refine wf_succ (hcl.keys ▸ h.nodup) hbranch (fun i hv hl => ?_) fun i c hc => ?_
    · rcases hcl.entry_cases i with he | he <;> rw [he] at hv hl ⊢
      · cases hv
      · exact h.aligned hv hl
    · rw [hcl.child] at hc
      split at hc
      · next hi =>
        obtain ⟨d, hd, rfl⟩ := map_eq_some_iff.1 hc
        exact hg k i d rfl hi hd
      · exact h.child hc

/-- The leaves of a range, and no others. -/
theorem clearLeafRange_spec {start stop : Nat} (hlt : start < stop) {base : Nat}
    (h : WF l n) (hb : span (l + 1) ∣ base) (hcut : UncutFrom base l n start stop) :
    WF l (clearLeafRange start stop l base n) ∧
      ∀ q, base ≤ q → q < base + span (l + 1) → look l (clearLeafRange start stop l base n) q =
        if start ≤ q ∧ q < stop then none else look l n q := by
  -- a table that the range does not meet stays
  have hout : stop ≤ base ∨ base + span l * 512 ≤ start →
      WF l n ∧ ∀ q, base ≤ q → q < base + span (l + 1) → look l n q =
        if start ≤ q ∧ q < stop then none else look l n q := by
    intro hor
    refine ⟨h, fun q hq hq' => (if_neg ?_).symm⟩
    rw [span_succ] at hq'
    omega
  induction l generalizing base n with
  | zero =>
    rw [clearLeafRange, clearTable]
    split
    · next hor => exact hout hor
    · refine ⟨wf_clearSlots h nodup_range' fun k i c hk => by omega, fun q hq hq' => ?_⟩
      exact clearTable_look h hlt hb (by omega) hcut (fun i c q hc _ _ _ k hk => by omega) hq hq'
  | succ l ih =>
    rw [clearLeafRange, clearTable]
    split
    · next hor => exact hout hor
    next hor =>
    have hchild : ∀ i c, n.child i = some c → i < 512 →
        WF l (clearLeafRange start stop l (base + i * span (l + 1)) c) ∧
        ∀ q, base + i * span (l + 1) ≤ q → q < base + i * span (l + 1) + span (l + 1) →
          look l (clearLeafRange start stop l (base + i * span (l + 1)) c) q =
            if start ≤ q ∧ q < stop then none else look l c q := by
      intro i c hc hi
      have hb' : span (l + 1) ∣ base + i * span (l + 1) :=
        Nat.dvd_add (Nat.dvd_trans (span_dvd (Nat.le_succ _)) hb) (Nat.dvd_mul_left _ _)
      have hfit : base + i * span (l + 1) + span (l + 1) ≤ base + span (l + 1 + 1) := by
        have := Nat.mul_le_mul_right (span (l + 1)) (Nat.succ_le_of_lt hi)
        rw [Nat.succ_mul] at this
        rw [span_succ (l + 1)]
        omega
      refine ih (h.child hc) hb' (fun q a hq hq' ha => ?_)
        fun hor => ⟨h.child hc, fun q hq hq' => ?_⟩
      · have hd : digit 512 (l + 1) q = i := by
          rw [digit_of_base hb (by omega) (by omega), Nat.div_eq_iff (span_pos _)]
          omega
        refine hcut q a (by omega) (by omega) ?_
        rw [look_branch (hd ▸ h.isBranch hc) (hd ▸ hc), ha]
      · rw [if_neg]
        rw [← span_succ] at hor
        omega
    refine ⟨wf_clearSlots h nodup_range' ?_, fun q hq hq' => ?_⟩
    · intro k i c hk hi hc
      obtain rfl : l = k := by omega
      exact (hchild i c hc (met_lt hi)).1
    · refine clearTable_look h hlt hb (by omega) hcut (fun i c q hc hlo hhi hd k hk => ?_) hq hq'
      obtain rfl : l = k := by omega
      exact (hchild i c hc (hd ▸ digit_lt (by decide) _ _)).2 q hlo
        (by rw [Nat.add_mul] at hhi; omega)

/-- The leaves of a prepared range go, and nothing else does. -/
theorem unmapPrepared_spec (h : WF l n) (hs : 0 < size) (hcut : Uncut l n va (va + size)) :
    WF l (unmapPrepared l va size n) ∧ ∀ q, q < span (l + 1) →
      look l (unmapPrepared l va size n) q =
        if va ≤ q ∧ q < va + size then none else look l n q := by
  obtain ⟨hw, hl⟩ := clearLeafRange_spec (show va < va + size by omega) h
    (Nat.dvd_zero _) fun q a _ _ ha hq hq' r hr => hcut q a ha hq hq' r hr
  exact ⟨hw, fun q hq => hl q (Nat.zero_le q) (by omega)⟩

/-! ## Taking out empty tables -/

/-- A pruned table translates as before, and nothing where it is found empty. -/
structure Prunes (l : Nat) (n : TableNode) (r : TableNode × Bool × List TableNode) : Prop where
  wf : WF l r.1
  look : ∀ q, look l r.1 q = look l n q
  empty : r.2.1 = true → ∀ q, TableNode.look l n q = none

variable {cs : List (Nat × TableNode)} {entries : Nat → Entry}

theorem perm_spec {cs' : List (Nat × TableNode)} (h : WF (l + 1) (mk entries cs))
    (hp : cs.Perm cs') : WF (l + 1) (mk entries cs') ∧
      ∀ q, look (l + 1) (mk entries cs') q = look (l + 1) (mk entries cs) q := by
  have hc : ∀ i, (mk entries cs').child i = (mk entries cs).child i := fun i =>
    congrArg (Option.map Prod.snd) (get_perm h.nodup hp)
  refine ⟨wf_succ ((hp.map Prod.fst).nodup_iff.1 h.nodup) (fun i => ?_) (fun i => h.aligned) ?_,
    fun q => look_congr rfl (hc _)⟩
  · rw [hc]
    exact h.branch i
  · intro i c hi
    rw [hc] at hi
    exact h.child hi

/-- The first child taken out, with its entry cleared. -/
theorem wf_tail {s : Nat} {c : TableNode} (h : WF (l + 1) (mk entries ((s, c) :: cs))) :
    WF (l + 1) (mk (fun i => if i = s then {} else entries i) cs) ∧
      ((∀ q, look l c q = none) → ∀ q,
        look (l + 1) (mk (fun i => if i = s then {} else entries i) cs) q =
          look (l + 1) (mk entries ((s, c) :: cs)) q) := by
  obtain ⟨hs, hn⟩ := nodup_cons.1 h.nodup
  have hchild : ∀ i, (mk entries ((s, c) :: cs)).child i =
      if i = s then some c else (Keyed.get Prod.fst cs i).map Prod.snd := by
    intro i
    change (Keyed.get Prod.fst ((s, c) :: cs) i).map _ = _
    rw [get_cons, apply_ite (Option.map Prod.snd)]
    exact if_congr eq_comm rfl rfl
  have halt : Alters s (mk entries ((s, c) :: cs))
      (mk (fun i => if i = s then {} else entries i) cs) :=
    ⟨hn, fun i hi => if_neg hi, fun i hi => ((hchild i).trans (if_neg hi)).symm⟩
  have hnone : (mk (fun i => if i = s then {} else entries i) cs).child s = none := by
    refine map_eq_none_iff.2 (get_eq_none_iff.2 fun x hx he => ?_)
    exact hs (List.mem_map.2 ⟨x, hx, he⟩)
  have hclear : (mk (fun i => if i = s then {} else entries i) cs).entries s = {} := if_pos rfl
  constructor
  · refine halt.wf h (by rw [hclear, hnone]; rfl) (fun hv => ?_) fun d hd => ?_
    · rw [hclear] at hv
      simp at hv
    · cases hnone.symm.trans hd
  · intro hempty q
    by_cases hd : digit 512 (l + 1) q = s
    · have hc := (hchild (digit 512 (l + 1) q)).trans (if_pos hd)
      rw [look_branch (h.isBranch hc) hc, hempty, look_invalid]
      rw [hd, hclear]
      rfl
    · exact look_congr (halt.entry _ hd) (halt.other _ hd)

theorem perm_swap_remove {α : Type} (kept todo : List α) :
    (kept ++ todo).Perm (kept ++ (todo.getLast?.toList ++ todo.dropLast)) := by
  refine List.Perm.append_left kept ?_
  rcases eq_nil_or_concat todo with rfl | ⟨l, x, rfl⟩
  · exact .refl _
  · simp

theorem pruneLoop_spec {prune : TableNode → TableNode × Bool × List TableNode}
    (hprune : ∀ c, WF l c → Prunes l c (prune c)) (fuel : Nat) {kept todo : List (Nat × TableNode)}
    {retired : List TableNode} (h : WF (l + 1) (mk entries (kept ++ todo))) {entries' : Nat → Entry}
    {retired' : List TableNode}
    (hr : pruneLoop prune fuel kept todo entries retired = (cs, entries', retired')) :
    WF (l + 1) (mk entries' cs) ∧
      ∀ q, look (l + 1) (mk entries' cs) q = look (l + 1) (mk entries (kept ++ todo)) q := by
  induction fuel generalizing kept todo entries retired with
  | zero =>
    unfold pruneLoop at hr
    cases hr
    exact ⟨h, fun q => rfl⟩
  | succ fuel ih =>
    cases todo with
    | nil =>
      unfold pruneLoop at hr
      cases hr
      exact ⟨h, fun q => rfl⟩
    | cons x todo =>
      obtain ⟨s, c⟩ := x
      unfold pruneLoop at hr
      have hmid : (kept ++ (s, c) :: todo).Perm ((s, c) :: (kept ++ todo)) := perm_middle
      obtain ⟨hfront, hlook⟩ := perm_spec h hmid
      have hchild : (mk entries ((s, c) :: (kept ++ todo))).child s = some c := by
        change (Keyed.get Prod.fst ((s, c) :: (kept ++ todo)) s).map _ = _
        rw [get_cons, if_pos rfl]
        rfl
      have hp := hprune c (hfront.child hchild)
      rcases hb : prune c with ⟨c', b, below⟩
      rw [hb] at hp hr
      cases b with
      | true =>
        obtain ⟨hw, hl⟩ := wf_tail hfront
        obtain ⟨hw, hswap⟩ := perm_spec hw (perm_swap_remove kept todo)
        obtain ⟨hw', hl'⟩ := ih hw hr
        refine ⟨hw', fun q => ?_⟩
        rw [hl', hswap, hl (hp.empty rfl), hlook]
      | false =>
        -- the child stays, pruned
        have hset : mk entries ((s, c') :: (kept ++ todo)) =
            (mk entries ((s, c) :: (kept ++ todo))).setChild s c' := by
          simp [setChild, TableNode.entries, TableNode.children, Keyed.update]
        have hh : Hangs s c' _ (mk entries ((s, c') :: (kept ++ todo))) :=
          hset ▸ hangs_setChild hfront hchild
        have hmid' : ((s, c') :: (kept ++ todo)).Perm (kept ++ [(s, c')] ++ todo) := by
          rw [append_assoc]
          exact perm_middle.symm
        obtain ⟨hw, hlook'⟩ := perm_spec (hh.wf hfront hp.wf) hmid'
        obtain ⟨hw', hl'⟩ := ih hw hr
        refine ⟨hw', fun q => ?_⟩
        rw [hl', hlook', hh.look_eq, ← hlook]
        split
        · next hd =>
          subst hd
          rw [hp.look, look_branch (hfront.isBranch hchild) hchild]
        · rfl

theorem prunes_of_look {r : List TableNode} (hw : WF l n') (hl : ∀ q, look l n' q = look l n q) :
    Prunes l n (n', (List.range 512).all fun i => !(n'.entries i).isValid, r) := by
  refine ⟨hw, hl, fun hempty q => ?_⟩
  dsimp only at hempty
  rw [List.all_eq_true] at hempty
  rw [← hl]
  refine look_invalid ?_
  simpa only [Bool.not_eq_true'] using hempty _ (mem_range.2 (digit_lt (by decide) l q))

/-- Taking out empty tables: every translation stays. -/
theorem pruneEmpty_spec (h : WF l n) : Prunes l n (pruneEmpty l n) := by
  induction l generalizing n with
  | zero =>
    have hc := h.childless
    obtain ⟨entries, children⟩ := n
    obtain rfl : children = [] := hc
    exact prunes_of_look h fun q => rfl
  | succ l ih =>
    obtain ⟨entries, children⟩ := n
    unfold pruneEmpty pruneTable
    rcases hr : pruneLoop (pruneEmpty l) children.length [] children entries [] with ⟨cs, es, rs⟩
    obtain ⟨hw, hl⟩ := pruneLoop_spec (fun c hc => ih hc) children.length h hr
    simp only [TableNode.children, TableNode.entries, hr]
    exact prunes_of_look hw hl

theorem reclaimEmptyTables_spec (h : WF l n) :
    WF l (reclaimEmptyTables l n).1 ∧
      ∀ q, look l (reclaimEmptyTables l n).1 q = look l n q := by
  have hp := pruneEmpty_spec h
  exact ⟨hp.wf, hp.look⟩

end TableNode

end Sqware.Nest
