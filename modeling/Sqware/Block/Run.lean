import Sqware.Block.Spec
import Sqware.Lib.Lists

/-!
# The block allocator, from start to end
-/

namespace Sqware.Block

open Stacks List Option Function

/-- The free stacks `L`, the pumps `P` and the blocks that are out, `O`. -/
structure Core (s : Store) (pump : Pumps) (L P O : Slot → List Nat) : Prop where
  acc : Accounts s.tally L fun i => P i ++ O i
  free_chain : ∀ i, Chain s.mem (s.freepool i) (L i)
  pump_chain : ∀ i, Chain s.mem (pump i) (P i)

/-- The cell of a page of the slot whose blocks are all free. -/
def Cell.empty (i : Slot) : Cell := ⟨some i.1, i.2, 0⟩

/-- The spare pages are the empty ones. -/
def Spares (s : Store) : Prop := ∀ i p, s.spare i = some p ↔ s.tally.cells p = .empty i

/-- The stores as they should be, with `P` in the pumps and `O` out. -/
def Stocked (s : Store) (pump : Pumps) (P O : Slot → List Nat) : Prop :=
  (∃ L, Core s pump L P O) ∧ Spares s

/-- A page of the table that is not in use. -/
def Vacant (s : Store) (p : Nat) : Prop :=
  (s.tally.cells p).owner = none ∧ s.tally.covers p = true

section core

variable {s s' : Store} {pump : Pumps} {L P O : Slot → List Nat} {i j : Slot} {b p : Nat}

/-- Two families that change at one slot. -/
theorem rel_update {α β : Type} {f : Slot → α} {g : Slot → β} {x : α} {y : β}
    (r : Slot → α → β → Prop) (hi : r i x y) (h : ∀ j, j ≠ i → r j (f j) (g j)) (j : Slot) :
    r j (update f i x j) (update g i y j) := by
  by_cases hj : j = i
  · subst hj
    rw [update_self, update_self]
    exact hi
  · rw [update_of_ne hj, update_of_ne hj]
    exact h j hj

theorem Core.perm (h : Core s pump L P O) {O' : Slot → List Nat} (hO : ∀ i, (O' i).Perm (O i)) :
    Core s pump L P O' :=
  ⟨h.acc.perm (fun _ => .refl _) fun i => (hO i).append_left _, h.free_chain, h.pump_chain⟩

theorem Core.pump_not_free (h : Core s pump L P O) (hb : b ∈ P i) (j : Slot) : b ∉ L j :=
  h.acc.busy_not_free (mem_append_left (O i) hb) j

theorem Core.out_not_free (h : Core s pump L P O) (hb : b ∈ O i) (j : Slot) : b ∉ L j :=
  h.acc.busy_not_free (mem_append_right (P i) hb) j

theorem Core.out_not_pump (h : Core s pump L P O) (hb : b ∈ O i) (j : Slot) : b ∉ P j := by
  intro hm
  obtain rfl := h.acc.slot (mem_append_right _ (mem_append_right (P i) hb))
    (mem_append_right (L j) (mem_append_left (O j) hm))
  have := (nodup_append.1 (h.acc.nodup i)).2.1
  exact (nodup_append.1 this).2.2 b hm b hb rfl

variable {R : List Nat}

/-- The first block of a pump is taken in hand. -/
theorem Core.unpump (h : Core s pump L P O) (hP : P i = b :: R) :
    Core s (update pump i (s.mem b)) L (update P i R)
      (update O i (b :: O i)) := by
  have hchain := h.pump_chain i
  rw [hP] at hchain
  have hbusy : (R ++ b :: O i).Perm (P i ++ O i) := by
    rw [hP]
    exact perm_middle
  exact ⟨h.acc.perm (fun _ => .refl _)
      (rel_update (fun j (l m : List Nat) => (l ++ m).Perm (P j ++ O j)) hbusy fun _ _ => .refl _),
    h.free_chain, rel_update (fun _ => Stacks.Chain s.mem) hchain.2 fun j _ => h.pump_chain j⟩

/-! ## Back to the pool -/

/-- A block that was out is written on top of its free stack. -/
theorem Core.link (h : Core s pump L P O) (hO : O i = b :: R) :
    Core { s with
        mem := update s.mem b (s.freepool i)
        freepool := update s.freepool i (some b)
        tally := s.tally.recount (b / pageSize) ((P i ++ R).countP (inPage (b / pageSize))) }
      pump (update L i (b :: L i)) P (update O i R) := by
  have hb : b ∈ O i := hO ▸ mem_cons_self
  have hperm : (P i ++ O i).Perm (b :: (P i ++ R)) := hO ▸ perm_middle
  refine ⟨(h.acc.give hperm).perm (fun _ => .refl _)
      (rel_update (fun j (l : List Nat) => (P j ++ l).Perm) (.refl _) fun _ _ => .refl _),
    rel_update (fun _ => Stacks.Chain _) ?_ fun j _ => ?_, fun j => ?_⟩
  · exact chain_push (h.free_chain i) (h.out_not_free hb i)
  · exact chain_update (h.free_chain j) (h.out_not_free hb j) _
  · exact chain_update (h.pump_chain j) (h.out_not_pump hb j) _

theorem Core.drain (h : Core s pump L P O) (hp : s.tally.cells p = .empty i)
    (hd : s.drain i p = some s') :
    Core s' pump (update L i ((L i).filter (!inPage p ·)).reverse) P O ∧
      s'.tally = s.tally.set p .free ∧ s'.spare = s.spare := by
  unfold Store.drain at hd
  obtain ⟨⟨mem, keep⟩, hsift, hd⟩ := bind_eq_some_iff.1 hd
  obtain ⟨tally, htally, rfl⟩ := map_eq_some_iff.1 hd
  have hcov := (h.acc.table p i.1 (by rw [hp, Cell.empty])).1
  rw [Tally.write, if_pos hcov] at htally
  cases htally
  obtain ⟨hchain, hsame⟩ := sift_spec (h.free_chain i) (show Chain s.mem none [] from rfl)
    (nodup_append.1 (h.acc.nodup i)).1 (by simp) hsift
  rw [append_nil] at hchain
  refine ⟨⟨(h.acc.drop hp).perm (rel_update (fun _ => Perm) (reverse_perm _) fun _ _ => .refl _)
      fun _ => .refl _,
    rel_update (fun _ => Stacks.Chain mem) hchain fun j hj => ?_, fun j => ?_⟩, rfl, rfl⟩
  · exact (chain_congr fun x hx => hsame x fun hm => h.acc.free_once hm hj hx).2 (h.free_chain j)
  · exact (chain_congr fun x hx => hsame x fun hm => h.pump_not_free hx i hm).2 (h.pump_chain j)

theorem Cell.slot_eq {n : Nat} (h : (⟨some i.1, i.2, n⟩ : Cell) = .empty j) : i = j :=
  Prod.ext (some.inj (congrArg Cell.owner h)) (congrArg Cell.power h)

theorem Cell.succ_ne_empty (n : Nat) (j : Slot) : (⟨some i.1, i.2, n + 1⟩ : Cell) ≠ .empty j :=
  fun h => nomatch congrArg Cell.used h

theorem Cell.free_ne_empty (j : Slot) : Cell.free ≠ .empty j := nofun

/-- A cell is written: its page is the spare one of the slot that it is then an empty page of. -/
theorem Spares.write (h : Spares s) {c : Cell} (ht : s'.tally = s.tally.set p c)
    (hnone : ∀ j, c = .empty j → s.spare j = none)
    (hspare : ∀ j, s'.spare j =
      if c = .empty j then some p else if s.spare j = some p then none else s.spare j) :
    Spares s' := by
  intro j q
  rw [hspare, ht]
  by_cases hq : q = p
  · subst hq
    split
    · next hc => simp [hc]
    · next hc => split <;> simp_all
  · rw [cells_set_of_ne hq, ← h j q]
    split
    · next hc => simp [hnone j hc, Ne.symm hq]
    · split
      · next hp => simp [hp, Ne.symm hq]
      · rfl

/-- A cell that neither was nor is empty. -/
theorem Spares.set (h : Spares s) {c : Cell} (hspare : s'.spare = s.spare)
    (ht : s'.tally = s.tally.set p c) (hold : ∀ j, s.tally.cells p ≠ .empty j)
    (hnew : ∀ j, c ≠ .empty j) : Spares s' :=
  h.write ht (fun j hc => absurd hc (hnew j)) fun j => by
    rw [hspare, if_neg (hnew j), if_neg (mt (h j p).1 (hold j))]

/-- A block that was out goes back to its pool. -/
theorem Stocked.push (h : Stocked s pump P O) (hO : O i = b :: R) (hp : s.push i b = some s') :
    Stocked s' pump P (update O i R) := by
  obtain ⟨⟨L, h⟩, hs⟩ := h
  have hlink := h.link hO
  have hbusy : b ∈ L i ++ (P i ++ O i) := by simp [hO]
  have hcell := h.acc.cell hbusy
  have hcov := (h.acc.table (b / pageSize) i.1 (by rw [hcell])).1
  have hcount : (P i ++ O i).countP (inPage (b / pageSize)) =
      (P i ++ R).countP (inPage (b / pageSize)) + 1 := by
    have hperm : (P i ++ O i).Perm (b :: (P i ++ R)) := hO ▸ perm_middle
    rw [hperm.countP_eq, countP_cons_of_pos (inPage_iff.2 rfl)]
  rw [hcount] at hcell
  generalize hn : (P i ++ R).countP (inPage (b / pageSize)) = n at hlink hcell
  have hdec : s.tally.decUsed (b / pageSize) = some (s.tally.recount (b / pageSize) n, n == 0) := by
    unfold Tally.decUsed
    rw [Tally.write, if_pos hcov]
    simp [Cell.decUsed, Tally.recount, hcell]
  have hnew : s.tally.recount (b / pageSize) n = s.tally.set (b / pageSize) ⟨some i.1, i.2, n⟩ := by
    rw [Tally.recount, hcell]
  have hold : ∀ j, s.tally.cells (b / pageSize) ≠ .empty j := fun j =>
    hcell ▸ Cell.succ_ne_empty n j
  unfold Store.push at hp
  dsimp only at hp
  rw [hdec, bind_some] at hp
  split at hp
  · next hz =>
    obtain rfl : n = 0 := by simpa using hz
    split at hp
    · next hnone =>
      cases hp
      refine ⟨⟨_, ⟨hlink.acc, hlink.free_chain, hlink.pump_chain⟩⟩,
        hs.write hnew (fun j hj => Cell.slot_eq hj ▸ hnone) fun j => ?_⟩
      dsimp only
      by_cases hj : j = i
      · subst hj
        rw [update_self, if_pos (by rfl)]
      · rw [update_of_ne hj, if_neg fun he => hj (Cell.slot_eq he).symm,
          if_neg (mt (hs j _).1 (hold j))]
    · obtain ⟨hcore, ht, hsp⟩ := hlink.drain (by rw [hnew, cells_set_self]; rfl) hp
      refine ⟨⟨_, hcore⟩, hs.set hsp (p := b / pageSize) (c := .free) ?_ hold Cell.free_ne_empty⟩
      rw [ht]
      simp [Tally.recount, Tally.set]
  · next hz =>
    cases hp
    refine ⟨⟨_, hlink⟩, hs.set rfl rfl hold fun j he => hz ?_⟩
    rw [beq_iff_eq]
    exact congrArg Cell.used he

/-! ## Out of the pool -/

theorem core_pop (h : Core s pump L P O) (hs : Spares s) (hL : L i = b :: R) :
    ∃ tally, s.tally.incUsed (b / pageSize) = some tally ∧ ∀ s', s' = { s with
          tally
          spare := if s.spare i = some (b / pageSize) then update s.spare i none else s.spare
          freepool := update s.freepool i (s.mem b) } →
      Stocked s' pump P (update O i (b :: O i)) := by
  have hb : b ∈ L i ++ (P i ++ O i) := by simp [hL]
  have hcell := h.acc.cell hb
  have hcov := (h.acc.table (b / pageSize) i.1 (by rw [hcell])).1
  have hle := h.acc.countP_le (i := i) (p := b / pageSize)
  have hps : pageSize = 4096 := rfl
  generalize hn : (P i ++ O i).countP (inPage (b / pageSize)) = n at hcell hle
  have hchain := h.free_chain i
  rw [hL] at hchain
  have htake := h.acc.take hL
  rw [countP_cons_of_pos (inPage_iff.2 rfl), hn] at htake
  refine ⟨s.tally.recount (b / pageSize) (n + 1), ?_, ?_⟩
  · unfold Tally.incUsed
    rw [Tally.write, if_pos hcov]
    simp only [Cell.incUsed, Tally.recount, hcell]
    rw [Nat.min_eq_left (by omega)]
  rintro _ rfl
  refine ⟨⟨_, htake.perm (fun _ => .refl _)
      (rel_update (fun j (l : List Nat) => (P j ++ l).Perm) perm_middle fun _ _ => .refl _),
    rel_update (fun _ => Stacks.Chain s.mem) hchain.2 fun j _ => h.free_chain j, h.pump_chain⟩,
    hs.write (p := b / pageSize) (c := ⟨some i.1, i.2, n + 1⟩) (by rw [Tally.recount, hcell])
      (fun j hj => absurd hj (Cell.succ_ne_empty n j)) fun j => ?_⟩
  dsimp only
  rw [if_neg (Cell.succ_ne_empty n j)]
  by_cases hj : j = i
  · subst hj
    split
    · rw [update_self]
    · rfl
  · have hne : s.spare j ≠ some (b / pageSize) := fun he =>
      hj (Cell.slot_eq (hcell.symm.trans ((hs j _).1 he))).symm
    split
    · rw [update_of_ne hj]
    · rfl

/-- A fresh page is cut into blocks. -/
theorem core_prime (h : Core s pump L P O) (hs : Spares s) (hL : L i = [])
    (hh : i.1 < 2 ^ 8) (hk : MIN_POWER ≤ i.2) (hk' : i.2 ≤ MAX_POWER)
    (hv : Vacant s p) : ∃ s', s.prime i p = some (p * pageSize, s') ∧
      Stocked s' pump P (update O i (p * pageSize :: O i)) := by
  obtain ⟨hp, hc⟩ := hv
  obtain ⟨n, hn, hblocks⟩ := blocks_eq (p := p) hk'
  have hpos : 0 < 2 ^ i.2 := Nat.two_pow_pos _
  have hmax : MAX_POWER = 11 := rfl
  have hcell : Cell.new i.1 i.2 = ⟨some i.1, i.2, 1⟩ := by
    unfold Cell.new
    rw [Nat.mod_eq_of_lt hh, Nat.mod_eq_of_lt (by omega)]
  have hacc := h.acc.prime hp hc hk hk' hblocks
  have hrow : Chain (update (row s.mem (2 ^ i.2) (p * pageSize) n) (p * pageSize + n * 2 ^ i.2)
      none) (some (p * pageSize))
      (p * pageSize :: List.range' (p * pageSize + 2 ^ i.2) n (2 ^ i.2)) := by
    exact chain_row hpos
  -- the memory outside of the page is as it was
  have hmem : ∀ c, c ∉ blocks p i.2 → update (update (row s.mem (2 ^ i.2)
      (p * pageSize) n) (p * pageSize + n * 2 ^ i.2) none) (p * pageSize) none c = s.mem c := by
    intro c hnot
    have hlast : p * pageSize + n * 2 ^ i.2 ∈ blocks p i.2 := by
      unfold blocks
      rw [hn, mem_range']
      exact ⟨n, by omega, by rw [Nat.mul_comm n]⟩
    have hfirst : p * pageSize ∈ blocks p i.2 := by simp [hblocks]
    have hc1 : c ≠ p * pageSize := fun he => hnot (he ▸ hfirst)
    have hc2 : c ≠ p * pageSize + n * 2 ^ i.2 := fun he => hnot (he ▸ hlast)
    rw [update_of_ne hc1, update_of_ne hc2]
    refine row_of_not_mem fun hm => hnot ?_
    unfold blocks
    rw [mem_range'] at hm ⊢
    obtain ⟨k, hk, rfl⟩ := hm
    exact ⟨k, by omega, rfl⟩
  have hout : ∀ j c, c ∈ L j ++ (P j ++ O j) → c ∉ blocks p i.2 := fun j c hm hmem => by
    have := (h.acc.owns hm).1
    rw [((mem_blocks hk').1 hmem).1, hp] at this
    simp at this
  refine ⟨{ s with
      tally := s.tally.set p ⟨some i.1, i.2, 1⟩
      freepool := update s.freepool i (update (row s.mem (2 ^ i.2) (p * pageSize) n)
        (p * pageSize + n * 2 ^ i.2) none (p * pageSize))
      mem := update (update (row s.mem (2 ^ i.2) (p * pageSize) n)
        (p * pageSize + n * 2 ^ i.2) none) (p * pageSize) none }, ?_,
    ⟨update L i (List.range' (p * pageSize + 2 ^ i.2) n (2 ^ i.2) ++ L i),
      ⟨hacc.perm (fun _ => .refl _)
          (rel_update (fun j (l : List Nat) => (P j ++ l).Perm) perm_middle fun _ _ => .refl _),
        rel_update (fun _ => Stacks.Chain _) ?_ fun j _ => ?_, fun j => ?_⟩⟩, ?_⟩
  · unfold Store.prime
    rw [Tally.write, if_pos hc, hn, hcell]
    rfl
  · rw [hL, append_nil]
    refine chain_update hrow.2 (fun hm => ?_) _
    rw [mem_range'] at hm
    obtain ⟨k, _, hk⟩ := hm
    omega
  · exact (chain_congr fun c hc => hmem c (hout j c (mem_append_left _ hc))).2 (h.free_chain j)
  · exact (chain_congr fun c hc => hmem c (hout j c (mem_append_right _
      (mem_append_left _ hc)))).2 (h.pump_chain j)
  · refine hs.set rfl rfl (fun j he => ?_) (Cell.succ_ne_empty 0)
    rw [he] at hp
    cases hp

/-- A block is taken, from the stack or from a fresh page. -/
theorem Stocked.take (h : Stocked s pump P O) (hh : i.1 < 2 ^ 8) (hk : MIN_POWER ≤ i.2)
    (hk' : i.2 ≤ MAX_POWER) {frame : Option Nat} (hf : ∀ page, frame = some page → Vacant s page)
    {r : Option Nat} (ht : s.take i frame = some (r, s')) : (r = none → s' = s) ∧
      ∀ ptr, r = some ptr → Stocked s' pump P (update O i (ptr :: O i)) := by
  obtain ⟨⟨L, h⟩, hs⟩ := h
  unfold Store.take at ht
  have hhead := (h.free_chain i).head_eq
  split at ht
  · next head hfree =>
    obtain ⟨R, hL⟩ : ∃ R, L i = head :: R := by
      rw [hfree] at hhead
      cases hLi : L i with
      | nil => simp [hLi] at hhead
      | cons x R =>
        rw [hLi] at hhead
        exact ⟨R, by rw [some.inj hhead]⟩
    obtain ⟨tally, htally, hpop⟩ := core_pop h hs hL
    simp only [htally, map_some, some.injEq, Prod.mk.injEq] at ht
    obtain ⟨rfl, rfl⟩ := ht
    refine ⟨by simp, fun ptr hptr => ?_⟩
    cases hptr
    exact hpop _ rfl
  · next hfree =>
    have hL : L i = [] := by
      rw [hfree] at hhead
      exact head?_eq_none_iff.1 hhead.symm
    split at ht
    · cases ht
      exact ⟨fun _ => rfl, by simp⟩
    next page =>
    obtain ⟨s1, hprime, hstocked⟩ := core_prime h hs hL hh hk hk' (hf page rfl)
    simp only [hprime, map_some, some.injEq, Prod.mk.injEq] at ht
    obtain ⟨rfl, rfl⟩ := ht
    refine ⟨by simp, fun ptr hptr => ?_⟩
    cases hptr
    exact hstocked

/-! ## The pumps -/

/-- The walk along the stack of a pump; the induction is on that stack. -/
theorem Stocked.suckLoop {fuel : Nat} (h : Stocked s pump P O) (hP : P i = R)
    (he : Store.suckLoop i fuel s (pump i) = some s') :
    Stocked s' (update pump i none) (update P i []) O := by
  induction R generalizing s pump P fuel with
  | nil =>
    have hnone : pump i = none := by
      have := h.1.choose_spec.pump_chain i
      rwa [hP] at this
    rw [hnone] at he
    have he : some s = some s' := by cases fuel <;> exact he
    cases he
    rwa [← hnone, update_eq_self, ← hP, update_eq_self]
  | cons b R ih =>
    obtain ⟨⟨L, h⟩, hs⟩ := h
    have hchain := h.pump_chain i
    rw [hP] at hchain
    rw [hchain.1] at he
    cases fuel with
    | zero => simp [Store.suckLoop] at he
    | succ fuel =>
      unfold Store.suckLoop at he
      obtain ⟨s1, hpush, he⟩ := bind_eq_some_iff.1 he
      have h1 := Stocked.push ⟨⟨L, h.unpump hP⟩, hs⟩ (update_self _ _ _) hpush
      rw [update_idem, update_eq_self] at h1
      rw [← update_self i (s.mem b) pump] at he
      have := ih h1 (update_self _ _ _) he
      rwa [update_idem, update_idem] at this

variable {heap heap' : Heap}

/-- The pools and pumps as they should be, with `O` out. -/
def Kept (heap : Heap) (O : Slot → List Nat) : Prop := ∃ P, Stocked heap.store heap.pump P O

variable {hart : Nat}

theorem kept_suck (h : Kept heap O) (he : heap.suck hart = some heap') : Kept heap' O := by
  refine Lists.foldlM_keeps (P := (Kept · O)) ?_ h he
  rintro i - heap heap' ⟨P, h⟩ he
  unfold Heap.suckOne at he
  obtain ⟨store, hloop, rfl⟩ := map_eq_some_iff.1 he
  exact ⟨_, h.suckLoop rfl hloop⟩

/-! ## Giving pages back -/

/-- A hart's empty pages up to here are gone; the other harts' spare pages are as they were. -/
structure Cleared (s₀ s : Store) (hart : Nat) (gone : List Nat) : Prop where
  gone : ∀ p ∈ gone, ¬ ((s.tally.cells p).owner = some hart ∧ (s.tally.cells p).used = 0)
  spare : s.spare = s₀.spare
  others : ∀ p, (s.tally.cells p).owner = some hart ∨ s.tally.cells p = .free ∨
    s.tally.cells p = s₀.tally.cells p
  keep : ∀ p, (s₀.tally.cells p).owner ≠ some hart → s.tally.cells p = s₀.tally.cells p
  table : s.tally.first = s₀.tally.first ∧ s.tally.len = s₀.tally.len

theorem core_clearLoop {s0 : Store} {pages gone : List Nat} (h : Core s pump L P O)
    (hc : Cleared s0 s hart gone)
    (he : pages.foldlM (fun s page =>
      if (s.tally.cells page).owner = some hart ∧ (s.tally.cells page).used = 0 then
        s.drain (hart, (s.tally.cells page).power) page
      else some s) s = some s') :
    (∃ L', Core s' pump L' P O) ∧ Cleared s0 s' hart (gone ++ pages) := by
  induction pages generalizing s L gone with
  | nil =>
    cases he
    rw [append_nil]
    exact ⟨⟨L, h⟩, hc⟩
  | cons p pages ih =>
    rw [foldlM_cons] at he
    obtain ⟨s1, hstep, he⟩ := bind_eq_some_iff.1 he
    rw [append_cons]
    split at hstep
    · next hempty =>
      have hcell : s.tally.cells p = .empty (hart, (s.tally.cells p).power) := by
        rw [Cell.empty, ← hempty.1, ← hempty.2]
      obtain ⟨hcore, ht, hsp⟩ := h.drain hcell hstep
      refine ih hcore ⟨fun q hq => ?_, hsp.trans hc.spare, fun q => ?_, fun q hq => ?_, ?_⟩ he
      · rw [ht]
        by_cases hqp : q = p
        · rw [hqp, cells_set_self]
          simp [Cell.free]
        rw [cells_set_of_ne hqp]
        rcases mem_append.1 hq with hq | hq
        · exact hc.gone q hq
        · exact absurd (mem_singleton.1 hq) hqp
      · rw [ht]
        by_cases hqp : q = p
        · rw [hqp, cells_set_self]
          exact .inr (.inl rfl)
        · rw [cells_set_of_ne hqp]
          exact hc.others q
      · have := hc.keep q hq
        rwa [ht, cells_set_of_ne]
        rintro rfl
        exact hq (this ▸ hempty.1)
      · rw [ht]
        exact hc.table
    · next hne =>
      cases hstep
      refine ih h ⟨fun q hq => ?_, hc.spare, hc.others, hc.keep, hc.table⟩ he
      rcases mem_append.1 hq with hq | hq
      · exact hc.gone q hq
      · rw [mem_singleton.1 hq]
        exact hne

/-- The empty pages of a hart are given back. -/
theorem Stocked.clear (h : Stocked s pump P O) (he : s.clear hart = some s') :
    Stocked s' pump P O := by
  obtain ⟨⟨L, h⟩, hs⟩ := h
  unfold Store.clear at he
  obtain ⟨s1, hloop, rfl⟩ := map_eq_some_iff.1 he
  have hstart : Cleared s s hart [] :=
    ⟨by simp, rfl, fun _ => .inr (.inr rfl), fun _ _ => rfl, rfl, rfl⟩
  obtain ⟨⟨L', h'⟩, hc⟩ := core_clearLoop h hstart hloop
  refine ⟨⟨L', h'.acc, h'.free_chain, h'.pump_chain⟩, fun j p => ?_⟩
  dsimp only
  split
  · next hj =>
    -- a page of the hart that is empty would have been visited
    refine ⟨by simp, fun hcell => ?_⟩
    have hown : (s1.tally.cells p).owner = some hart := by rw [hcell, Cell.empty, hj]
    have hcov := (h'.acc.table p hart hown).1
    unfold Tally.covers at hcov
    rw [hc.table.1, hc.table.2, Bool.and_eq_true, decide_eq_true_eq, decide_eq_true_eq] at hcov
    have hmem : p ∈ [] ++ List.range' s.tally.first s.tally.len := by
      rw [nil_append, mem_range'_1]
      exact hcov
    exact absurd ⟨hown, by rw [hcell, Cell.empty]⟩ (hc.gone p hmem)
  · next hj =>
    rw [hc.spare, hs j p]
    constructor
    · intro hcell
      rwa [hc.keep p (by rw [hcell]; exact fun he => hj (some.inj he))]
    intro hcell
    rcases hc.others p with h1 | h1 | h1
    · rw [hcell] at h1
      exact absurd (some.inj h1) hj
    · cases h1.symm.trans hcell
    · rwa [← h1]

theorem kept_flush {harts : Nat} (h : Kept heap O) (he : heap.flush harts = some heap') :
    Kept heap' O := by
  refine Lists.foldlM_keeps (P := (Kept · O)) (fun hart _ heap heap' h he => ?_) h he
  obtain ⟨heap1, hsuck, he⟩ := bind_eq_some_iff.1 he
  obtain ⟨store, hclear, rfl⟩ := map_eq_some_iff.1 he
  obtain ⟨P, h1⟩ := kept_suck h hsuck
  exact ⟨P, h1.clear hclear⟩

end core

/-! ## Runs -/

/-- The heap and what is out: by the hart and power of the allocation, the addresses with the sizes
that were asked for. -/
structure World where
  heap : Heap
  out : Slot → List (Nat × Nat)

/-- No pages yet, over memory that may hold anything. -/
def World.start (first len : Nat) (mem : Memory) : World :=
  { heap := {
      store := {
        tally := ⟨first, len, fun _ => .free⟩
        freepool := fun _ => none
        spare := fun _ => none
        mem }
      pump := fun _ => none }
    out := fun _ => [] }

/-- A call of one hart, or the users at work. -/
inductive Step (harts : Nat) : World → World → Prop
  /-- The frame allocator has no page or one of the table that is not in use here. -/
  | allocate {w : World} {me : Nat} (hme : me < harts) (layout : Layout) {frame : Option Nat}
      (hframe : ∀ heap page, w.heap.suck me = some heap → frame = some page →
        (heap.store.tally.cells page).owner = none ∧ heap.store.tally.covers page = true)
      {ptr : Nat} {heap : Heap} (h : w.heap.allocate me layout frame = some (.ok ptr, heap)) :
      Step harts w ⟨heap, update w.out (me, powerOf layout.size)
        ((ptr, layout.size) :: w.out (me, powerOf layout.size))⟩
  | refuse {w : World} {me : Nat} (hme : me < harts) (layout : Layout) {e : AllocError}
      {heap : Heap} (h : w.heap.allocate me layout none = some (.error e, heap)) :
      Step harts w ⟨heap, w.out⟩
  | deallocate {w : World} {me : Nat} (hme : me < harts) {i : Slot} {x : Nat × Nat}
      (hx : x ∈ w.out i) {heap : Heap} (h : w.heap.deallocate me x.1 x.2 = some heap) :
      Step harts w ⟨heap, update w.out i ((w.out i).erase x)⟩
  | flush {w : World} {heap : Heap} (h : w.heap.flush harts = some heap) :
      Step harts w ⟨heap, w.out⟩
  /-- The users write what they like into what they were given. -/
  | use {w : World} (mem : Memory)
      (h : ∀ a, (∀ i, ∀ x ∈ w.out i, a + 8 ≤ x.1 ∨ x.1 + x.2 ≤ a) → mem a = w.heap.store.mem a) :
      Step harts w ⟨{ w.heap with store := { w.heap.store with mem } }, w.out⟩

/-- Runs from an empty heap. -/
inductive Runs (harts first len : Nat) : World → Prop
  | start (mem : Memory) : Runs harts first len (World.start first len mem)
  | step {w w' : World} : Runs harts first len w → Step harts w w' → Runs harts first len w'

/-- The addresses handed out. -/
def World.outs (w : World) (i : Slot) : List Nat := (w.out i).map Prod.fst

theorem outs_update (w : World) (heap : Heap) (i : Slot) (l : List (Nat × Nat)) :
    World.outs ⟨heap, update w.out i l⟩ = update w.outs i (l.map Prod.fst) := by
  funext j
  by_cases hj : j = i
  · subst hj
    simp [World.outs]
  · simp [World.outs, update_of_ne hj]

/-- The heap accounts for what is out, in the slot of its size. -/
structure Good (w : World) : Prop where
  kept : Kept w.heap w.outs
  power : ∀ i, ∀ x ∈ w.out i, powerOf x.2 = i.2

section

variable {harts first len : Nat} {w w' : World}

theorem le_powerOf (size : Nat) : MIN_POWER ≤ powerOf size := by
  have h : Nat.log2 7 ≤ Nat.log2 (max size (2 ^ MIN_POWER) - 1) := by
    have h1 : (2 : Nat) ^ MIN_POWER = 8 := by decide
    rw [Nat.le_log2 (by omega)]
    have : (2 : Nat) ^ Nat.log2 7 = 4 := by decide
    omega
  have h2 : Nat.log2 7 = 2 := by decide
  have h3 : MIN_POWER = 3 := rfl
  unfold powerOf
  omega

theorem size_le (size : Nat) : size ≤ 2 ^ powerOf size := by
  have h := Nat.lt_log2_self (n := max size (2 ^ MIN_POWER) - 1)
  unfold powerOf
  omega

theorem good_start (first len : Nat) (mem : Memory) : Good (World.start first len mem) := by
  refine ⟨⟨fun _ => [], ⟨fun _ => [], ⟨by simp, ?_, ?_, ?_, ?_⟩, fun _ => rfl, fun _ => rfl⟩, ?_⟩,
    ?_⟩
  · simp [World.start, World.outs]
  · intro i b ho
    simp [World.start, Owns, Cell.free] at ho
  · simp [World.start, Cell.free]
  · simp [World.start, Cell.free]
  · intro i p
    simp [World.start, Cell.free, Cell.empty]
  · simp [World.start]

variable {heap heap' : Heap} {O : Slot → List Nat}

theorem kept_allocate (h : Kept heap O) {me : Nat} (hme : me < 2 ^ 8)
    {layout : Layout} {frame : Option Nat}
    (hf : ∀ heap' page, heap.suck me = some heap' → frame = some page → Vacant heap'.store page)
    {r : Except AllocError Nat} (he : heap.allocate me layout frame = some (r, heap')) :
    (∀ e, r = .error e → Kept heap' O) ∧ ∀ ptr, r = .ok ptr →
      Kept heap' (update O (me, powerOf layout.size) (ptr :: O (me, powerOf layout.size))) := by
  unfold Heap.allocate at he
  dsimp only at he
  split at he
  · cases he
    exact ⟨fun _ _ => h, by simp⟩
  next hok =>
  obtain ⟨⟨r', heap1⟩, hpull, heq⟩ := map_eq_some_iff.1 he
  unfold Heap.pull at hpull
  obtain ⟨heap0, hsuck, hpull⟩ := bind_eq_some_iff.1 hpull
  obtain ⟨⟨r0, store⟩, htake, hr⟩ := map_eq_some_iff.1 hpull
  cases hr
  obtain ⟨P, h1⟩ := kept_suck h hsuck
  obtain ⟨hnone, hsome⟩ := h1.take hme (le_powerOf _) (by dsimp only; omega)
    (fun page hp => hf heap0 page hsuck hp) htake
  cases r' with
  | none =>
    cases heq
    rw [hnone rfl]
    exact ⟨fun _ _ => ⟨P, h1⟩, by simp⟩
  | some ptr =>
    cases heq
    refine ⟨by simp, fun p hp => ?_⟩
    cases hp
    exact ⟨P, hsome ptr rfl⟩

theorem Kept.perm {O' : Slot → List Nat} (h : Kept heap O) (hO : ∀ i, (O' i).Perm (O i)) :
    Kept heap O' := by
  obtain ⟨P, ⟨L, h⟩, hs⟩ := h
  exact ⟨P, ⟨L, h.perm hO⟩, hs⟩

theorem kept_deallocate (h : Kept heap O) {me : Nat} {i : Slot}
    {ptr size : Nat} {R : List Nat} (hO : O i = ptr :: R) (hp : powerOf size = i.2)
    (he : heap.deallocate me ptr size = some heap') : Kept heap' (update O i R) := by
  obtain ⟨P, ⟨L, hcore⟩, hs⟩ := h
  have hb : ptr ∈ L i ++ (P i ++ O i) := by simp [hO]
  have hcell := hcore.acc.cell hb
  have hcov := (hcore.acc.table (ptr / pageSize) i.1 (by rw [hcell])).1
  have howner : heap.store.tally.ownerOf ptr = some i.1 := by
    unfold Tally.ownerOf
    rw [if_pos hcov, hcell]
  unfold Heap.deallocate at he
  simp only [howner, hp] at he
  split at he
  · obtain ⟨store, hpush, rfl⟩ := map_eq_some_iff.1 he
    exact ⟨P, Stocked.push ⟨⟨L, hcore⟩, hs⟩ hO hpush⟩
  · -- the block waits in the pump of its slot
    cases he
    have hout : ptr ∈ O i := hO ▸ mem_cons_self
    have hbusy : (ptr :: P i ++ R).Perm (P i ++ O i) := by
      rw [hO]
      exact perm_middle.symm
    refine ⟨update P i (ptr :: P i), ⟨L, hcore.acc.perm (fun _ => .refl _)
        (rel_update (fun j (l m : List Nat) => (l ++ m).Perm (P j ++ O j)) hbusy
          fun _ _ => .refl _),
      fun j => ?_, rel_update (fun _ => Stacks.Chain _) ?_ fun j _ => ?_⟩, hs⟩
    · exact chain_update (hcore.free_chain j) (hcore.out_not_free hout j) _
    · exact chain_push (hcore.pump_chain i) (hcore.out_not_pump hout i)
    · exact chain_update (hcore.pump_chain j) (hcore.out_not_pump hout j) _

/-- Of two blocks the lower ends before the other begins. -/
theorem Owns.apart {t : Tally} {i j : Slot} {a b : Nat} (ha : Owns t i a) (hb : Owns t j b)
    (hk : i.2 ≤ MAX_POWER) (hlt : a < b) : a + 2 ^ i.2 ≤ b := by
  have hps := pageSize_pos
  by_cases hp : a / pageSize = b / pageSize
  · -- on one page, the two are multiples of one power
    have hij : i = j := by
      obtain ⟨h1, h2, _⟩ := ha
      rw [hp] at h1 h2
      exact Prod.ext (some.inj (h1.symm.trans hb.1)) (h2.symm.trans hb.2.1)
    subst hij
    have := Nat.le_of_dvd (by omega) (Nat.dvd_sub hb.2.2 ha.2.2)
    omega
  have hle : a / pageSize + 1 ≤ b / pageSize := by
    have := Nat.div_le_div_right (c := pageSize) (Nat.le_of_lt hlt)
    omega
  have h1 : (a / pageSize + 1) * pageSize ≤ b :=
    Nat.le_trans (Nat.mul_le_mul_right _ hle) (Nat.div_mul_le_self _ _)
  have h2 : a < (a / pageSize + 1) * pageSize := by
    rw [Nat.mul_comm]
    exact Nat.lt_mul_div_succ a hps
  have h3 : 2 ^ i.2 ∣ (a / pageSize + 1) * pageSize - a :=
    Nat.dvd_sub (Nat.dvd_mul_left_of_dvd (pow_dvd_pageSize hk) _) ha.2.2
  have := Nat.le_of_dvd (by omega) h3
  omega

/-- The links lie outside of what the users have. -/
theorem kept_use {L P : Slot → List Nat} (hg : Good w)
    (h : Core w.heap.store w.heap.pump L P w.outs) {mem : Memory}
    (hw : ∀ a, (∀ i, ∀ x ∈ w.out i, a + 8 ≤ x.1 ∨ x.1 + x.2 ≤ a) → mem a = w.heap.store.mem a) :
    Core { w.heap.store with mem } w.heap.pump L P w.outs := by
  have hpow : ∀ {i b}, Owns w.heap.store.tally i b → MIN_POWER ≤ i.2 ∧ i.2 ≤ MAX_POWER :=
    fun ho => ho.2.1 ▸ (h.acc.table _ _ ho.1).2
  have hsame : ∀ j b, b ∈ L j ++ P j → mem b = w.heap.store.mem b := by
    intro j b hb
    have hb' : b ∈ L j ++ (P j ++ w.outs j) := by
      rw [← append_assoc]
      exact mem_append_left _ hb
    refine hw b fun i x hx => ?_
    have hxo : x.1 ∈ w.outs i := List.mem_map_of_mem hx
    have hx' : x.1 ∈ L i ++ (P i ++ w.outs i) := by simp [hxo]
    have hne : b ≠ x.1 := by
      rintro rfl
      rcases mem_append.1 hb with hb | hb
      · exact h.out_not_free hxo j hb
      · exact h.out_not_pump hxo j hb
    have h1 := h.acc.owns hb'
    have h2 := h.acc.owns hx'
    have hsize := size_le x.2
    rw [hg.power i x hx] at hsize
    rcases Nat.lt_or_gt_of_ne hne with hlt | hlt
    · have := h1.apart h2 (hpow h1).2 hlt
      have h8 : 2 ^ 3 ≤ 2 ^ j.2 := Nat.pow_le_pow_right (by decide) (hpow h1).1
      left
      omega
    · have := h2.apart h1 (hpow h2).2 hlt
      right
      omega
  refine ⟨h.acc, fun j => ?_, fun j => ?_⟩
  · exact (chain_congr fun b hb => hsame j b (mem_append_left _ hb)).2 (h.free_chain j)
  · exact (chain_congr fun b hb => hsame j b (mem_append_right _ hb)).2 (h.pump_chain j)

/-- Every call, and all that users write, keeps the heap good. -/
theorem good_step (hh : harts ≤ 2 ^ 8) (h : Good w) (hs : Step harts w w') : Good w' := by
  cases hs with
  | @allocate me hme layout frame hframe ptr heap he =>
    have hk := (kept_allocate h.kept (Nat.lt_of_lt_of_le hme hh) hframe he).2 ptr rfl
    refine ⟨?_, (forall_update_iff w.out fun i l => ∀ x ∈ l, powerOf x.2 = i.2).2
      ⟨forall_mem_cons.2 ⟨rfl, h.power _⟩, fun i _ => h.power i⟩⟩
    rw [outs_update]
    exact hk
  | refuse hme layout he =>
    exact ⟨(kept_allocate h.kept (Nat.lt_of_lt_of_le hme hh) (by simp) he).1 _ rfl, h.power⟩
  | @deallocate me hme i x hx heap he =>
    have hperm : (w.outs i).Perm (x.1 :: ((w.out i).erase x).map Prod.fst) := by
      have := (perm_cons_erase hx).map Prod.fst
      rwa [map_cons] at this
    have hk : Kept w.heap (update w.outs i (x.1 :: ((w.out i).erase x).map Prod.fst)) :=
      h.kept.perm ((forall_update_iff w.outs fun j l => l.Perm (w.outs j)).2
        ⟨hperm.symm, fun _ _ => .refl _⟩)
    have hd := kept_deallocate hk (update_self _ _ _) (h.power i x hx) he
    rw [update_idem] at hd
    refine ⟨?_, (forall_update_iff w.out fun j l => ∀ y ∈ l, powerOf y.2 = j.2).2
      ⟨fun y hy => h.power i y (mem_of_mem_erase hy), fun j _ => h.power j⟩⟩
    rw [outs_update]
    exact hd
  | flush he => exact ⟨kept_flush h.kept he, h.power⟩
  | use mem hw =>
    obtain ⟨P, ⟨L, hcore⟩, hs⟩ := h.kept
    exact ⟨⟨P, ⟨L, kept_use h hcore hw⟩, hs⟩, h.power⟩

theorem good_runs (hh : harts ≤ 2 ^ 8) (h : Runs harts first len w) : Good w := by
  induction h with
  | start mem => exact good_start first len mem
  | step _ hs ih => exact good_step hh ih hs

/-- With at most 256 harts, in every state of every run: a page's count is the number of its blocks
that are out or wait in the owner's pump, and every other block of it is once on the owner's free
stack of its power; the spare pages are the empty ones; every block that is free, waiting or out
lies in a page that its slot holds, so that nothing is left of a page that was given back; and no
block is out twice nor overlaps another. -/
theorem slab_run (hh : harts ≤ 2 ^ 8) (h : Runs harts first len w) :
    ∃ L P : Slot → List Nat,
      (∀ i, Chain w.heap.store.mem (w.heap.store.freepool i) (L i)) ∧
      (∀ i, Chain w.heap.store.mem (w.heap.pump i) (P i)) ∧
      (∀ p i n, w.heap.store.tally.cells p = ⟨some i.1, i.2, n⟩ →
        n = (P i).countP (inPage p) + (w.outs i).countP (inPage p) ∧
        ∀ b, b / pageSize = p → 2 ^ i.2 ∣ b →
          (L i).count b + (P i).count b + (w.outs i).count b = 1) ∧
      (∀ i p, w.heap.store.spare i = some p ↔ w.heap.store.tally.cells p = ⟨some i.1, i.2, 0⟩) ∧
      (∀ i b, b ∈ L i ∨ b ∈ P i ∨ b ∈ w.outs i → Owns w.heap.store.tally i b) ∧
      (∀ i, (w.outs i).Nodup) ∧
      ∀ i j, ∀ x ∈ w.out i, ∀ y ∈ w.out j,
        x.1 = y.1 ∧ i = j ∨ x.1 + x.2 ≤ y.1 ∨ y.1 + y.2 ≤ x.1 := by
  have hg := good_runs hh h
  obtain ⟨P, ⟨L, hcore⟩, hs⟩ := hg.kept
  have howns i b (hb : b ∈ L i ∨ b ∈ P i ∨ b ∈ w.outs i) : Owns w.heap.store.tally i b :=
    hcore.acc.owns (by simpa using hb)
  refine ⟨L, P, hcore.free_chain, hcore.pump_chain, fun p i n hp => ⟨?_, fun b hb hd => ?_⟩, hs,
    howns, fun i => ?_, fun i j x hx y hy => ?_⟩
  · rw [← countP_append]
    exact hcore.acc.used p i n hp
  · have := hcore.acc.once i b ⟨by rw [hb, hp], by rw [hb, hp], hd⟩
    rw [count_append] at this
    omega
  · exact (nodup_append.1 (nodup_append.1 (hcore.acc.nodup i)).2.1).2.1
  have h1 := howns i x.1 (.inr (.inr (List.mem_map_of_mem hx)))
  have h2 := howns j y.1 (.inr (.inr (List.mem_map_of_mem hy)))
  have hx' := size_le x.2
  have hy' := size_le y.2
  rw [hg.power i x hx] at hx'
  rw [hg.power j y hy] at hy'
  rcases Nat.lt_trichotomy x.1 y.1 with hlt | heq | hlt
  · have := h1.apart h2 (h1.2.1 ▸ (hcore.acc.table _ _ h1.1).2.2) hlt
    omega
  · exact .inl ⟨heq, h1.unique (heq ▸ h2)⟩
  · have := h2.apart h1 (h2.2.1 ▸ (hcore.acc.table _ _ h2.1).2.2) hlt
    omega

end

/-! ## Runs that can be computed -/

inductive Call
  | alloc (me size : Nat) (frame : Option Nat)
  | free (me : Nat) (i : Slot) (x : Nat × Nat)

/-- What the frame allocator may answer. -/
def frameOk (heap : Heap) (me : Nat) (frame : Option Nat) : Bool :=
  match heap.suck me, frame with
  | some heap, some page =>
    (heap.store.tally.cells page).owner = none && heap.store.tally.covers page
  | _, _ => true

def World.call (harts : Nat) (w : World) : Call → Option World
  | .alloc me size frame =>
    if me < harts ∧ frameOk w.heap me frame = true then
      match w.heap.allocate me ⟨size, 1⟩ frame with
      | some (.ok ptr, heap) =>
        some ⟨heap, update w.out (me, powerOf size) ((ptr, size) :: w.out (me, powerOf size))⟩
      | _ => none
    else none
  | .free me i x =>
    if me < harts ∧ x ∈ w.out i then
      (w.heap.deallocate me x.1 x.2).map fun heap =>
        ⟨heap, update w.out i ((w.out i).erase x)⟩
    else none

theorem step_call {harts : Nat} {w w' : World} {c : Call} (h : w.call harts c = some w') :
    Step harts w w' := by
  cases c with
  | alloc me size frame =>
    simp only [World.call] at h
    split at h
    · next hok =>
      split at h
      · next ptr heap he =>
        cases h
        refine .allocate hok.1 ⟨size, 1⟩ (fun heap' page hsuck hf => ?_) he
        have hframe := hok.2
        simp only [frameOk, hsuck, hf, Bool.and_eq_true, decide_eq_true_eq] at hframe
        exact hframe
      · simp at h
    · simp at h
  | free me i x =>
    simp only [World.call] at h
    split at h
    · next hok =>
      obtain ⟨heap, he, rfl⟩ := map_eq_some_iff.1 h
      exact .deallocate hok.1 hok.2 he
    · simp at h

theorem runs_calls {harts first len : Nat} {calls : List Call} {w w' : World}
    (h : Runs harts first len w) (he : calls.foldlM (World.call harts) w = some w') :
    Runs harts first len w' :=
  Lists.foldlM_keeps (fun _ _ _ _ hw hc => .step hw (step_call hc)) h he

/-- Two harts; a block goes from one to the other's pump and is handed out again. -/
theorem slab_run_fed : ∃ w, Runs 2 0 1 w ∧ (0, 2048) ∈ w.out (0, 11) ∧
    ∀ i, (w.outs i).Nodup := by
  have h : (([.alloc 0 2048 (some 0), .free 1 (0, 11) (0, 2048), .alloc 0 2048 none] :
      List Call).foldlM (World.call 2) (World.start 0 1 fun _ => none)).any
        (fun w => (0, 2048) ∈ w.out (0, 11)) =
      true := by decide +kernel
  obtain ⟨w, he, hw⟩ := (Option.any_eq_true _ _).1 h
  have hrun : Runs 2 0 1 w := runs_calls (.start _) he
  obtain ⟨_, _, _, _, _, _, _, hn, _⟩ := slab_run (by decide) hrun
  exact ⟨w, hrun, by simpa using hw, hn⟩

/-- A page of hart 256 counts as one of hart 0, which gives it back while hart 256 still has a block
of it on its free stack; that block is then handed out by two harts. -/
theorem handed_out_twice : ∃ w, Runs 257 0 2 w ∧ ∃ x, x ∈ w.out (1, 11) ∧ x ∈ w.out (256, 11) := by
  have h : (([.alloc 0 2048 (some 1), .free 0 (0, 11) (4096, 2048), .alloc 256 2048 (some 0),
      .free 256 (256, 11) (0, 2048), .alloc 0 2048 none, .alloc 1 2048 (some 0), .alloc 1 2048 none,
      .alloc 256 2048 none] : List Call).foldlM (World.call 257)
        (World.start 0 2 fun _ => none)).any
      (fun w => (2048, 2048) ∈ w.out (1, 11) ∧ (2048, 2048) ∈ w.out (256, 11)) = true := by
    decide +kernel
  obtain ⟨w, he, hw⟩ := (Option.any_eq_true _ _).1 h
  exact ⟨w, runs_calls (.start _) he, _, by simpa using hw⟩

end Sqware.Block
