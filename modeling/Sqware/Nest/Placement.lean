import Mathlib.Data.Nat.ModEq
import Mathlib.Order.Bounds.Basic
import Sqware.Nest.OccupancyRun

/-!
# Where a span is placed

A system call describes a placement in three words; `nest_placement` turns the description into a
`Placement` of the Nest, and `reserve` picks the start.

`Lowest` takes the least aligned start.  `Highest` takes the greatest start whatever the alignment,
though the description may ask it for any.
-/

namespace Sqware.Nest

open Spans List Option

/-! ## The description of a placement -/

namespace Env

inductive PlacementError
  | tag | align
  deriving DecidableEq, Repr

/-- `env::Placement`. -/
structure Placement where
  at' : PlacementAt
  align : Nat
  deriving DecidableEq, Repr

namespace Placement

def checked (at' : PlacementAt) (align : Nat) : Option Placement :=
  if ¬ align.isPowerOfTwo ∨ align < pageSize then none
  else match at' with
    | .exact address => if address % align ≠ 0 then none else some ⟨at', align⟩
    | _ => some ⟨at', align⟩

def decode (kind address align : Nat) : Except PlacementError Placement :=
  let at' : Except PlacementError PlacementAt :=
    match kind with
    | 0 => if address = 0 then .ok .lowest else .error .tag
    | 1 => if address = 0 then .ok .highest else .error .tag
    | 2 => .ok (.exact address)
    | _ => .error .tag
  match at' with
  | .error e => .error e
  | .ok at' =>
    match checked at' align with
    | none => .error .align
    | some p => .ok p

end Placement

end Env

namespace Occupancy

def contains (o : Occupancy) (id : RegionId) (start last : Nat) : Bool :=
  match o.window id with
  | .ok window => window.base ≤ start && last ≤ window.last
  | .error _ => false

def windowContains (o : Occupancy) (id : RegionId) (start size : Nat) : Bool :=
  match checkedAdd start (size - 1) with
  | none => false
  | some last => o.contains id start last

/-- `Space::user_range` under a ceiling. -/
def userRange (upper at' size : Nat) : Bool :=
  at' < upper && (checkedAdd at' size).any (· ≤ upper)

/-- `nest_placement`. -/
def nestPlacement (o : Occupancy) (upper : Nat) (placement : Env.Placement) (size : Nat) :
    Except NestError Placement :=
  let at' : Except NestError PlacementAt :=
    match placement.at' with
    | .lowest => .ok .lowest
    | .highest => .ok .highest
    | .exact address =>
      if !userRange upper address size then .error .notAligned
      else if !o.windowContains .normal address size then .error .noRegion
      else .ok (.exact address)
  match at' with
  | .error e => .error e
  | .ok at' => Placement.new .normal size placement.align at'

/-! ## Free spans -/

/-- Nothing in the table meets `[start, last]`. -/
def Vacant (slots : List Slot) (start last : Nat) : Prop :=
  ∀ s ∈ slots, s.last < start ∨ last < s.start

/-- A span of `size` bytes from `start` on lies in the window and is free. -/
def Fits (o : Occupancy) (window : Window) (size start : Nat) : Prop :=
  window.base ≤ start ∧ start + (size - 1) ≤ window.last ∧ Vacant o.slots start (start + (size - 1))

variable {slots : List Slot} {last start : Nat} {slot : Slot}

theorem vacant_cons :
    Vacant (slot :: slots) start last ↔
      (slot.last < start ∨ last < slot.start) ∧ Vacant slots start last := by
  simp [Vacant]

/-- In an ordered table, what ends before the first slot is free. -/
theorem vacant_before (h : Ordered (slot :: slots)) (hl : last < slot.start) :
    Vacant (slot :: slots) start last := by
  obtain ⟨hs, hafter, _⟩ := ordered_cons.1 h
  refine vacant_cons.2 ⟨.inr hl, fun t ht => .inr ?_⟩
  have := hafter t ht
  simp only [lo_slot, hi_slot] at hs this
  omega

/-- The gap of the sweep before a slot. -/
def gapBefore (last at' : Nat) (slot : Slot) : List (Nat × Nat) :=
  if at' < slot.start then [(at', min (slot.start - 1) last)] else []

variable {at' : Nat}

/-- The sweep where the slot is in the window. -/
theorem sweep_meets (hpast : ¬ slot.last < at') (hin : ¬ last < slot.start) :
    sweep last (slot :: slots) at' = gapBefore last at' slot ++
      (checkedAdd slot.last 1).elim [] fun next => sweep last slots (max at' next) := by
  rw [sweep, if_neg hpast, if_neg hin]
  cases checkedAdd slot.last 1 with
  | none => exact (append_nil _).symm
  | some next => rfl

variable {gap : Nat × Nat}

theorem mem_gapBefore :
    gap ∈ gapBefore last at' slot ↔ at' < slot.start ∧ gap = (at', min (slot.start - 1) last) := by
  unfold gapBefore
  split <;> simp_all

/-- Each span of the sweep is a free part of the window past the address it starts from. -/
theorem sweep_sound (h : Ordered slots) (hg : gap ∈ sweep last slots at') :
    at' ≤ gap.1 ∧ gap.1 ≤ gap.2 ∧ gap.2 ≤ last ∧ Vacant slots gap.1 gap.2 := by
  induction slots generalizing at' with
  | nil =>
    unfold sweep at hg
    split at hg
    · next hle =>
      obtain rfl := mem_singleton.1 hg
      exact ⟨le_rfl, hle, le_rfl, fun _ hs => nomatch hs⟩
    · exact nomatch hg
  | cons slot slots ih =>
    have htail := (ordered_cons.1 h).2.2
    by_cases hpast : slot.last < at'
    · rw [sweep, if_pos hpast] at hg
      obtain ⟨h1, h2, h3, h4⟩ := ih htail hg
      exact ⟨h1, h2, h3, vacant_cons.2 ⟨.inl (by omega), h4⟩⟩
    by_cases hbeyond : last < slot.start
    · rw [sweep, if_neg hpast, if_pos hbeyond] at hg
      split at hg
      · next hle =>
        obtain rfl := mem_singleton.1 hg
        exact ⟨le_rfl, hle, le_rfl, vacant_before h hbeyond⟩
      · exact nomatch hg
    rw [sweep_meets hpast hbeyond] at hg
    rcases mem_append.1 hg with hg | hg
    · obtain ⟨hlt, rfl⟩ := mem_gapBefore.1 hg
      exact ⟨le_rfl, by dsimp only; omega, min_le_right _ _, vacant_before h (by dsimp only; omega)⟩
    cases hnext : checkedAdd slot.last 1 with
    | none =>
      rw [hnext] at hg
      exact nomatch hg
    | some next =>
      rw [hnext] at hg
      obtain ⟨rfl, _⟩ := checkedAdd_eq_some.1 hnext
      obtain ⟨h1, h2, h3, h4⟩ := ih htail hg
      exact ⟨by omega, h2, h3, vacant_cons.2 ⟨.inl (by omega), h4⟩⟩

variable {hi lo : Nat}

/-- A free part of the window lies in one span of the sweep. -/
theorem sweep_complete (hlast : last < usizeSize) (hat : at' ≤ lo) (hle : lo ≤ hi) (hhi : hi ≤ last)
    (hv : Vacant slots lo hi) : ∃ gap ∈ sweep last slots at', gap.1 ≤ lo ∧ hi ≤ gap.2 := by
  induction slots generalizing at' with
  | nil =>
    rw [sweep, if_pos (by omega)]
    exact ⟨_, mem_singleton_self _, hat, hhi⟩
  | cons slot slots ih =>
    obtain ⟨hslot, hv⟩ := vacant_cons.1 hv
    by_cases hpast : slot.last < at'
    · rw [sweep, if_pos hpast]
      exact ih hat hv
    by_cases hbeyond : last < slot.start
    · rw [sweep, if_neg hpast, if_pos hbeyond, if_pos (by omega)]
      exact ⟨_, mem_singleton_self _, hat, hhi⟩
    rw [sweep_meets hpast hbeyond]
    rcases hslot with hslot | hslot
    · -- past the slot, which then does not end at the last address
      have hnext : checkedAdd slot.last 1 = some (slot.last + 1) :=
        checkedAdd_eq_some.2 ⟨rfl, by omega⟩
      obtain ⟨gap, hg, h1, h2⟩ := @ih (max at' (slot.last + 1)) (by omega) hv
      rw [hnext]
      exact ⟨gap, mem_append_right _ hg, h1, h2⟩
    · have hgap : (at', min (slot.start - 1) last) ∈ gapBefore last at' slot :=
        mem_gapBefore.2 ⟨by omega, rfl⟩
      exact ⟨_, mem_append_left _ hgap, hat, le_min (Nat.le_sub_one_of_lt hslot) hhi⟩

theorem sweep_ordered (h : Ordered slots) (at' : Nat) :
    (sweep last slots at').Pairwise fun g g' => g.2 < g'.1 := by
  induction slots generalizing at' with
  | nil =>
    unfold sweep
    split
    · exact pairwise_singleton _ _
    · exact List.Pairwise.nil
  | cons slot slots ih =>
    obtain ⟨hs, _, htail⟩ := ordered_cons.1 h
    by_cases hpast : slot.last < at'
    · rw [sweep, if_pos hpast]
      exact ih htail at'
    by_cases hbeyond : last < slot.start
    · rw [sweep, if_neg hpast, if_pos hbeyond]
      split
      · exact pairwise_singleton _ _
      · exact List.Pairwise.nil
    rw [sweep_meets hpast hbeyond]
    have hgap : (gapBefore last at' slot).Pairwise fun g g' => g.2 < g'.1 := by
      unfold gapBefore
      split
      · exact pairwise_singleton _ _
      · exact List.Pairwise.nil
    cases hnext : checkedAdd slot.last 1 with
    | none =>
      rw [elim_none, append_nil]
      exact hgap
    | some next =>
      obtain ⟨rfl, _⟩ := checkedAdd_eq_some.1 hnext
      refine pairwise_append.2 ⟨hgap, ih htail _, fun g hg g' hg' => ?_⟩
      obtain ⟨hlt, rfl⟩ := mem_gapBefore.1 hg
      have := (sweep_sound htail hg').1
      simp only [lo_slot, hi_slot] at hs
      omega

/-! ## The start in one span -/

theorem checkedNextMultipleOf_least {a m c : Nat} (h : checkedNextMultipleOf a m = some c) :
    IsLeast {b | m ∣ b ∧ a ≤ b} c := by
  unfold checkedNextMultipleOf at h
  split at h
  · simp at h
  next hm =>
  split at h
  · next hz =>
    cases h
    exact ⟨⟨Nat.dvd_of_mod_eq_zero hz, le_rfl⟩, fun b hb => hb.2⟩
  next hz =>
  obtain ⟨rfl, _⟩ := checkedAdd_eq_some.1 h
  have hlt := Nat.mod_lt a (Nat.pos_of_ne_zero hm)
  have hdiv := Nat.div_add_mod a m
  have hnext : a + (m - a % m) = m * (a / m + 1) := by
    rw [Nat.mul_add, Nat.mul_one]
    omega
  refine ⟨⟨hnext ▸ Nat.dvd_mul_right _ _, Nat.le_add_right _ _⟩, ?_⟩
  rintro b ⟨⟨k, rfl⟩, hb⟩
  rw [hnext]
  refine Nat.mul_le_mul_left m (Nat.succ_le_of_lt ?_)
  by_contra hk
  have := Nat.mul_le_mul_left m (Nat.le_of_not_lt hk)
  omega

theorem checkedNextMultipleOf_isSome {a m b : Nat} (hm : 0 < m) (hd : m ∣ b) (hle : a ≤ b)
    (hb : b < usizeSize) : (checkedNextMultipleOf a m).isSome := by
  unfold checkedNextMultipleOf
  rw [if_neg hm.ne']
  split
  · rfl
  next hz =>
  have hdiv := Nat.div_add_mod a m
  obtain ⟨k, rfl⟩ := hd
  have hk : a / m + 1 ≤ k := by
    by_contra hk
    have := Nat.mul_le_mul_left m (show k ≤ a / m by omega)
    omega
  have := Nat.mul_le_mul_left m hk
  rw [Nat.mul_add, Nat.mul_one] at this
  rw [checkedAdd, if_pos (by omega)]
  rfl

/-- The starts in a span that leave room for the size. -/
def Inside (size : Nat) (span : Nat × Nat) (start : Nat) : Prop :=
  span.1 ≤ start ∧ start + (size - 1) ≤ span.2

variable {span : Nat × Nat}

theorem lowestIn_least {size align : Nat} (h : lowestIn size align span = some at') :
    IsLeast {a | align ∣ a ∧ Inside size span a} at' := by
  unfold lowestIn at h
  split at h
  · simp at h
  next c hc =>
  split at h
  · simp at h
  next gap hgap =>
  split at h
  · next hroom =>
    cases h
    obtain ⟨hle, rfl⟩ := checkedSub_eq_some.1 hgap
    obtain ⟨⟨hd, hlo⟩, hleast⟩ := checkedNextMultipleOf_least hc
    exact ⟨⟨hd, hlo, by omega⟩, fun b hb => hleast ⟨hb.1, hb.2.1⟩⟩
  · simp at h

theorem lowestIn_isSome {size align : Nat} (hspan : span.2 < usizeSize) (ha : 0 < align)
    (hd : align ∣ start) (h : Inside size span start) : (lowestIn size align span).isSome := by
  have hend := h.2
  obtain ⟨c, hc⟩ := isSome_iff_exists.1
    (checkedNextMultipleOf_isSome ha hd h.1 (show start < usizeSize by omega))
  have hle : c ≤ start := (checkedNextMultipleOf_least hc).2 ⟨hd, h.1⟩
  unfold lowestIn
  simp only [hc, checkedSub, if_pos (show c ≤ span.2 by omega),
    if_pos (show size - 1 ≤ span.2 - c by omega),
    isSome_some]

theorem highestIn_greatest {size : Nat} (h : highestIn size span = some at') :
    IsGreatest {a | Inside size span a} at' := by
  unfold highestIn at h
  split at h
  · simp at h
  next c hc =>
  obtain ⟨hle, rfl⟩ := checkedSub_eq_some.1 hc
  split at h
  · next hlo =>
    cases h
    refine ⟨⟨hlo, by omega⟩, fun b hb => ?_⟩
    have := hb.2
    omega
  · simp at h

theorem highestIn_isSome {size : Nat} (h : Inside size span start) :
    (highestIn size span).isSome := by
  obtain ⟨h1, h2⟩ := h
  unfold highestIn
  simp only [checkedSub, if_pos (show size - 1 ≤ span.2 by omega),
    if_pos (show span.1 ≤ span.2 - (size - 1) by omega), isSome_some]

/-! ## The start that is chosen -/

theorem Vacant.mono {lo' hi' : Nat} (h : Vacant slots lo hi) (hlo : lo ≤ lo') (hhi : hi' ≤ hi) :
    Vacant slots lo' hi' := by
  intro s hs
  have := h s hs
  omega

section

variable {o : Occupancy} {w : Window} {size align start : Nat}

/-- A start inside a span of the sweep is a start in the window, and the other way round. -/
theorem fits_of_inside (h : Ordered o.slots) (hg : gap ∈ sweep w.last o.slots w.base)
    (hin : Inside size gap start) : o.Fits w size start := by
  obtain ⟨h1, _, h3, hv⟩ := sweep_sound h hg
  exact ⟨h1.trans hin.1, hin.2.trans h3, hv.mono hin.1 hin.2⟩

theorem inside_of_fits (hw : w.last < usizeSize) (hf : o.Fits w size start) :
    ∃ gap ∈ sweep w.last o.slots w.base, Inside size gap start :=
  sweep_complete hw hf.1 (Nat.le_add_right _ _) hf.2.1 hf.2.2

theorem lowest_least (h : Ordered o.slots) (hw : w.last < usizeSize) (ha : 0 < align)
    (hs : (sweep w.last o.slots w.base).findSome? (lowestIn size align) = some start) :
    IsLeast {a | align ∣ a ∧ o.Fits w size a} start := by
  obtain ⟨before, gap, after, heq, hgap, hnone⟩ := findSome?_eq_some_iff.1 hs
  have hmem : gap ∈ sweep w.last o.slots w.base := by simp [heq]
  obtain ⟨⟨hd, hin⟩, hleast⟩ := lowestIn_least hgap
  refine ⟨⟨hd, fits_of_inside h hmem hin⟩, fun b hb => ?_⟩
  obtain ⟨gap', hmem', hin'⟩ := inside_of_fits hw hb.2
  have hword := (sweep_sound h hmem').2.2.1.trans_lt hw
  have hord := @sweep_ordered _ w.last h w.base
  rw [heq] at hmem' hord
  rcases mem_append.1 hmem' with hpre | hpost
  · -- a span before the one that was taken would have been taken
    have := lowestIn_isSome hword ha hb.1 hin'
    rw [hnone gap' hpre] at this
    simp at this
  rcases mem_cons.1 hpost with rfl | hpost
  · exact hleast ⟨hb.1, hin'⟩
  have hlt := (pairwise_cons.1 (pairwise_append.1 hord).2.1).1 gap' hpost
  have := hin.2
  have := hin'.1
  omega

theorem highest_greatest (h : Ordered o.slots) (hw : w.last < usizeSize)
    (hs : (sweep w.last o.slots w.base).reverse.findSome? (highestIn size) = some start) :
    IsGreatest {a | o.Fits w size a} start := by
  obtain ⟨after, gap, before, heq, hgap, hnone⟩ := findSome?_eq_some_iff.1 hs
  have heq : sweep w.last o.slots w.base = before.reverse ++ gap :: after.reverse := by
    rw [← reverse_reverse (sweep w.last o.slots w.base), heq]
    simp
  have hmem : gap ∈ sweep w.last o.slots w.base := by simp [heq]
  obtain ⟨hin, hgreatest⟩ := highestIn_greatest hgap
  refine ⟨fits_of_inside h hmem hin, fun b hb => ?_⟩
  obtain ⟨gap', hmem', hin'⟩ := inside_of_fits hw hb
  have hord := @sweep_ordered _ w.last h w.base
  rw [heq] at hmem' hord
  rcases mem_append.1 hmem' with hpre | hpost
  · have hlt := (pairwise_append.1 hord).2.2 gap' hpre gap mem_cons_self
    have := hin.1
    have := hin'.2
    omega
  rcases mem_cons.1 hpost with rfl | hpost
  · exact hgreatest hin'
  -- a span after the one that was taken would have been taken
  have := highestIn_isSome hin'
  rw [hnone gap' (mem_reverse.1 hpost)] at this
  simp at this

end

variable {room : Bool} {p : Placement}

/-- The start that a placement takes from the free spans of its window. -/
def picked (p : Placement) (spans : List (Nat × Nat)) : Option Nat :=
  match p.at' with
  | .lowest => spans.findSome? (lowestIn p.size p.align)
  | _ => spans.reverse.findSome? (highestIn p.size)

variable {o : Occupancy}

theorem choose_eq (hp : ∀ start, p.at' ≠ .exact start) :
    o.choose room p = match o.window p.region with
      | .error e => .error e
      | .ok w =>
        if room then
          match picked p (sweep w.last o.slots w.base) with
          | some at' => .ok at'
          | none => .error .outOfMemory
        else .error .outOfMemory := by
  unfold choose picked
  cases hat : p.at' with
  | exact start => exact absurd hat (hp start)
  | _ =>
    cases o.window p.region with
    | error e => rfl
    | ok w => cases room <;> rfl

theorem choose_ok (hp : ∀ start, p.at' ≠ .exact start) (h : o.choose room p = .ok start) :
    ∃ w, o.window p.region = .ok w ∧ picked p (sweep w.last o.slots w.base) = some start := by
  rw [choose_eq hp] at h
  split at h
  · cases h
  next w hw =>
  split at h
  · split at h
    · next at' hs => exact ⟨w, hw, hs.trans (congrArg some (Except.ok.inj h))⟩
    · cases h
  · cases h

theorem mem_of_window {id : RegionId} {w : Window} (h : o.window id = .ok w) : w ∈ o.windows := by
  unfold window at h
  split at h
  · next w' hfind =>
    cases h
    exact mem_of_find?_eq_some hfind
  · simp at h

theorem window_not_full {id : RegionId} : o.window id ≠ .error .outOfMemory := by
  unfold window
  split <;> simp

/-- No aligned start is free where the choice finds none. -/
theorem choose_full (hp : ∀ start, p.at' ≠ .exact start)
    (hwords : ∀ w ∈ o.windows, w.last < usizeSize) (hord : Ordered o.slots)
    (h : o.choose room p = .error .outOfMemory) :
    room = false ∨ ∃ w, o.window p.region = .ok w ∧ ∀ a, p.align ∣ a → ¬ o.Fits w p.size a := by
  have hword : ∀ {w}, o.window p.region = .ok w → w.last < usizeSize := fun hw =>
    hwords _ (mem_of_window hw)
  rw [choose_eq hp] at h
  split at h
  · next e he => exact absurd (Except.error.inj h ▸ he) window_not_full
  next w hw =>
  split at h
  on_goal 2 => next hroom => exact .inl (Bool.eq_false_iff.2 hroom)
  split at h
  · cases h
  next hnone =>
  refine .inr ⟨w, hw, fun a hd hf => ?_⟩
  obtain ⟨gap, hmem, hin⟩ := inside_of_fits (hword hw) hf
  unfold picked at hnone
  split at hnone
  · have := lowestIn_isSome ((sweep_sound hord hmem).2.2.1.trans_lt (hword hw))
      (Nat.pos_of_isPowerOfTwo p.align_pow) hd hin
    rw [findSome?_eq_none_iff.1 hnone gap hmem] at this
    cases this
  · have := highestIn_isSome hin
    rw [findSome?_eq_none_iff.1 hnone gap (mem_reverse.2 hmem)] at this
    cases this

/-! ## Top theorem -/

theorem insert_full {ids ids' : Nat} {region : RegionId}
    (h : o.insert ids room region start last = (.error .outOfMemory, ids')) :
    room = false ∨ nextId ids = none := by
  unfold insert at h
  simp only at h
  split at h
  · simp at h
  split at h
  · next hroom => exact .inl (by simpa using hroom)
  split at h
  · next hid => exact .inr hid
  · simp at h

theorem choose_of_reserve {o' : Occupancy} {ids ids' id : Nat} {r1 r2 : Bool}
    (h : o.reserve ids r1 r2 p = (.ok (o', start, id), ids')) : o.choose r1 p = .ok start := by
  unfold reserve at h
  split at h
  · simp at h
  next st hst =>
  split at h
  · simp at h
  split at h
  · simp at h
  · simp only [Prod.mk.injEq, Except.ok.injEq] at h
    rw [hst, h.1.2.1]

/-- An interval none of whose addresses is taken meets no slot. -/
theorem vacant_of_atlas (hord : Ordered o.slots) (hle : lo ≤ hi)
    (h : ∀ a, lo ≤ a → a ≤ hi → o.atlas a = none) : Vacant o.slots lo hi := by
  intro s hs
  have hne := hord.nonempty s hs
  simp only [lo_slot, hi_slot] at hne
  by_contra hmeet
  have hfree := atlas_eq_none.1 (h (max lo s.start) (le_max_left _ _) (by omega)) s hs
  exact hfree ⟨le_max_right _ _, by simp only [hi_slot]; omega⟩

/-- The start is the one that the placement asks for. -/
structure Placed (o : Occupancy) (p : Placement) (start : Nat) : Prop where
  aligned : p.align ∣ start
  vacant : Vacant o.slots start (start + (p.size - 1))
  lowest : p.at' = .lowest → ∃ w, o.window p.region = .ok w ∧
    IsLeast {a | p.align ∣ a ∧ o.Fits w p.size a} start
  highest : p.at' = .highest → ∃ w, o.window p.region = .ok w ∧
    IsGreatest {a | p.align ∣ a ∧ o.Fits w p.size a} start

/-- The greatest free start of the window, which is the one `Highest` takes, is aligned. -/
def TopAligned (o : Occupancy) (p : Placement) : Prop :=
  p.at' = .highest → ∀ w start, o.window p.region = .ok w →
    IsGreatest {a | o.Fits w p.size a} start → p.align ∣ start

/-- The greatest start is aligned where everything it can end at is: it ends with the window or
right before a slot, since the next start is not free. -/
theorem topAligned_of_aligned (hsize : p.align ∣ p.size)
    (hlast : ∀ w, o.window p.region = .ok w → p.align ∣ w.last + 1)
    (hslots : ∀ s ∈ o.slots, p.align ∣ s.start) : TopAligned o p := by
  rintro - w start hw ⟨⟨hbase, hend, hv⟩, hgreatest⟩
  have hpos := p.size_pos
  suffices hstop : p.align ∣ p.size + start from (Nat.dvd_add_right hsize).1 hstop
  rcases hend.eq_or_lt with heq | hlt
  · rw [show p.size + start = w.last + 1 by omega]
    exact hlast w hw
  by_contra hnot
  refine absurd (hgreatest (a := start + 1) ⟨by omega, by omega, fun s hs => ?_⟩) (by omega)
  rcases hv s hs with h | h
  · exact .inl (by omega)
  have hne : p.size + start ≠ s.start := fun he => hnot (he ▸ hslots s hs)
  exact .inr (by omega)

/-- `reserve` on the slots that any run leaves, whatever windows there are: a span it takes is free,
and it is the one the placement asks for exactly if the placement is not `Highest` or the greatest
free start is aligned.  It runs out of memory only when no aligned span is free, when one of its
two lists cannot grow, or when the generations are used up. -/
theorem reserve_places (ops : List Op) (windows : List Window)
    (hwords : ∀ w ∈ windows, w.last < usizeSize) (ids : Nat) (spansRoom slotRoom : Bool)
    (p : Placement) (o : Occupancy) (ho : o = { (run ops).occ with windows }) :
    (∀ o' start id ids', o.reserve ids spansRoom slotRoom p = (.ok (o', start, id), ids') →
      Vacant o.slots start (start + (p.size - 1)) ∧
      (p.at' = .highest → ∃ w, o.window p.region = .ok w ∧
        IsGreatest {a | o.Fits w p.size a} start) ∧
      (Placed o p start ↔ TopAligned o p)) ∧
    (p.align ∣ p.size → (∀ w, o.window p.region = .ok w → p.align ∣ w.last + 1) →
      (∀ s ∈ o.slots, p.align ∣ s.start) → TopAligned o p) ∧
    (∀ ids', (∀ start, p.at' ≠ .exact start) →
      o.reserve ids spansRoom slotRoom p = (.error .outOfMemory, ids') →
      spansRoom = false ∨ slotRoom = false ∨ nextId ids = none ∨
      ∃ w, o.window p.region = .ok w ∧ ∀ a, p.align ∣ a → ¬ o.Fits w p.size a) := by
  have hord : Ordered o.slots := by
    rw [ho]
    exact (good_run ops).ordered
  have hwords : ∀ w ∈ o.windows, w.last < usizeSize := by
    rw [ho]
    exact hwords
  refine ⟨fun o' start id ids' h => ?_, topAligned_of_aligned, fun ids' hp h => ?_⟩
  · obtain ⟨last, rfl, hlast, _, _, _, hfree, _⟩ := reserve_spec hord h
    have hvacant := vacant_of_atlas hord (Nat.le_add_right _ _) hfree
    have hchoose := choose_of_reserve h
    have hword {w : Window} (hw : o.window p.region = .ok w) := hwords w (mem_of_window hw)
    cases hat : p.at' with
    | exact at' =>
      refine ⟨hvacant, nofun, iff_of_true ⟨?_, hvacant, by simp [hat], by simp [hat]⟩ ?_⟩
      · rw [choose, hat] at hchoose
        cases hchoose
        exact (p.exact_aligned _ hat).2
      · simp [TopAligned, hat]
    | lowest =>
      obtain ⟨w, hw, hs⟩ := choose_ok (by simp [hat]) hchoose
      rw [picked, hat] at hs
      have hleast := lowest_least hord (hword hw) (Nat.pos_of_isPowerOfTwo p.align_pow) hs
      refine ⟨hvacant, nofun, iff_of_true ⟨hleast.1.1, hvacant, fun _ => ⟨w, hw, hleast⟩, ?_⟩ ?_⟩
      · simp [hat]
      · simp [TopAligned, hat]
    | highest =>
      obtain ⟨w, hw, hs⟩ := choose_ok (by simp [hat]) hchoose
      rw [picked, hat] at hs
      have htop := highest_greatest hord (hword hw) hs
      refine ⟨hvacant, fun _ => ⟨w, hw, htop⟩, fun hplaced _ w' a hw' ha => ?_, fun htop' => ?_⟩
      · cases hw.symm.trans hw'
        exact ha.unique htop ▸ hplaced.aligned
      · have ha := htop' hat w start hw htop
        exact ⟨ha, hvacant, by simp [hat], fun _ => ⟨w, hw, ⟨ha, htop.1⟩, fun b hb => htop.2 hb.2⟩⟩
  · unfold reserve at h
    split at h
    · next e he =>
      obtain ⟨he', _⟩ := Prod.mk.inj h
      rw [Except.error.inj he'] at he
      rcases choose_full hp hwords hord he with hroom | hfull
      · exact .inl hroom
      · exact .inr (.inr (.inr hfull))
    split at h
    · simp at h
    split at h
    · next e n hins =>
      obtain ⟨he', _⟩ := Prod.mk.inj h
      rw [Except.error.inj he'] at hins
      rcases insert_full hins with hroom | hid
      · exact .inr (.inl hroom)
      · exact .inr (.inr (.inl hid))
    · simp at h

/-- A table with a page taken at the bottom of the window. -/
private def bottom : List Op := [.attach true .normal 0 (2 ^ 30 - 1), .reserve true true
  ⟨.normal, pageSize, pageSize, .lowest, pageSize_pos, by decide, pageSize_pow, by simp⟩]

private def mega : Placement :=
  ⟨.normal, 512 * pageSize, 512 * pageSize, .highest, by decide, by decide, ⟨21, rfl⟩, by simp⟩

/-- With a page taken at the bottom of the window, `Highest` places 2 MiB as it should. -/
theorem reserve_places_mega : ∃ o' start id ids',
    (run bottom).occ.reserve 2 true true mega = (.ok (o', start, id), ids') ∧
    (run bottom).occ.slots.map (·.start) = [0] ∧ Placed (run bottom).occ mega start := by
  have hok : ((run bottom).occ.reserve 2 true true mega).1.isOk = true := by decide +kernel
  have hslots : (run bottom).occ.slots.map (·.start) = [0] := by decide +kernel
  obtain ⟨hplaced, haligned, -⟩ := reserve_places bottom [⟨.normal, 0, 2 ^ 30 - 1⟩] (by decide) 2
    true true mega (run bottom).occ rfl
  rcases hres : (run bottom).occ.reserve 2 true true mega with ⟨e | ⟨o', start, id⟩, ids'⟩
  · rw [hres] at hok
    cases hok
  refine ⟨o', start, id, ids', rfl, hslots,
    (hplaced _ _ _ _ hres).2.2.2 (haligned dvd_rfl (fun w hw => ?_) fun s hs => ?_)⟩
  · cases hw
    decide
  · have hzero := mem_map_of_mem (f := (·.start)) hs
    rw [hslots, mem_singleton] at hzero
    exact hzero ▸ dvd_zero _

/-- A description that asks `Highest` for 2 MiB: the start is the last page of the window, though a
start at its last 2 MiB is free too.  And `Lowest` runs out of memory for the list of free spans
while the whole window is free. -/
theorem highest_ignores_align : ∃ o : Occupancy,
    o = (run [.attach true .normal 0 (2 ^ 30 - 1)]).occ ∧
    (∃ e p o' start, Env.Placement.decode 1 0 (512 * pageSize) = .ok e ∧
      o.nestPlacement (2 ^ 30) e pageSize = .ok p ∧
      o.reserve 1 true true p = (.ok (o', start, 1), 2) ∧ ¬ Placed o p start ∧
      o.Fits ⟨.normal, 0, 2 ^ 30 - 1⟩ p.size (511 * 512 * pageSize)) ∧
    ∃ e p, Env.Placement.decode 0 0 pageSize = .ok e ∧
      o.nestPlacement (2 ^ 30) e pageSize = .ok p ∧
      o.reserve 1 false true p = (.error .outOfMemory, 1) ∧
      o.Fits ⟨.normal, 0, 2 ^ 30 - 1⟩ p.size 0 := by
  refine ⟨_, rfl, ⟨_, _, _, _, rfl, rfl, rfl, fun h => ?_, ?_⟩, _, _, rfl, rfl, rfl, ?_⟩
  · exact absurd h.aligned (by decide)
  · exact ⟨by decide, by decide, fun s hs => nomatch hs⟩
  · exact ⟨by decide, by decide, fun s hs => nomatch hs⟩

end Occupancy

end Sqware.Nest
