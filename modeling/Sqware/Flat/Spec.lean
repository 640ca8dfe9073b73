import Sqware.Flat.Transaction

/-!
# What the operations on a source do to its pages

Read as a map from pages to slots (`Flat.slot`), each primitive of a transfer rewrites one page
of one source (`Edits`), and materialization fills fresh pages with fresh frames.
-/

namespace Sqware.Flats

open Table Option Function

namespace Flat

def slot (fl : Flat) (page : Nat) : Option Slot :=
  match fl.source with
  | .managed slots => lookup slots page
  | .borrowed _ _ => none

/-- The slot table is strictly increasing in the page number. -/
def Increasing (fl : Flat) : Prop :=
  match fl.source with
  | .managed slots => Sorted slots
  | .borrowed _ _ => True

/-- The source has slots of its own. -/
def Managed (fl : Flat) : Prop := ∃ slots, fl.source = .managed slots

end Flat

/-- `fl'` is `fl` with the slot of one page rewritten. -/
structure Edits (fl fl' : Flat) (page : Nat) (slot : Option Slot) : Prop where
  increasing : fl'.Increasing
  managed : fl'.Managed
  slot_eq : ∀ p, fl'.slot p = if p = page then slot else fl.slot p
  residencies : fl'.residencies = fl.residencies
  transferable : fl'.transferable = fl.transferable

variable {fl : Flat} {slots : List (Nat × Slot)} {page id frame : Nat} {custody : Nat → Custody}

theorem slot_of_managed (h : fl.source = .managed slots) (p : Nat) :
    fl.slot p = lookup slots p := by
  unfold Flat.slot
  rw [h]

theorem increasing_of_managed (h : fl.source = .managed slots) :
    fl.Increasing ↔ Sorted slots := by
  unfold Flat.Increasing
  rw [h]

theorem managed_of_slot {s : Slot} (h : fl.slot page = some s) : fl.Managed := by
  unfold Flat.slot at h
  cases hs : fl.source with
  | managed slots => exact ⟨slots, hs⟩
  | borrowed start size =>
    rw [hs] at h
    simp at h

theorem seat_eq (hs : Sorted slots) (p : Nat) : seat slots p = lookup slots p := by
  unfold seat
  cases hl : lookup slots p with
  | none =>
    have : (spot slots p).2 ≠ true := by
      rw [ne_eq, spot_true hs, hl]
      simp
    rw [if_neg this]
  | some v => rw [if_pos ((spot_true hs).2 ⟨v, hl⟩), getElem_spot hs hl, map_some]

theorem edits_of_lookup {l : List (Nat × Slot)} {v : Option Slot} (hm : fl.source = .managed slots)
    (hs : Sorted l) (hl : ∀ p, lookup l p = if p = page then v else lookup slots p) :
    Edits fl { fl with source := .managed l } page v where
  increasing := hs
  managed := ⟨l, rfl⟩
  slot_eq := fun p => by rw [slot_of_managed hm]; exact hl p
  residencies := rfl
  transferable := rfl

theorem write_edits (hm : fl.source = .managed slots) (hs : Sorted slots) {old : Slot}
    (h : lookup slots page = some old) (new : Slot) :
    Edits fl (fl.write slots page new) page (some new) :=
  have hw := set_spot hs ((spot_true hs).2 ⟨old, h⟩) new
  edits_of_lookup hm hw.1 hw.2

/-! ## Checks -/

theorem sourceReady_ok (hi : fl.Increasing) (h : sourceReady fl page = .ok ()) :
    fl.transferable = true ∧ fl.isPinned page 1 = false ∧
      ∃ frame, fl.slot page = some (.resident frame) := by
  unfold sourceReady plainOrigin at h
  cases ht : fl.transferable <;> simp only [ht, bind, Except.bind, if_true, Bool.false_eq_true,
    if_false, reduceCtorEq] at h
  split at h
  · simp at h
  next hp =>
  split at h
  · simp at h
  next slots hm =>
  rw [seat_eq ((increasing_of_managed hm).1 hi)] at h
  split at h <;> simp only [reduceCtorEq] at h
  next f hf =>
    refine ⟨rfl, by simpa using hp, f, ?_⟩
    rw [slot_of_managed hm, hf]

variable {wasMissing : Bool}

theorem targetReady_ok (hi : fl.Increasing) (h : targetReady fl page = .ok wasMissing) :
    fl.transferable = true ∧ fl.isPinned page 1 = false ∧ fl.Managed ∧
      fl.slot page = if wasMissing then some .missing else none := by
  unfold targetReady plainOrigin at h
  cases ht : fl.transferable <;> simp only [ht, bind, Except.bind, if_true, Bool.false_eq_true,
    if_false, reduceCtorEq] at h
  split at h
  · simp at h
  next hp =>
  split at h
  · simp at h
  next slots hm =>
  rw [seat_eq ((increasing_of_managed hm).1 hi)] at h
  rw [slot_of_managed hm]
  split at h <;> simp only [Except.ok.injEq, reduceCtorEq] at h <;> subst h
  · next hf => exact ⟨rfl, by simpa using hp, ⟨slots, hm⟩, hf⟩
  · next hf => exact ⟨rfl, by simpa using hp, ⟨slots, hm⟩, hf⟩

/-! ## Slots -/

theorem claimSource_spec (custody : Nat → Custody) (id : Nat) (hi : fl.Increasing)
    (h : fl.slot page = some (.resident frame)) :
    (custody frame = .sole ∧ ∃ fl', claimSource custody fl page id =
        some (.ok (), fl', update custody frame .inTransit) ∧
        Edits fl fl' page (some (.moving frame id))) ∨
    (custody frame ≠ .sole ∧ ∃ e, claimSource custody fl page id =
      some (.error e, fl, custody)) := by
  obtain ⟨slots, hm⟩ := managed_of_slot h
  have hs := (increasing_of_managed hm).1 hi
  rw [slot_of_managed hm] at h
  unfold claimSource
  rw [hm]
  simp only [seat_eq hs, h]
  cases hc : custody frame with
  | sole => exact .inl ⟨rfl, _, rfl, write_edits hm hs h _⟩
  | aliased => exact .inr ⟨by simp, _, rfl⟩
  | inTransit => exact .inr ⟨by simp, _, rfl⟩

theorem claimTarget_spec (id : Nat) (hi : fl.Increasing) (hm : fl.Managed)
    (h : fl.slot page = if wasMissing then some .missing else none) :
    ∃ fl', claimTarget fl page id wasMissing = some fl' ∧
      Edits fl fl' page (some (.reserved id wasMissing)) := by
  obtain ⟨slots, hm⟩ := hm
  have hs := (increasing_of_managed hm).1 hi
  rw [slot_of_managed hm] at h
  unfold claimTarget
  rw [hm]
  simp only [seat_eq hs, h]
  cases wasMissing with
  | true => exact ⟨_, rfl, write_edits hm hs h _⟩
  | false =>
    have hspot : (spot slots page).2 = false := by
      rw [← Bool.not_eq_true, spot_true hs, h]
      simp
    have hw := insert_spot hs hspot (Slot.reserved id false)
    exact ⟨_, rfl, edits_of_lookup hm hw.1 hw.2⟩

theorem carried_spec (hi : fl.Increasing) (h : fl.slot page = some (.moving frame id)) :
    carried fl page id = some frame := by
  obtain ⟨slots, hm⟩ := managed_of_slot h
  rw [slot_of_managed hm] at h
  unfold carried
  rw [hm]
  simp only [seat_eq ((increasing_of_managed hm).1 hi), h, if_true]

theorem leaveSource_spec (hi : fl.Increasing) {old : Slot} (h : fl.slot page = some old)
    (new : Slot) : ∃ fl', leaveSource fl page new = some fl' ∧ Edits fl fl' page (some new) := by
  obtain ⟨slots, hm⟩ := managed_of_slot h
  rw [slot_of_managed hm] at h
  unfold leaveSource
  rw [hm]
  exact ⟨_, rfl, write_edits hm ((increasing_of_managed hm).1 hi) h new⟩

theorem settleTarget_spec (hi : fl.Increasing)
    (h : fl.slot page = some (.reserved id wasMissing)) (hc : custody frame = .inTransit) :
    ∃ fl', settleTarget custody fl page id frame =
        some (fl', update custody frame .sole) ∧
      Edits fl fl' page (some (.resident frame)) := by
  obtain ⟨slots, hm⟩ := managed_of_slot h
  have hs := (increasing_of_managed hm).1 hi
  rw [slot_of_managed hm] at h
  unfold settleTarget
  rw [hm]
  simp only [seat_eq hs, h, if_true, hc, Custody.leave, map_some]
  exact ⟨_, rfl, write_edits hm hs h _⟩

theorem rollbackTarget_spec (hi : fl.Increasing)
    (h : fl.slot page = some (.reserved id wasMissing)) :
    ∃ fl', rollbackTarget fl page id = some fl' ∧
      Edits fl fl' page (if wasMissing then some .missing else none) := by
  obtain ⟨slots, hm⟩ := managed_of_slot h
  have hs := (increasing_of_managed hm).1 hi
  rw [slot_of_managed hm] at h
  unfold rollbackTarget
  rw [hm]
  simp only [seat_eq hs, h, if_true]
  cases wasMissing with
  | true => exact ⟨_, rfl, write_edits hm hs h _⟩
  | false =>
    have hw := erase_spot hs ((spot_true hs).2 ⟨_, h⟩)
    exact ⟨_, rfl, edits_of_lookup hm hw.1 hw.2⟩

/-! ## Residencies and materialization -/

theorem not_busy_spec (hi : fl.Increasing) {index count : Nat} (h : fl.busy index count = false)
    {p : Nat} (h1 : index ≤ p) (h2 : p < index + count) {s : Slot} (hs : fl.slot p = some s) :
    s.busy = false := by
  obtain ⟨slots, hm⟩ := managed_of_slot hs
  rw [slot_of_managed hm] at hs
  unfold Flat.busy at h
  rw [hm] at h
  simp only [List.any_eq_false] at h
  simpa using h _ (mem_slice ((increasing_of_managed hm).1 hi) (mem_of_lookup hs) h1 h2)

/-- A table filled at fresh pages with the frames from `next` on, one after the other. -/
inductive Fills : List (Nat × Slot) → Nat → List (Nat × Slot) → Nat → Prop
  | refl (slots : List (Nat × Slot)) (next : Nat) : Fills slots next slots next
  | fill {slots slots₁ slots₂ : List (Nat × Slot)} {next next₂ : Nat} (page : Nat)
      (fresh : lookup slots page = none) (sorted : Sorted slots₁)
      (eq : ∀ p, lookup slots₁ p = if p = page then some (.resident next) else lookup slots p)
      (rest : Fills slots₁ (next + 1) slots₂ next₂) : Fills slots next slots₂ next₂

theorem materializeFrom_fills {room : Nat → Bool} {left at' next : Nat} (hs : Sorted slots)
    (hat : at' = point slots page) {result : Except FlatError Unit × List (Nat × Slot) × Nat}
    (h : Flat.materializeFrom room left page at' slots next = result) :
    Fills slots next result.2.1 result.2.2 := by
  induction left generalizing page at' slots next with
  | zero =>
    subst h
    exact .refl _ _
  | succ left ih =>
    obtain ⟨l1, l2, h1, h2, hp, ⟨hf, hl, he⟩ | ⟨v, ht, hl, he⟩⟩ := exists_cut hs page
    · have hnone : slots[at']?.filter (·.1 = page) = none := by
        rw [hat]
        cases hg : slots[point slots page]? with
        | none => rfl
        | some x =>
          have : ¬ x.1 = page := by simpa [spot, hg] using hf
          simp [this]
      rw [Flat.materializeFrom, hnone] at h
      simp only [] at h
      split at h
      · have hins := insert_spot hs hf (Slot.resident next)
        have heq : slots.insertIdx at' (page, .resident next) =
            l1 ++ (page, .resident next) :: l2 := by
          rw [hat, hp, he]
          exact Lists.insertIdx_append _ _ _
        refine .fill page hl ?_ ?_ (ih ?_ ?_ h)
        · rw [hat]
          exact hins.1
        · rw [hat]
          exact hins.2
        · rw [hat]
          exact hins.1
        · rw [heq, point_succ h1 h2, hat, hp]
      · subst h
        exact .refl _ _
    · have hsome : slots[at']?.filter (·.1 = page) = some (page, v) := by
        rw [hat, show point slots page = (spot slots page).1 from rfl, getElem_spot hs hl]
        simp
      rw [Flat.materializeFrom, hsome] at h
      cases v with
      | resident f =>
        refine ih hs ?_ h
        rw [hat, hp]
        conv => rhs; arg 1; rw [he]
        rw [point_succ h1 h2]
      | _ =>
        subst h
        exact .refl _ _

theorem framesOk_sorted {pageCount : Nat} {previous : Option Nat} {frames : List (Nat × Nat)}
    (h : framesOk pageCount previous frames = true) :
    (∀ q, previous = some q → ∀ x ∈ frames, q < x.1) ∧ Sorted frames := by
  induction frames generalizing previous with
  | nil => exact ⟨by simp, List.Pairwise.nil⟩
  | cons x frames ih =>
    obtain ⟨page, frame⟩ := x
    simp only [framesOk, Bool.and_eq_true, Bool.not_eq_true', decide_eq_false_iff_not, not_or,
      not_le] at h
    obtain ⟨⟨_, hprev⟩, hrest⟩ := h
    obtain ⟨hup, hsort⟩ := ih hrest
    refine ⟨fun q hq y hy => ?_, List.pairwise_cons.2 ⟨hup page rfl, hsort⟩⟩
    have hlt : q < page := by
      rw [hq] at hprev
      simpa using hprev
    rcases List.mem_cons.1 hy with rfl | hy
    · exact hlt
    · exact hlt.trans (hup page rfl y hy)

theorem lookup_map {β γ : Type} (l : List (Nat × β)) (g : β → γ) (k : Nat) :
    lookup (l.map fun x => (x.1, g x.2)) k = (lookup l k).map g := by
  induction l with
  | nil => rfl
  | cons x l ih =>
    rw [List.map_cons, lookup_cons, lookup_cons, ih]
    split <;> rfl

end Sqware.Flats
