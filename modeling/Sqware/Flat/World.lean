import Sqware.Flat.Spec

/-!
# Transfers over the whole world

Read as a map from seats to slots (`World.slot`), a claim, a commit and a rollback each rewrite
two seats (`Rewrites`) and the custody of one frame.
-/

namespace Sqware.Flats

open Table List Option Function

/-- The frame that a slot holds. -/
def Slot.frame : Slot → Option Nat
  | .resident frame | .moving frame _ => some frame
  | .missing | .reserved _ _ => none

namespace World

def slot (w : World) (a : Seat) : Option Slot := (w.flats[a.flat]?).bind fun fl => fl.slot a.page

def Increasing (w : World) : Prop := ∀ fl ∈ w.flats, fl.Increasing

/-- The residencies and the eligibility of a source. -/
def policy (w : World) (s : Nat) : Option (List ResidencyEntry × Bool) :=
  (w.flats[s]?).map fun fl => (fl.residencies, fl.transferable)

/-- A residency covers the seat. -/
def Pinned (w : World) (a : Seat) : Prop :=
  ∃ residencies transferable, w.policy a.flat = some (residencies, transferable) ∧
    ∃ entry ∈ residencies, entry.index ≤ a.page ∧ a.page < entry.index + entry.count

end World

/-- `w'` is `w` with two seats rewritten. -/
structure Rewrites (w w' : World) (a : Seat) (v : Option Slot) (b : Seat) (u : Option Slot) :
    Prop where
  slot_eq : ∀ c, w'.slot c = if c = b then u else if c = a then v else w.slot c
  increasing : w'.Increasing
  policy_eq : ∀ s, w'.policy s = w.policy s

namespace Rewrites

variable {w w' : World} {a b c : Seat} {v u : Option Slot} (h : Rewrites w w' a v b u)
include h

theorem at_right : w'.slot b = u := by rw [h.slot_eq, if_pos rfl]

theorem at_left (hne : a ≠ b) : w'.slot a = v := by rw [h.slot_eq, if_neg hne, if_pos rfl]

theorem other (ha : c ≠ a) (hb : c ≠ b) : w'.slot c = w.slot c := by
  rw [h.slot_eq, if_neg hb, if_neg ha]

theorem pinned : w'.Pinned c ↔ w.Pinned c := by
  unfold World.Pinned
  rw [h.policy_eq]

end Rewrites

variable {w : World} {a b : Seat}

theorem Rewrites.of_flats {w w' w1 w1' : World} {a b : Seat} {v u : Option Slot}
    (h : Rewrites w w' a v b u) (h1 : w1.flats = w.flats) (h2 : w1'.flats = w'.flats) :
    Rewrites w1 w1' a v b u where
  slot_eq := by
    unfold World.slot
    rw [h1, h2]
    exact h.slot_eq
  increasing := by
    unfold World.Increasing
    rw [h2]
    exact h.increasing
  policy_eq := by
    unfold World.policy
    rw [h1, h2]
    exact h.policy_eq

/-- Two single-page edits in one critical section. -/
theorem rewrites_put (hw : w.Increasing) {fl fl' gl gl' : Flat} {v u : Option Slot}
    (ha : w.flats[a.flat]? = some fl) (h1 : Edits fl fl' a.page v)
    (hb : w.targetAfter a.flat b.flat fl' = some gl) (h2 : Edits gl gl' b.page u) :
    Rewrites w (w.put a.flat b.flat fl' gl') a v b u := by
  obtain ⟨ha_lt, _⟩ := List.getElem?_eq_some_iff.1 ha
  have hb_lt : b.flat < w.flats.length := by
    unfold World.targetAfter at hb
    split at hb
    · next he => exact he ▸ ha_lt
    · exact (List.getElem?_eq_some_iff.1 hb).1
  -- what each source of the new world is
  have hget : ∀ s, (w.put a.flat b.flat fl' gl').flats[s]? =
      if s = b.flat then some gl' else if s = a.flat then some fl' else w.flats[s]? := by
    intro s
    unfold World.put
    by_cases hsb : s = b.flat
    · rw [if_pos hsb, hsb, getElem?_set_self (by simpa using hb_lt)]
    rw [if_neg hsb, getElem?_set_ne (Ne.symm hsb)]
    by_cases hsa : s = a.flat
    · rw [if_pos hsa, hsa, getElem?_set_self ha_lt]
    · rw [if_neg hsa, getElem?_set_ne (Ne.symm hsa)]
  have hto : b.flat = a.flat ∧ gl = fl' ∨ b.flat ≠ a.flat ∧ w.flats[b.flat]? = some gl := by
    unfold World.targetAfter at hb
    split at hb
    · next he => exact .inl ⟨he.symm, (some.inj hb).symm⟩
    · next he => exact .inr ⟨Ne.symm he, hb⟩
  refine ⟨fun c => ?_, fun fl0 hm => ?_, fun s => ?_⟩
  · obtain ⟨cf, cp⟩ := c
    unfold World.slot
    rw [hget]
    obtain ⟨af, ap⟩ := a
    obtain ⟨bf, bp⟩ := b
    simp only [Seat.mk.injEq] at *
    by_cases hcb : cf = bf
    · subst hcb
      simp only [if_true, true_and, bind_some, h2.slot_eq]
      by_cases hp : cp = bp
      · rw [if_pos hp, if_pos hp]
      rcases hto with ⟨he, rfl⟩ | ⟨hne, hto⟩
      · subst he
        simp only [true_and, ha, bind_some, h1.slot_eq]
      · simp only [hne, false_and, if_false, hto, bind_some]
    · simp only [hcb, false_and, if_false]
      by_cases hca : cf = af
      · subst hca
        simp only [if_true, true_and, ha, bind_some, h1.slot_eq]
      · simp only [hca, false_and, if_false]
  · obtain ⟨s, hs⟩ := mem_iff_getElem?.1 hm
    rw [hget] at hs
    split at hs
    · exact some.inj hs ▸ h2.increasing
    · split at hs
      · exact some.inj hs ▸ h1.increasing
      · exact hw _ (mem_of_getElem? hs)
  unfold World.policy
  rw [hget]
  split
  · next he =>
    subst he
    simp only [map_some, h2.residencies, h2.transferable]
    rcases hto with ⟨he, rfl⟩ | ⟨_, hto⟩
    · rw [he, ha, map_some, h1.residencies, h1.transferable]
    · rw [hto, map_some]
  · split
    · next he => rw [he, ha, map_some, map_some, h1.residencies, h1.transferable]
    · rfl

theorem slot_of_flat {fl : Flat} (h : w.flats[a.flat]? = some fl) : w.slot a = fl.slot a.page := by
  rw [World.slot, h, bind_some]

theorem exists_flat {s : Slot} (h : w.slot a = some s) :
    ∃ fl, w.flats[a.flat]? = some fl ∧ fl.slot a.page = some s := by
  unfold World.slot at h
  cases hf : w.flats[a.flat]? with
  | none =>
    rw [hf] at h
    simp at h
  | some fl =>
    rw [hf] at h
    exact ⟨fl, rfl, h⟩

theorem not_pinned_of_flat {fl : Flat} (h : w.flats[a.flat]? = some fl)
    (hp : fl.isPinned a.page 1 = false) : ¬ w.Pinned a := by
  rintro ⟨rs, t, hpol, entry, hm, h1, h2⟩
  rw [World.policy, h, map_some, some.injEq, Prod.mk.injEq] at hpol
  obtain ⟨rfl, _⟩ := hpol
  rw [Flat.isPinned, List.any_eq_false] at hp
  exact hp entry hm (decide_eq_true ⟨by omega, h2⟩)

/-- Under one lock or under two, the target is read after the source was written. -/
theorem getElem?_set_targetAfter {fl fl' : Flat} (h : w.flats[a.flat]? = some fl) :
    (w.flats.set a.flat fl')[b.flat]? = w.targetAfter a.flat b.flat fl' := by
  unfold World.targetAfter
  split
  · next he => rw [← he, getElem?_set_self (List.getElem?_eq_some_iff.1 h).1]
  · next he => rw [getElem?_set_ne he]

/-- What a claim that succeeds found and did. -/
structure Claimed (w w' : World) (a b : Seat) (id : Nat) : Prop where
  ne : a ≠ b
  eligible : ∀ c, c = a ∨ c = b →
    ¬ w.Pinned c ∧ ∃ residencies, w.policy c.flat = some (residencies, true)
  transactions : w'.transactions = ⟨a, b, id⟩ :: w.transactions
  nextFrame : w'.nextFrame = w.nextFrame
  rewrites : ∃ frame wasMissing, w.slot a = some (.resident frame) ∧ w.custody frame = .sole ∧
    w.slot b = (if wasMissing then some .missing else none) ∧
    w'.custody = update w.custody frame .inTransit ∧
    Rewrites w w' a (some (.moving frame id)) b (some (.reserved id wasMissing))

/-- The section leaves the world it found, wherever it fails, or takes both seats. -/
theorem claimSlots_cases (hw : w.Increasing) {id : Nat} {room : Bool}
    {prepare r : Except TransferError Unit} {w' : World} (hne : a ≠ b)
    (h : w.claimSlots a b id room prepare = some (r, w')) :
    (∃ e, r = .error e ∧ w' = w) ∨
    (r = .ok () ∧ w'.nextTransaction = w.nextTransaction ∧ Claimed w w' a b id) := by
  unfold World.claimSlots at h
  split at h
  on_goal 2 => simp at h
  next fl gl ha hb =>
  have hfl : fl.Increasing := hw fl (mem_of_getElem? ha)
  have hgl : gl.Increasing := hw gl (mem_of_getElem? hb)
  split at h
  · cases h
    exact .inl ⟨_, rfl, rfl⟩
  next wasMissing hready =>
  obtain ⟨hs, ht⟩ : sourceReady fl a.page = .ok () ∧ targetReady gl b.page = .ok wasMissing := by
    cases hs : sourceReady fl a.page <;> cases ht : targetReady gl b.page <;>
      cases hr : reserve gl room b.page <;> cases prepare <;>
      simp [hs, ht, hr, bind, Except.bind, pure, Except.pure] at hready ⊢
    exact hready
  obtain ⟨hst, hsp, frame, hslot⟩ := sourceReady_ok hfl hs
  obtain ⟨htt, htp, hman, htslot⟩ := targetReady_ok hgl ht
  rcases claimSource_spec w.custody id hfl hslot with ⟨hc, fl', hcs, hed⟩ | ⟨_, e, hcs⟩
  on_goal 2 =>
    -- the frame is not to be had, and what is written back is what was there
    rw [hcs] at h
    cases h
    obtain ⟨hlt, rfl⟩ := List.getElem?_eq_some_iff.1 ha
    exact .inl ⟨e, rfl, by rw [set_getElem_self hlt]⟩
  rw [hcs, bind_some] at h
  obtain ⟨gl0, hgl0, h⟩ := bind_eq_some_iff.1 h
  rw [getElem?_set_targetAfter ha] at hgl0
  obtain ⟨gl', hct, h⟩ := map_eq_some_iff.1 h
  -- the target as the source's claim leaves it
  have hgl0' : gl0.Increasing ∧ gl0.Managed ∧
      gl0.slot b.page = if wasMissing then some .missing else none := by
    unfold World.targetAfter at hgl0
    split at hgl0
    · next he =>
      cases hgl0
      rw [← he, ha] at hb
      cases hb
      refine ⟨hed.increasing, hed.managed, ?_⟩
      rw [hed.slot_eq, if_neg, htslot]
      intro hp
      exact hne (by cases a; cases b; simp_all)
    · cases hb.symm.trans hgl0
      exact ⟨hgl, hman, htslot⟩
  obtain ⟨gl'', hct', hed'⟩ := claimTarget_spec id hgl0'.1 hgl0'.2.1 hgl0'.2.2
  cases hct'.symm.trans hct
  cases h
  refine .inr ⟨rfl, rfl, hne, fun c hcab => ?_, rfl, rfl, frame, wasMissing, ?_, hc, ?_, rfl, ?_⟩
  · rcases hcab with rfl | rfl
    · exact ⟨not_pinned_of_flat ha hsp, fl.residencies, by rw [World.policy, ha, map_some, hst]⟩
    · exact ⟨not_pinned_of_flat hb htp, gl.residencies, by rw [World.policy, hb, map_some, htt]⟩
  · rw [slot_of_flat ha, hslot]
  · rw [slot_of_flat hb, htslot]
  · exact (rewrites_put hw ha hed hgl0 hed').of_flats rfl rfl

/-- `claim` takes both seats under a fresh number, or only spends the number. -/
theorem claim_cases (hw : w.Increasing) {source target : FlatRange} {sp tp : Nat} {room : Bool}
    {prepare : Except TransferError Unit} {r : Except TransferError Unit} {w' : World}
    (h : w.claim source sp target tp room prepare = some (r, w')) :
    (∃ e n, r = .error e ∧ w.nextTransaction ≤ n ∧ w' = { w with nextTransaction := n }) ∨
    (r = .ok () ∧ w'.nextTransaction = w.nextTransaction + 1 ∧
      Claimed w w' ⟨source.flat, sp⟩ ⟨target.flat, tp⟩ w.nextTransaction) := by
  unfold World.claim at h
  split at h
  · simp at h
  split at h
  · simp only [some.injEq, Prod.mk.injEq] at h
    exact .inl ⟨_, _, h.1.symm, le_rfl, h.2.symm⟩
  next hne =>
  split at h
  · simp only [some.injEq, Prod.mk.injEq] at h
    exact .inl ⟨_, _, h.1.symm, le_rfl, h.2.symm⟩
  next id n hid =>
  obtain ⟨rfl, rfl, _, _⟩ := nextId_eq_some.1 hid
  rcases claimSlots_cases (w := { w with nextTransaction := w.nextTransaction + 1 }) hw
    (fun he => hne (Seat.mk.inj he)) h with ⟨e, hr, hw'⟩ | ⟨hr, hn, hc⟩
  · exact .inl ⟨e, _, hr, Nat.le_succ _, hw'⟩
  · obtain ⟨f, m, h1, h2, h3, h4, h5⟩ := hc.rewrites
    exact .inr ⟨hr, hn, hc.ne, hc.eligible, hc.transactions, hc.nextFrame, f, m, h1, h2, h3, h4,
      h5.of_flats rfl rfl⟩

/-- A transaction under way: its two seats and the frame between them. -/
structure Underway (w : World) (t : Transaction) (frame : Nat) (wasMissing : Bool) : Prop where
  source : w.slot t.source = some (.moving frame t.id)
  target : w.slot t.target = some (.reserved t.id wasMissing)
  custody : w.custody frame = .inTransit

theorem Underway.ne {t : Transaction} {frame : Nat} {wasMissing : Bool}
    (h : Underway w t frame wasMissing) : t.source ≠ t.target := by
  intro he
  have := h.source
  rw [he, h.target] at this
  simp at this

section
variable {t : Transaction} {frame : Nat} {wasMissing : Bool}

/-- The target of a transaction under way, as the operation on the source leaves it. -/
theorem Underway.targetAfter (hw : w.Increasing) (h : Underway w t frame wasMissing)
    {fl fl' : Flat} {v : Option Slot} (ha : w.flats[t.source.flat]? = some fl)
    (hed : Edits fl fl' t.source.page v) :
    ∃ gl, w.targetAfter t.source.flat t.target.flat fl' = some gl ∧ gl.Increasing ∧
      gl.slot t.target.page = some (.reserved t.id wasMissing) := by
  obtain ⟨gl, hb, hslot⟩ := exists_flat h.target
  unfold World.targetAfter
  split
  · next he =>
    rw [← he, ha] at hb
    cases hb
    refine ⟨fl', rfl, hed.increasing, ?_⟩
    rw [hed.slot_eq, if_neg, hslot]
    intro hp
    refine h.ne ?_
    cases hs : t.source
    cases ht : t.target
    simp_all
  · exact ⟨gl, hb, hw gl (mem_of_getElem? hb), hslot⟩

theorem carrier_spec (hw : w.Increasing) (h : Underway w t frame wasMissing) :
    w.carrier t = some frame := by
  obtain ⟨fl, ha, hslot⟩ := exists_flat h.source
  rw [World.carrier, ha, bind_some, carried_spec (hw fl (mem_of_getElem? ha)) hslot]

/-- The source becomes a tombstone and the target gets the frame. -/
theorem commit_spec (hw : w.Increasing) (h : Underway w t frame wasMissing) :
    ∃ w', w.commit t = some w' ∧ w'.custody = update w.custody frame .sole ∧
      w'.transactions = w.transactions.erase t ∧ w'.nextFrame = w.nextFrame ∧
      w'.nextTransaction = w.nextTransaction ∧
      Rewrites w w' t.source (some .missing) t.target (some (.resident frame)) := by
  obtain ⟨fl, ha, hslot⟩ := exists_flat h.source
  have hi := hw fl (mem_of_getElem? ha)
  obtain ⟨fl', hs, hed⟩ := leaveSource_spec hi hslot .missing
  obtain ⟨gl, hb, hgl, hgs⟩ := h.targetAfter hw ha hed
  obtain ⟨gl', ht, hed'⟩ := settleTarget_spec hgl hgs h.custody
  refine ⟨{ w.put t.source.flat t.target.flat fl' gl' with
    custody := update w.custody frame .sole, transactions := w.transactions.erase t },
    ?_, rfl, rfl, rfl, rfl, (rewrites_put hw ha hed hb hed').of_flats rfl rfl⟩
  rw [World.commit, ha, bind_some, settleSource, carried_spec hi hslot]
  simp only [bind_some, hs, map_some, hb, ht]

/-- Both seats go back to what they were. -/
theorem rollback_spec (hw : w.Increasing) (h : Underway w t frame wasMissing) :
    ∃ w', w.rollback t = some w' ∧ w'.custody = update w.custody frame .sole ∧
      w'.transactions = w.transactions.erase t ∧ w'.nextFrame = w.nextFrame ∧
      w'.nextTransaction = w.nextTransaction ∧
      Rewrites w w' t.source (some (.resident frame)) t.target
        (if wasMissing then some .missing else none) := by
  obtain ⟨fl, ha, hslot⟩ := exists_flat h.source
  have hi := hw fl (mem_of_getElem? ha)
  obtain ⟨fl', hs, hed⟩ := leaveSource_spec hi hslot (.resident frame)
  obtain ⟨gl, hb, hgl, hgs⟩ := h.targetAfter hw ha hed
  obtain ⟨gl', ht, hed'⟩ := rollbackTarget_spec hgl hgs
  refine ⟨{ w.put t.source.flat t.target.flat fl' gl' with
    custody := update w.custody frame .sole, transactions := w.transactions.erase t },
    ?_, rfl, rfl, rfl, rfl, (rewrites_put hw ha hed hb hed').of_flats rfl rfl⟩
  rw [World.rollback, ha, bind_some, rollbackSource, carried_spec hi hslot, bind_some, h.custody]
  simp only [Custody.leave, bind_some, hs, map_some, hb, ht]

end

end Sqware.Flats
