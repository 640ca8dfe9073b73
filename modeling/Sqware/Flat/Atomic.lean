import Sqware.Flat.Conserve

/-!
# Transfers are atomic

Between the claim of a transfer and its end every other caller may take any step.
-/

namespace Sqware.Flats

open Table Function

variable {v : Slot}

theorem Fills.lookup_eq {slots slots' : List (Nat × Slot)} {next next' : Nat}
    (h : Fills slots next slots' next') {page : Nat} (hv : lookup slots page = some v) :
    lookup slots' page = some v := by
  induction h with
  | refl => exact hv
  | fill _ fresh _ eq _ ih =>
    refine ih ?_
    rw [eq, if_neg, hv]
    rintro rfl
    rw [fresh] at hv
    simp at hv

theorem materializeRange_slot {fl fl' : Flat} (hfl : fl.Increasing) {room : Nat → Bool}
    {frame index count next : Nat} {r : Except FlatError Unit}
    (h : fl.materializeRange room frame index count = (r, fl', next)) {page : Nat}
    (hv : fl.slot page = some v) : fl'.slot page = some v := by
  unfold Flat.materializeRange at h
  split at h
  · simp only [Prod.mk.injEq] at h
    exact h.2.1 ▸ hv
  split at h
  · simp only [Prod.mk.injEq] at h
    exact h.2.1 ▸ hv
  split at h
  · simp only [Prod.mk.injEq] at h
    exact h.2.1 ▸ hv
  next slots hsrc =>
  have hfill := materializeFrom_fills ((increasing_of_managed hsrc).1 hfl) rfl
    (rfl : Flat.materializeFrom room count index _ slots frame = _)
  cases h
  rw [slot_of_managed hsrc] at hv
  exact hfill.lookup_eq hv

section
variable {st st' : State} {t : Transaction} {frame : Nat} {wasMissing : Bool} {a : Seat} {w : World}

/-- A page of a source is filled only while it is absent. -/
theorem slot_replace {s : Nat} {fl fl' : Flat} (hs : w.flats[s]? = some fl)
    (h : ∀ page v, fl.slot page = some v → fl'.slot page = some v) (hv : w.slot a = some v) :
    (w.replace s fl').slot a = some v := by
  rw [replace_slot hs]
  split
  · next he => exact h _ _ (by rwa [slot_of_flat (he ▸ hs)] at hv)
  · exact hv

theorem slot_append (fl : Flat) (hv : w.slot a = some v) : (w.append fl).slot a = some v := by
  rw [append_slot, if_neg, hv]
  intro he
  rw [slot_of_length_le he.ge] at hv
  simp at hv

/-- The end of a transfer rewrites its own two pages. -/
theorem slot_ended {x y : Option Slot} (ht : t ∈ st.world.transactions)
    (htr : w.transactions = st.world.transactions.erase t)
    (hrw : Rewrites st.world w t.source x t.target y) (hv : st.world.slot a = some v) :
    w.slot a = some v ∨ ∃ t ∈ st.world.transactions, (a = t.source ∨ a = t.target) ∧
      w.transactions = st.world.transactions.erase t := by
  by_cases ha : a = t.source ∨ a = t.target
  · exact .inr ⟨t, ht, ha, htr⟩
  · rw [not_or] at ha
    rw [hrw.slot_eq, if_neg ha.2, if_neg ha.1]
    exact .inl hv

/-- A page that a transfer holds changes only when that transfer ends. -/
theorem slot_step (h : Inv st) (hstep : Step st st') (hv : st.world.slot a = some v)
    (hbusy : v.busy = true) :
    st'.world.slot a = some v ∨ ∃ t ∈ st.world.transactions, (a = t.source ∨ a = t.target) ∧
      st'.world.transactions = st.world.transactions.erase t := by
  cases hstep with
  | acquire pageCount => exact .inl (slot_append _ hv)
  | fromRegion => exact .inl (slot_append _ hv)
  | fromFrames => exact .inl (slot_append _ hv)
  | allocate => exact .inl hv
  | register => exact .inl hv
  | markUntransferable hs =>
    refine .inl (slot_replace hs (fun _ _ hp => ?_) hv)
    exact hp
  | reside hs hr =>
    unfold Flat.reside at hr
    split at hr
    · simp at hr
    split at hr
    · simp at hr
    split at hr
    on_goal 2 => simp at hr
    cases hr
    refine .inl (slot_replace hs (fun _ _ hp => ?_) hv)
    exact hp
  | releaseResidency hs hr =>
    unfold Flat.releaseResidency at hr
    split at hr
    · simp at hr
    · cases hr
      refine .inl (slot_replace hs (fun _ _ hp => ?_) hv)
      exact hp
  | materialize hs hm =>
    exact .inl (slot_replace hs (fun _ _ =>
      materializeRange_slot (h.increasing _ (List.mem_of_getElem? hs)) hm) hv)
  | claim hc =>
    rcases claim_cases h.increasing hc with ⟨_, _, _, _, rfl⟩ | ⟨_, _, hcl⟩
    · exact .inl hv
    obtain ⟨frame, m, ha, _, hb, _, hrw⟩ := hcl.rewrites
    left
    rw [hrw.slot_eq, if_neg, if_neg, hv]
    · rintro rfl
      cases ha.symm.trans hv
      simp [Slot.busy] at hbusy
    rintro rfl
    rw [hb] at hv
    cases m
    · simp at hv
    · cases hv
      simp [Slot.busy] at hbusy
  | commit ht hc =>
    obtain ⟨_, _, hu⟩ := h.underway _ ht
    obtain ⟨w', hw, _, htr, _, _, hrw⟩ := commit_spec h.increasing hu
    cases hw.symm.trans hc
    exact slot_ended ht htr hrw hv
  | rollback ht hc =>
    obtain ⟨_, _, hu⟩ := h.underway _ ht
    obtain ⟨w', hw, _, htr, _, _, hrw⟩ := rollback_spec h.increasing hu
    cases hw.symm.trans hc
    exact slot_ended ht htr hrw hv
/-- A step after which the transfer is still under way. -/
def Keeping (t : Transaction) (st st' : State) : Prop := Step st st' ∧ t ∈ st'.world.transactions

/-- The steps of others leave a transaction under way. -/
theorem underway_step (h : Inv st) (ht : t ∈ st.world.transactions)
    (hu : Underway st.world t frame wasMissing) (hstep : Keeping t st st') :
    Underway st'.world t frame wasMissing := by
  obtain ⟨hstep, ht'⟩ := hstep
  -- were it another's page, the two transfers would have one number
  have hkept : ∀ {a v}, st.world.slot a = some v → v.busy = true →
      (∀ t' ∈ st.world.transactions, a = t'.source ∨ a = t'.target → t' = t) →
      st'.world.slot a = some v := by
    intro a v hv hb hown
    rcases slot_step h hstep hv hb with hv' | ⟨t', hm, ha, htr⟩
    · exact hv'
    · rw [htr, hown t' hm ha] at ht'
      exact absurd ht' (List.Nodup.not_mem_erase (List.Nodup.of_map _ h.ids))
  have hsource : st'.world.slot t.source = some (.moving frame t.id) := by
    refine hkept hu.source rfl fun t' hm ha => ?_
    obtain ⟨_, _, hu'⟩ := h.underway t' hm
    rcases ha with ha | ha
    · have := hu'.source
      rw [← ha, hu.source, Option.some.injEq, Slot.moving.injEq] at this
      exact h.transaction_eq hm ht this.2.symm
    · have := hu'.target
      rw [← ha, hu.source] at this
      simp at this
  have htarget : st'.world.slot t.target = some (.reserved t.id wasMissing) := by
    refine hkept hu.target rfl fun t' hm ha => ?_
    obtain ⟨_, _, hu'⟩ := h.underway t' hm
    rcases ha with ha | ha
    · have := hu'.source
      rw [← ha, hu.target] at this
      simp at this
    · have := hu'.target
      rw [← ha, hu.target, Option.some.injEq, Slot.reserved.injEq] at this
      exact h.transaction_eq hm ht this.1.symm
  obtain ⟨frame', m, hu'⟩ := (inv_step h hstep).underway t ht'
  have hf := hu'.source
  rw [hsource, Option.some.injEq, Slot.moving.injEq] at hf
  exact ⟨hsource, htarget, hf.1.symm ▸ hu'.custody⟩

/-- So they are as the claim left them whenever it ends. -/
theorem underway_run (h : Inv st) (ht : t ∈ st.world.transactions)
    (hu : Underway st.world t frame wasMissing)
    (hrun : Relation.ReflTransGen (Keeping t) st st') :
    Inv st' ∧ Underway st'.world t frame wasMissing := by
  suffices hall : Inv st' ∧ t ∈ st'.world.transactions ∧ Underway st'.world t frame wasMissing from
    ⟨hall.1, hall.2.2⟩
  induction hrun with
  | refl => exact ⟨h, ht, hu⟩
  | tail _ hstep ih =>
    obtain ⟨hi, ht, hu⟩ := ih
    exact ⟨inv_step hi hstep.1, hstep.2, underway_step hi ht hu hstep⟩

end

/-! ## Top theorem -/

/-- `w'` has the two slots of the transfer, and is otherwise `w`. -/
structure Ends (w w' : World) (t : Transaction) (frame : Nat) (source target : Option Slot) :
    Prop where
  source : w'.slot t.source = source
  target : w'.slot t.target = target
  rest : ∀ a, a ≠ t.source → a ≠ t.target → w'.slot a = w.slot a
  policy : ∀ s, w'.policy s = w.policy s
  sole : w'.custody frame = .sole
  custody : ∀ g, g ≠ frame → w'.custody g = w.custody g

theorem Rewrites.ends {w w' : World} {t : Transaction} {frame : Nat} {x y : Option Slot}
    (h : Rewrites w w' t.source x t.target y) (hne : t.source ≠ t.target)
    (hc : w'.custody = update w.custody frame .sole) : Ends w w' t frame x y where
  source := by rw [h.slot_eq, if_neg hne, if_pos rfl]
  target := by rw [h.slot_eq, if_pos rfl]
  rest := fun a h1 h2 => by rw [h.slot_eq, if_neg h2, if_neg h1]
  policy := h.policy_eq
  sole := by rw [hc, update_self]
  custody := fun g hg => by rw [hc, update_of_ne hg]

/-- A claim that fails changes no slot, no residency and no custody.  One that succeeds found the
frame at its source; dropped at once it leaves the slots, residencies and custodies that it found;
and whatever steps others take while it is under way, when it is dropped its two slots and the
frame's custody are those that the claim found, when it commits the source is missing and the target
has the frame, and nothing else changes at its end. -/
theorem transfer_atomic {st : State} (hrun : Relation.ReflTransGen Step {} st)
    {source target : FlatRange} {sp tp : Nat} {room : Bool} {prepare r : Except TransferError Unit}
    {w : World} (h : st.world.claim source sp target tp room prepare = some (r, w)) :
    (∀ e, r = .error e → w.flats = st.world.flats ∧ w.custody = st.world.custody) ∧
    (r = .ok () → ∃ t frame, t = ⟨⟨source.flat, sp⟩, ⟨target.flat, tp⟩, st.world.nextTransaction⟩ ∧
      st.world.slot t.source = some (.resident frame) ∧ st.world.custody frame = .sole ∧
      (∃ w', w.rollback t = some w' ∧ (∀ a, w'.slot a = st.world.slot a) ∧
        (∀ s, w'.policy s = st.world.policy s) ∧ w'.custody = st.world.custody) ∧
      ∀ st', Relation.ReflTransGen (Keeping t) { st with world := w } st' →
        (∃ w', st'.world.rollback t = some w' ∧
          Ends st'.world w' t frame (st.world.slot t.source) (st.world.slot t.target)) ∧
        ∃ w', st'.world.commit t = some w' ∧
          Ends st'.world w' t frame (some .missing) (some (.resident frame))) := by
  have hi := inv_run hrun
  rcases claim_cases hi.increasing h with ⟨e, n, rfl, _, rfl⟩ | ⟨rfl, hn, hcl⟩
  · exact ⟨fun _ _ => ⟨rfl, rfl⟩, fun hr => nomatch hr⟩
  refine ⟨fun _ hr => (nomatch hr), fun _ => ?_⟩
  obtain ⟨frame, m, ha, hsole, hb, hcust, hrw⟩ := hcl.rewrites
  have hi' := hi.claimed hcl hn
  have ht : (⟨⟨source.flat, sp⟩, ⟨target.flat, tp⟩, st.world.nextTransaction⟩ : Transaction) ∈
      w.transactions := by
    rw [hcl.transactions]
    exact List.mem_cons_self
  have hu : Underway w ⟨⟨source.flat, sp⟩, ⟨target.flat, tp⟩, st.world.nextTransaction⟩
      frame m := by
    refine ⟨?_, ?_, ?_⟩
    · rw [hrw.slot_eq, if_neg hcl.ne, if_pos rfl]
    · rw [hrw.slot_eq, if_pos rfl]
    · rw [hcust, update_self]
  refine ⟨_, frame, rfl, ha, hsole, ?_, fun st' hkeep => ?_⟩
  · obtain ⟨w', hw, hc, _, _, _, hrw'⟩ := rollback_spec hi'.increasing hu
    refine ⟨w', hw, fun a => ?_, fun s => (hrw'.policy_eq s).trans (hrw.policy_eq s), ?_⟩
    · rw [hrw'.slot_eq, hrw.slot_eq]
      split
      · next he => rw [he, hb]
      · split
        · next he => rw [he, ha]
        · rfl
    · rw [hc, hcust, update_idem, ← hsole, update_eq_self]
  · obtain ⟨hi1, hu1⟩ := underway_run hi' ht hu hkeep
    obtain ⟨w1, hw1, hc1, _, _, _, hrw1⟩ := rollback_spec hi1.increasing hu1
    obtain ⟨w2, hw2, hc2, _, _, _, hrw2⟩ := commit_spec hi1.increasing hu1
    rw [ha, hb]
    exact ⟨⟨w1, hw1, hrw1.ends hu1.ne hc1⟩, w2, hw2, hrw2.ends hu1.ne hc2⟩

/-- A page moves to the next page of its own source. -/
theorem transfer_atomic_moved : ∃ st w, Relation.ReflTransGen Step {} st ∧
    st.world.claim ⟨0, 0, 2⟩ 0 ⟨0, 0, 2⟩ 1 true (.ok ()) = some (.ok (), w) ∧
    ∃ t frame, st.world.slot t.source = some (.resident frame) ∧ ∃ w', w.commit t = some w' ∧
      Ends w w' t frame (some .missing) (some (.resident frame)) := by
  have h1 : Relation.ReflTransGen Step {} ⟨⟨[Flat.acquire 2], fun _ => .sole, 0, 1, []⟩, [], []⟩ :=
    .tail .refl (Step.acquire 2)
  have h2 := h1.tail (Step.materialize (s := 0) rfl
    (rfl : (Flat.acquire 2).materializeRange (fun _ => true) 0 0 1 = _))
  obtain ⟨t, frame, _, ha, _, _, hend⟩ := (transfer_atomic h2
    (rfl : World.claim _ ⟨0, 0, 2⟩ 0 ⟨0, 0, 2⟩ 1 true (.ok ()) = some (.ok (), _))).2 rfl
  exact ⟨_, _, h2, rfl, t, frame, ha, (hend _ .refl).2⟩

end Sqware.Flats
