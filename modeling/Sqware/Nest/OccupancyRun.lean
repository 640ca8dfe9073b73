import Sqware.Nest.OccupancySpec

/-!
# Runs of an occupancy table

The table starts empty and takes any sequence of operations.  The generation and ticket counters
are shared with the tables of other address spaces, which may move them forward at any time.
-/

namespace Sqware.Nest

open Spans List

/-- The interval `[start, last]` of a live mapping. -/
structure Extent where
  start : Nat
  last : Nat
  le : start ≤ last

namespace Occupancy

/-- A table and the two global counters. -/
structure State where
  occ : Occupancy := {}
  ids : Nat := 1
  tickets : Nat := 1

/-- A call on the table. -/
inductive Op
  | attach (room : Bool) (id : RegionId) (base last : Nat)
  | advance (id : RegionId) (base : Nat)
  | reserve (spansRoom slotRoom : Bool) (p : Placement)
  | split (room : Bool) (start last id leftSize : Nat)
  | release (start last id : Nat)
  | retire (e : Extent) (id : Nat)
  | reclaim (ticket : Nat)
  | prepareCleanup (room : Bool) (id : Nat)
  | takeCleanup (id : Nat)
  -- the counters as other tables leave them
  | elsewhere (ids tickets : Nat)

/-- The table after an operation that may fail. -/
def State.settle (s : State) : Except NestError Occupancy → State
  | .ok occ => { s with occ }
  | .error _ => s

def step (s : State) : Op → State
  | .attach room id base last => s.settle (s.occ.attach room id base last)
  | .advance id base => s.settle (s.occ.advance id base)
  | .reserve r₁ r₂ p =>
    match s.occ.reserve s.ids r₁ r₂ p with
    | (.ok (occ, _, _), ids) => { s with occ, ids }
    | (.error _, ids) => { s with ids }
  | .split room start last id leftSize =>
    match s.occ.split s.ids room start last id leftSize with
    | (.ok (occ, _, _, _), ids) => { s with occ, ids }
    | (.error _, ids) => { s with ids }
  | .release start last id => { s with occ := (s.occ.release start last id).1 }
  | .retire e id =>
    -- `fetch_add` wraps and the assertion stops the kernel on ticket 0
    if s.tickets = usizeSize then s
    else { s with occ := s.occ.retire s.tickets e.start e.last id, tickets := s.tickets + 1 }
  | .reclaim ticket => { s with occ := s.occ.reclaim ticket }
  | .prepareCleanup room id => s.settle (s.occ.prepareCleanup room id)
  | .takeCleanup id => { s with occ := (s.occ.takeCleanup id).1 }
  | .elsewhere ids tickets =>
    { s with ids := max s.ids ids, tickets := max s.tickets (min tickets usizeSize) }

def run (ops : List Op) : State := ops.foldl step {}

/-- What every run keeps. -/
structure Good (s : State) : Prop where
  ordered : Ordered s.occ.slots
  bounded : ∀ slot ∈ s.occ.slots, slot.last < usizeSize
  ids_fresh : ∀ slot ∈ s.occ.slots, slot.id < s.ids
  tickets_fresh : ∀ slot ∈ s.occ.slots, slot.ticket < s.tickets
  tickets_pos : 0 < s.tickets

/-! ## Lemmas -/

variable {room : Bool} {last : Nat} {o o' : Occupancy}

theorem attach_slots {id : RegionId} {base : Nat} (h : o.attach room id base last = .ok o') :
    o'.slots = o.slots := by
  unfold attach at h
  split at h
  · simp at h
  split at h
  · simp only [Except.ok.injEq] at h
    rw [← h]
  · simp at h

theorem advance_slots {id : RegionId} {base : Nat} (h : o.advance id base = .ok o') :
    o'.slots = o.slots := by
  unfold advance at h
  split at h
  · simp at h
  split at h
  · simp at h
  split at h
  · simp at h
  · simp only [Except.ok.injEq] at h
    rw [← h]

variable {id : Nat}

theorem prepareCleanup_slots (h : o.prepareCleanup room id = .ok o') : o'.slots = o.slots := by
  unfold prepareCleanup at h
  split at h
  · simp only [Except.ok.injEq] at h
    rw [← h]
  split at h
  · simp only [Except.ok.injEq] at h
    rw [← h]
  · simp at h

theorem takeCleanup_slots (o : Occupancy) (id : Nat) : (o.takeCleanup id).1.slots = o.slots := by
  unfold takeCleanup
  split <;> rfl

variable {start : Nat}

theorem release_unchanged (h : (o.release start last id).2 = false) :
    (o.release start last id).1 = o := by
  unfold release at h ⊢
  split at h
  · simp at h
  · rfl

variable {ids ids' : Nat} {e : NestError}

/-- A failed `insert`, `reserve` or `split` may still have drawn generations. -/
theorem reserve_error_ids {r1 r2 : Bool} {p : Placement}
    (h : o.reserve ids r1 r2 p = (.error e, ids')) : ids' = ids := by
  unfold reserve at h
  split at h
  · exact (Prod.mk.inj h).2.symm
  split at h
  · exact (Prod.mk.inj h).2.symm
  split at h
  · next hins =>
    rw [← (Prod.mk.inj h).2]
    unfold insert at hins
    simp only [] at hins
    split at hins
    · exact (Prod.mk.inj hins).2.symm
    split at hins
    · exact (Prod.mk.inj hins).2.symm
    split at hins
    · exact (Prod.mk.inj hins).2.symm
    · simp at hins
  · simp at h

theorem split_error_ids {leftSize : Nat}
    (h : o.split ids room start last id leftSize = (.error e, ids')) : ids ≤ ids' := by
  unfold split at h
  simp only [] at h
  split at h
  · exact (Prod.mk.inj h).2.le
  split at h
  · exact (Prod.mk.inj h).2.le
  split at h
  · exact (Prod.mk.inj h).2.le
  split at h
  · next hid _ =>
    obtain ⟨_, rfl, _, _⟩ := nextId_eq_some.1 hid
    split at h
    · exact (Nat.le_succ _).trans (Prod.mk.inj h).2.le
    · simp at h
  · exact (Prod.mk.inj h).2.le

variable {ticket : Nat}

theorem mem_cut {slot t : Slot} (ht : t ∈ cut start last id ticket slot) :
    t = slot ∨ slot.ticket = 0 ∧ t.id = slot.id ∧ t.last ≤ slot.last ∧
      (t.ticket = 0 ∨ t.ticket = ticket) := by
  unfold cut at ht
  split at ht
  · exact .inl (mem_singleton.1 ht)
  next hc =>
  simp only [not_or, not_lt, ne_eq, not_not] at hc
  obtain ⟨h0, -, h3, h4⟩ := hc
  right
  rcases mem_append.1 ht with ht | ht
  · split at ht
    · obtain rfl := mem_singleton.1 ht
      exact ⟨h0, rfl, show start - 1 ≤ slot.last by omega, .inl rfl⟩
    · simp at ht
  rcases mem_cons.1 ht with rfl | ht
  · exact ⟨h0, rfl, min_le_left _ _, .inr rfl⟩
  split at ht
  · obtain rfl := mem_singleton.1 ht
    exact ⟨h0, rfl, le_rfl, .inl rfl⟩
  · simp at ht

variable {s : State}

/-- Good tables stay good when slots go and the counters move on. -/
theorem Good.of_sublist {s' : State} (h : Good s) (hs : s'.occ.slots.Sublist s.occ.slots)
    (hi : s.ids ≤ s'.ids) (ht : s.tickets ≤ s'.tickets) : Good s' where
  ordered := h.ordered.sublist hs
  bounded := fun slot hm => h.bounded slot (hs.subset hm)
  ids_fresh := fun slot hm => (h.ids_fresh slot (hs.subset hm)).trans_le hi
  tickets_fresh := fun slot hm => (h.tickets_fresh slot (hs.subset hm)).trans_le ht
  tickets_pos := h.tickets_pos.trans_le ht

theorem Good.of_slots_eq {s' : State} (h : Good s) (hs : s'.occ.slots = s.occ.slots)
    (hi : s.ids ≤ s'.ids) (ht : s.tickets ≤ s'.tickets) : Good s' :=
  h.of_sublist (hs ▸ List.Sublist.refl _) hi ht

theorem settle_slots {r : Except NestError Occupancy} (h : ∀ o, r = .ok o → o.slots = s.occ.slots) :
    (s.settle r).occ.slots = s.occ.slots := by
  cases r with
  | ok o => exact h o rfl
  | error e => rfl

@[simp] theorem settle_ids (s : State) (r : Except NestError Occupancy) :
    (s.settle r).ids = s.ids := by
  cases r <;> rfl

@[simp] theorem settle_tickets (s : State) (r : Except NestError Occupancy) :
    (s.settle r).tickets = s.tickets := by
  cases r <;> rfl

/-- Every call keeps the table good. -/
theorem good_step (h : Good s) (op : Op) : Good (step s op) := by
  cases op with
  | attach room id base last =>
    exact h.of_slots_eq (settle_slots fun _ he => attach_slots he) (by simp [step])
      (by simp [step])
  | advance id base =>
    exact h.of_slots_eq (settle_slots fun _ he => advance_slots he) (by simp [step])
      (by simp [step])
  | prepareCleanup room id =>
    exact h.of_slots_eq (settle_slots fun _ he => prepareCleanup_slots he) (by simp [step])
      (by simp [step])
  | takeCleanup id => exact h.of_slots_eq (takeCleanup_slots _ _) le_rfl le_rfl
  | elsewhere ids tickets =>
    exact h.of_slots_eq rfl (le_max_left _ _) (le_max_left _ _)
  | reclaim ticket =>
    refine h.of_sublist ?_ le_rfl le_rfl
    show (s.occ.reclaim ticket).slots.Sublist _
    rw [reclaim_slots]
    exact filter_sublist
  | release start last id =>
    cases hb : (s.occ.release start last id).2 with
    | false => exact h.of_slots_eq (congrArg slots (release_unchanged hb)) le_rfl le_rfl
    | true =>
      obtain ⟨_, hsub, _⟩ := release_spec h.ordered (Prod.ext rfl hb)
      exact h.of_sublist hsub le_rfl le_rfl
  | retire e id =>
    unfold step
    simp only []
    split
    · exact h
    refine ⟨h.ordered.flatMap (cuts_cut h.ordered e.le), ?_, ?_, ?_, by simp⟩ <;>
      intro slot hm <;> obtain ⟨old, ho, hm⟩ := mem_flatMap.1 hm
    · rcases mem_cut hm with rfl | ⟨_, _, hl, _⟩
      · exact h.bounded _ ho
      · exact hl.trans_lt (h.bounded _ ho)
    · rcases mem_cut hm with rfl | ⟨_, hid, _, _⟩
      · exact h.ids_fresh _ ho
      · exact hid ▸ h.ids_fresh _ ho
    · have := h.tickets_fresh _ ho
      rcases mem_cut hm with rfl | ⟨_, _, _, ht⟩ <;> simp only [] <;> omega
  | reserve r1 r2 p =>
    unfold step
    simp only []
    split
    · next o st id ids he =>
      obtain ⟨last, _, hb, ho, _, hm, _, rfl, rfl⟩ := reserve_spec h.ordered he
      refine ⟨ho, ?_, ?_, ?_, h.tickets_pos⟩ <;> intro slot hs <;>
        rcases (hm slot).1 hs with rfl | hs
      · exact hb
      · exact h.bounded _ hs
      · exact Nat.lt_succ_self _
      · exact (h.ids_fresh _ hs).trans (Nat.lt_succ_self _)
      · exact h.tickets_pos
      · exact h.tickets_fresh _ hs
    · next he => exact h.of_slots_eq rfl (reserve_error_ids he).ge le_rfl
  | split room start last id leftSize =>
    unfold step
    simp only []
    split
    · next o right left' right' ids he =>
      obtain ⟨region, ho, hold, _, hm, h1, h2, rfl, rfl, rfl⟩ := split_spec h.ordered he
      have hlast : last < usizeSize := h.bounded _ hold
      refine ⟨ho, ?_, ?_, ?_, h.tickets_pos⟩ <;> intro slot hs <;>
        rcases hm slot hs with rfl | rfl | hs
      · exact show right - 1 < usizeSize by omega
      · exact hlast
      · exact h.bounded _ hs
      · exact show s.ids < s.ids + 2 by omega
      · exact show s.ids + 1 < s.ids + 2 by omega
      · exact (h.ids_fresh _ hs).trans_le (Nat.le_add_right _ 2)
      · exact h.tickets_pos
      · exact h.tickets_pos
      · exact h.tickets_fresh _ hs
    · next he => exact h.of_slots_eq rfl (split_error_ids he) le_rfl

theorem good_run (ops : List Op) : Good (run ops) := by
  refine List.foldlRecOn ops step ?_ fun s h op _ => good_step h op
  exact ⟨ordered_nil, by simp, by simp, by simp, by simp⟩

/-! ## Tickets -/

/-- The address waits for the settlement of a ticket. -/
def RetiredUnder (m : Atlas) (ticket a : Nat) : Prop := ∃ tag, m a = some tag ∧ tag.ticket = ticket

variable {m : Atlas} {a : Nat}

/-- Painting addresses that carry no ticket with tags that carry none. -/
theorem retiredUnder_paint {tag : Option Tag} (ht : ticket ≠ 0)
    (hold : start ≤ a → a ≤ last → ∀ g, m a = some g → g.ticket = 0)
    (hnew : ∀ g, tag = some g → g.ticket = 0) :
    RetiredUnder (m.paint start last tag) ticket a ↔ RetiredUnder m ticket a := by
  unfold RetiredUnder Atlas.paint
  split
  · next hc =>
    constructor
    · rintro ⟨g, hg, rfl⟩
      exact absurd (hnew g hg) ht
    · rintro ⟨g, hg, rfl⟩
      exact absurd (hold hc.1 hc.2 g hg) ht
  · rfl

theorem retiredUnder_retire {ticket' : Nat} (ht : ticket ≠ 0) (hne : ticket ≠ ticket') :
    RetiredUnder (m.retire ticket' start last id) ticket a ↔ RetiredUnder m ticket a := by
  unfold RetiredUnder Atlas.retire
  cases m a with
  | none => simp
  | some g =>
    simp only [Option.map_some, Option.some.injEq, exists_eq_left']
    split
    · next hc =>
      simp only [hc.2.2.1]
      exact ⟨fun he => absurd he.symm hne, fun he => absurd he.symm ht⟩
    · rfl

theorem retiredUnder_reclaim {ticket' : Nat} (hne : ticket ≠ ticket') :
    RetiredUnder (m.reclaim ticket') ticket a ↔ RetiredUnder m ticket a := by
  unfold RetiredUnder Atlas.reclaim
  simp only [Option.filter_eq_some_iff, decide_eq_true_eq, and_assoc]
  refine exists_congr fun g => and_congr_right fun _ => ⟨fun hg => hg.2, ?_⟩
  rintro rfl
  exact ⟨hne, rfl⟩

/-- Between `retire` and its `reclaim` nothing touches what waits under a ticket. -/
theorem retiredUnder_step (h : Good s) {op : Op} (ht : ticket ≠ 0) (hold : ticket < s.tickets)
    (hop : op ≠ .reclaim ticket) (a : Nat) :
    RetiredUnder (step s op).occ.atlas ticket a ↔ RetiredUnder s.occ.atlas ticket a := by
  have same : ∀ {o : Occupancy}, o.slots = s.occ.slots →
      (RetiredUnder o.atlas ticket a ↔ RetiredUnder s.occ.atlas ticket a) := by
    intro o ho
    unfold atlas
    rw [ho]
  have fresh : ∀ {start last id : Nat} {region : RegionId},
      ⟨start, last, 0, id, region⟩ ∈ s.occ.slots → start ≤ a → a ≤ last →
      ∀ g, s.occ.atlas a = some g → g.ticket = 0 := by
    intro start last id region hm h1 h2 g hg
    have := (atlas_eq_some h.ordered).2 ⟨_, hm, ⟨h1, h2⟩, rfl⟩
    rw [this] at hg
    rw [← Option.some.inj hg]
    rfl
  cases op with
  | attach room id base last => exact same (settle_slots fun _ he => attach_slots he)
  | advance id base => exact same (settle_slots fun _ he => advance_slots he)
  | prepareCleanup room id => exact same (settle_slots fun _ he => prepareCleanup_slots he)
  | takeCleanup id => exact same (takeCleanup_slots _ _)
  | elsewhere ids tickets => rfl
  | reclaim t =>
    show RetiredUnder (s.occ.reclaim t).atlas ticket a ↔ _
    rw [reclaim_atlas h.ordered]
    refine retiredUnder_reclaim ?_
    rintro rfl
    exact hop rfl
  | release start last id =>
    cases hb : (s.occ.release start last id).2 with
    | false => exact same (congrArg slots (release_unchanged hb))
    | true =>
      obtain ⟨_, _, hm, ha⟩ := release_spec h.ordered (Prod.ext rfl hb)
      show RetiredUnder (s.occ.release start last id).1.atlas ticket a ↔ _
      rw [ha]
      exact retiredUnder_paint ht (fresh hm) (by simp)
  | retire e id =>
    unfold step
    simp only []
    split
    · rfl
    · rw [retire_atlas h.ordered e.le]
      exact retiredUnder_retire ht hold.ne
  | reserve r1 r2 p =>
    unfold step
    simp only []
    split
    · next he =>
      obtain ⟨last, _, _, _, ha, _, hfree, _, _⟩ := reserve_spec h.ordered he
      simp only [ha]
      refine retiredUnder_paint ht (fun h1 h2 g hg => ?_) (by simp)
      rw [hfree a h1 h2] at hg
      simp at hg
    · rfl
  | split room start last id leftSize =>
    unfold step
    simp only []
    split
    · next o right left' right' ids he =>
      obtain ⟨region, _, hm, ha, _, h1, h2, _, _, _⟩ := split_spec h.ordered he
      simp only [ha]
      rw [retiredUnder_paint ht (fun h3 h4 g hg => ?_) (by simp),
        retiredUnder_paint ht (fun h3 h4 => fresh hm h3 (by omega)) (by simp)]
      rw [Atlas.paint, if_neg (by omega)] at hg
      exact fresh hm (by omega) h4 g hg
    · rfl

theorem release_iff :
    (o.release start last id).2 = true ↔ ∃ region, ⟨start, last, 0, id, region⟩ ∈ o.slots := by
  unfold release
  split
  · next i hfind =>
    obtain ⟨l1, region, l2, hl, _⟩ := exists_of_find_matches hfind
    exact iff_of_true rfl ⟨region, by rw [hl]; simp⟩
  next hi =>
  refine iff_of_false Bool.false_ne_true fun ⟨region, hm⟩ => ?_
  simpa [Slot.matches] using findIdx?_eq_none_iff.1 hi _ hm

/-! ## Top theorem -/

/-- After every sequence of operations: the slots are sorted, disjoint and non-empty, up to the
last address; `release` succeeds exactly for an un-retired slot with these end points and this
generation, and frees just its addresses; `pieces` succeeds exactly when the generation tiles
the interval; `retire` tickets exactly what the generation still uses of the interval and keeps
every address occupied; `reclaim` frees exactly what waits under the ticket, and that is what
the `retire` that drew the ticket put there. -/
theorem occupancy_run (ops : List Op) :
    (run ops).occ.slots.Pairwise (fun s t => s.last < t.start) ∧
    (∀ s ∈ (run ops).occ.slots, s.start ≤ s.last ∧ s.last < usizeSize) ∧
    (∀ start last id, ((run ops).occ.release start last id).2 = true ↔
      ∃ region, ⟨start, last, 0, id, region⟩ ∈ (run ops).occ.slots) ∧
    (∀ start last id, ((run ops).occ.release start last id).2 = true →
      ((run ops).occ.release start last id).1.atlas = (run ops).occ.atlas.paint start last none) ∧
    (∀ (room : Bool) (e : Extent) id,
      (∃ ps, (run ops).occ.pieces room e.start e.last id = .ok ps) ↔
        room = true ∧ Tiled (run ops).occ.slots id e.start e.last) ∧
    (∀ ticket (e : Extent) id,
      ((run ops).occ.retire ticket e.start e.last id).atlas =
        (run ops).occ.atlas.retire ticket e.start e.last id) ∧
    (∀ ticket (e : Extent) id a,
      (((run ops).occ.retire ticket e.start e.last id).atlas a).isSome =
        ((run ops).occ.atlas a).isSome) ∧
    (∀ ticket a,
      (RetiredUnder (run ops).occ.atlas ticket a → ((run ops).occ.reclaim ticket).atlas a = none) ∧
      (¬ RetiredUnder (run ops).occ.atlas ticket a →
        ((run ops).occ.reclaim ticket).atlas a = (run ops).occ.atlas a)) ∧
    (∀ ticket a, (run ops).tickets ≤ ticket → ¬ RetiredUnder (run ops).occ.atlas ticket a) ∧
    (∀ op ticket a, ticket ≠ 0 → ticket < (run ops).tickets → op ≠ .reclaim ticket →
      (RetiredUnder (step (run ops) op).occ.atlas ticket a ↔
        RetiredUnder (run ops).occ.atlas ticket a)) := by
  have h := good_run ops
  refine ⟨h.ordered.before, fun s hs => ⟨h.ordered.nonempty s hs, h.bounded s hs⟩,
    fun _ _ _ => release_iff, fun start last id hb => ?_,
    fun room e id => pieces_ok_iff h.ordered e.le, fun ticket e id => retire_atlas h.ordered e.le,
    fun ticket e id a => ?_, fun ticket a => ?_, fun ticket a ht => ?_,
    fun op ticket a ht hlt hop => retiredUnder_step h ht hlt hop a⟩
  · obtain ⟨_, _, _, ha⟩ := release_spec h.ordered (Prod.ext rfl hb)
    exact ha
  · rw [retire_atlas h.ordered e.le]
    simp [Atlas.retire]
  · rw [reclaim_atlas h.ordered]
    unfold RetiredUnder Atlas.reclaim
    cases (run ops).occ.atlas a with
    | none => simp
    | some g => by_cases hg : g.ticket = ticket <;> simp [hg]
  · rintro ⟨tag, hg, rfl⟩
    obtain ⟨slot, hs, _, rfl⟩ := (atlas_eq_some h.ordered).1 hg
    exact absurd (h.tickets_fresh slot hs) (not_lt.2 ht)

/-- The last page of the address space can be reserved, retired in part and given back. -/
example : (run [.reserve true true ⟨.static, 8192, 4096, .exact (usizeSize - 8192), by decide,
      by decide, pageSize_pow, by rintro _ ⟨⟩; decide⟩,
    .retire ⟨usizeSize - 4096, usizeSize - 1, by decide⟩ 1, .reclaim 1]).occ.slots =
      [⟨usizeSize - 8192, usizeSize - 4097, 0, 1, .static⟩] := by decide

end Occupancy

end Sqware.Nest
