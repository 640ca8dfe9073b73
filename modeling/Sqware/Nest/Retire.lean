import Sqware.Nest.SpaceRun

/-!
# Retiring addresses

Clearings are numbered.  A ticket belongs to the clearing that drew it, and a shootdown confirms the
clearings before it began.  What a Nest hands back (the span of a ticket, retired frames and tables)
must belong to confirmed clearings.

Two sections break this when they run at the wrong time.  `retry_invalidation` takes the whole list
of tickets in a section of its own, after the one in which it saw that no shootdown is owed; and
`settle_failed_install` takes a View that is not in the index for one that was never published,
which it may have been.
-/

namespace Sqware.Nest

open Spans TableNode NestState List Option View Occupancy

/-- The tickets are taken while no shootdown is owed, or none was listed since a retry saw so; and a
failed installation that was published finds its View in the index. -/
def Careful (w : World) : Act → Prop
  | .take => w.st.invalidation = .clean ∨ w.st.retirement ⊆ w.log.listed
  | .settleInstall r => (w.st.find r.start).any (·.id = r.id) = true
  | _ => True

/-- A page in a part of a span that is in use. -/
def InUse (m : Atlas) (id p : Nat) : Prop :=
  ∃ tag, m (p * pageSize) = some tag ∧ tag.id = id ∧ tag.ticket = 0

namespace World

def atlas (w : World) : Atlas := w.occ.occ.atlas

end World

/-- A wiped page whose clearing is not confirmed is still occupied: in use, or retired by that
clearing or a later one. -/
def Covered (w : World) (x : Wipe) : Prop :=
  w.log.confirmed < x.turn → ∃ tag, w.atlas (x.page * pageSize) = some tag ∧ tag.id = x.id ∧
    (tag.ticket = 0 ∨ x.turn ≤ w.log.ticketTurn tag.ticket)

/-- What every careful run keeps. -/
structure Fenced (w : World) : Prop where
  clean : w.st.invalidation = .clean → w.log.confirmed = w.log.clears
  fencing : w.st.invalidation = .fencing → w.log.started = w.log.clears
  turns : ∀ t, w.log.ticketTurn t ≤ w.log.clears
  drawn : ∀ ts ∈ w.ticketLists, ∀ t ∈ ts, t < w.occ.tickets
  settled : ∀ ts ∈ w.withdrawn ++ w.due, ∀ t ∈ ts, w.log.ticketTurn t ≤ w.log.confirmed
  listed : ∀ t ∈ w.log.listed, t < w.occ.tickets ∧ w.log.ticketTurn t ≤ w.log.confirmed
  used : ∀ v ∈ w.st.views, ∀ p, v.Active p → InUse w.atlas v.id p
  wiped : ∀ x ∈ w.log.wipes, x.turn ≤ w.log.clears ∧ (∃ v ∈ w.st.views, v.id = x.id) ∧ Covered w x
  lost : w.lost = []

theorem fenced_initial : Fenced {} := by
  constructor <;> simp [World.ticketLists]

section

variable {top : Nat} {w w' : World} {act : Act}

/-- The occupancy table keeps what it drew. -/
theorem Moves.tickets_le (hm : Moves top w act w') : w.occ.tickets ≤ w'.occ.tickets := by
  cases hm with
  | counts _ _ ht => exact ht
  | withdraw _ _ _ _ hr _ => exact hr.tickets_le
  | _ => exact le_rfl

theorem Moves.tickets_lt (hok : Ok top w) (h : Fenced w) (hm : Moves top w act w') :
    ∀ ts ∈ w'.ticketLists, ∀ t ∈ ts, t < w'.occ.tickets := by
  intro ts hts t ht
  rcases hm.drawn hts ht with ⟨us, hus, ht⟩ | ⟨id, ps, tickets, htile, hr, ht⟩
  · exact (h.drawn us hus t ht).trans_le hm.tickets_le
  rcases hr.drawn t ht with ⟨_, h2⟩ | ⟨_, x, hx, rfl⟩
  · exact h2
  -- the ticket of a piece was drawn before
  obtain ⟨tag, htag, hti⟩ := htile x hx
  obtain ⟨slot, hslot, _, rfl⟩ := (atlas_eq_some hok.base.good.ordered).1 htag
  rw [← hti]
  exact (hok.base.good.tickets_fresh slot hslot).trans_le hr.tickets_le

variable {id : Nat}

theorem Moves.view (hm : Moves top w act w') (h : ∃ v ∈ w.st.views, v.id = id) :
    ∃ v ∈ w'.st.views, v.id = id := by
  obtain ⟨v, hv, rfl⟩ := h
  exact List.mem_map.1 (hm.ids (List.mem_map_of_mem hv))

/-- A section that clears nothing, confirms nothing, and leaves the spans of the Views alone. -/
structure Quiet (w w' : World) : Prop where
  log : w'.log = w.log
  clean : w'.st.invalidation = .clean → w.st.invalidation = .clean
  fencing : w'.st.invalidation = .fencing → w.st.invalidation = .fencing
  keep : ∀ a tag, w.atlas a = some tag → (∃ v ∈ w.st.views, v.id = tag.id) → w'.atlas a = some tag
  used : ∀ v' ∈ w'.st.views, ∀ p, v'.Active p →
    (∃ v ∈ w.st.views, v.id = v'.id ∧ v.Active p) ∨ InUse w'.atlas v'.id p
  settled : ∀ ts ∈ w'.withdrawn ++ w'.due, ts ∈ w.withdrawn ++ w.due ∨
    w.st.invalidation = .clean ∨ ts ⊆ w.log.listed
  lost : w'.lost = []

theorem Fenced.quiet (hok : Ok top w) (h : Fenced w) (hm : Moves top w act w') (hq : Quiet w w') :
    Fenced w' := by
  have hinuse : ∀ v ∈ w.st.views, ∀ p, InUse w.atlas v.id p → InUse w'.atlas v.id p := by
    rintro v hv p ⟨tag, htag, hid, ht⟩
    exact ⟨tag, hq.keep _ tag htag ⟨v, hv, hid.symm⟩, hid, ht⟩
  refine ⟨?_, ?_, ?_, hm.tickets_lt hok h, ?_, ?_, ?_, ?_, hq.lost⟩
  · exact fun hc => hq.log ▸ h.clean (hq.clean hc)
  · exact fun hc => hq.log ▸ h.fencing (hq.fencing hc)
  · exact hq.log ▸ h.turns
  · intro ts hts t ht
    rw [hq.log]
    rcases hq.settled ts hts with hold | hclean | hlisted
    · exact h.settled ts hold t ht
    · rw [h.clean hclean]
      exact h.turns t
    · exact (h.listed t (hlisted ht)).2
  · exact hq.log ▸ fun t ht => ⟨(h.listed t ht).1.trans_le hm.tickets_le, (h.listed t ht).2⟩
  · intro v' hv' p hp
    rcases hq.used v' hv' p hp with ⟨v, hv, hid, hact⟩ | hnew
    · exact hid ▸ hinuse v hv p (h.used v hv p hact)
    · exact hnew
  intro x hx
  rw [hq.log] at hx
  obtain ⟨h1, hv, h3⟩ := h.wiped x hx
  refine ⟨hq.log ▸ h1, hm.view hv, fun hlt => ?_⟩
  rw [hq.log] at hlt ⊢
  obtain ⟨tag, htag, hti, hrest⟩ := h3 hlt
  exact ⟨tag, hq.keep _ tag htag (hti.symm ▸ hv), hti, hrest⟩

theorem quiet_of_views (h : Fenced w) (hlog : w'.log = w.log) (hviews : w'.st.views = w.st.views)
    (hclean : w'.st.invalidation = .clean → w.st.invalidation = .clean)
    (hfence : w'.st.invalidation = .fencing → w.st.invalidation = .fencing)
    (hkeep : ∀ a tag, w.atlas a = some tag → (∃ v ∈ w.st.views, v.id = tag.id) →
      w'.atlas a = some tag)
    (hsettled : ∀ ts ∈ w'.withdrawn ++ w'.due, ts ∈ w.withdrawn ++ w.due ∨
      w.st.invalidation = .clean ∨ ts ⊆ w.log.listed) (hlost : w'.lost = w.lost) : Quiet w w' :=
  ⟨hlog, hclean, hfence, hkeep, fun v hv _ hp => .inl ⟨v, hviews ▸ hv, rfl, hp⟩, hsettled,
    hlost.trans h.lost⟩

variable {v : View}

/-- A lesser View is put in the place of one, and a shootdown is owed. -/
theorem quiet_put (h : Fenced w) {v' : View} (hv : v ∈ w.st.views) (hl : Lessens v v')
    {st : NestState} (hviews : st.views = (w.st.put v').views) (hdirty : st.invalidation = .dirty) :
    Quiet w { w with st } := by
  refine ⟨rfl, by simp [hdirty], by simp [hdirty], fun _ _ h _ => h, fun u hu p hp => .inl ?_,
    fun ts hts => .inl hts, h.lost⟩
  dsimp only at hu
  rw [hviews] at hu
  obtain ⟨t, ht, rfl⟩ := List.mem_map.1 hu
  split at hp
  · next hid => exact ⟨v, hv, by rw [if_pos hid, hl.id], hl.active p hp⟩
  · next hid => exact ⟨t, ht, by rw [if_neg hid], hp⟩

theorem atlas_of_slots {o o' : Occupancy} (h : o'.slots = o.slots) : o'.atlas = o.atlas := by
  funext a
  simp only [Occupancy.atlas, h]

variable {start : Nat}

/-- A span is reserved where nothing is. -/
theorem reserve_keep {o : Occupancy.State} (h : Occupancy.Good o) {r1 r2 : Bool} {p : Placement}
    {occ : Occupancy} {ids : Nat} (he : o.occ.reserve o.ids r1 r2 p = (.ok (occ, start, id), ids))
    {a : Nat} {tag : Tag} (ht : o.occ.atlas a = some tag) : occ.atlas a = some tag := by
  obtain ⟨last, _, _, _, hat, _, hfree, _⟩ := reserve_spec h.ordered he
  rw [hat]
  unfold Atlas.paint
  rw [if_neg]
  · exact ht
  intro hin
  have := hfree a hin.1 hin.2
  rw [ht] at this
  simp at this

theorem mem_activeIn (h : v.Sound) {len p : Nat} :
    p ∈ v.activeIn start len ↔ (start ≤ p ∧ p < start + len) ∧ v.Active p := by
  unfold activeIn
  rw [mem_filter, mem_range'_1, h.covers_page]

/-- After a clearing nothing older is unconfirmed, and the pages cleared now are still occupied. -/
theorem Fenced.clear (hok : Ok top w) (h : Fenced w) (hm : Moves top w act w') (tickets : List Nat)
    (wipes : List Wipe)
    (hlog : w'.log = { w.log with
      clears := w.log.clears + 1
      ticketTurn := fun t => if t ∈ tickets then w.log.clears + 1 else w.log.ticketTurn t
      wipes := w.log.wipes ++ wipes })
    (hclean : w.st.invalidation = .clean) (hdirty : w'.st.invalidation = .dirty)
    (hset : w'.withdrawn ++ w'.due = w.withdrawn ++ w.due) (hlost : w'.lost = w.lost)
    (hnew : ∀ t ∈ tickets, w.occ.tickets ≤ t)
    (hused : ∀ v ∈ w'.st.views, ∀ p, v.Active p → InUse w'.atlas v.id p)
    (hwipes : ∀ x ∈ wipes, x.turn = w.log.clears + 1 ∧ (∃ v ∈ w.st.views, v.id = x.id) ∧
      ∃ tag, w'.atlas (x.page * pageSize) = some tag ∧ tag.id = x.id ∧
      (tag.ticket = 0 ∨ tag.ticket ∈ tickets)) :
    Fenced w' := by
  have hconf := h.clean hclean
  have hold : ∀ t, t < w.occ.tickets → w'.log.ticketTurn t = w.log.ticketTurn t := by
    intro t ht
    rw [hlog]
    exact if_neg fun hm => Nat.not_le.2 ht (hnew t hm)
  refine ⟨by simp [hdirty], by simp [hdirty], fun t => ?_, hm.tickets_lt hok h,
    fun ts hts t htt => ?_, fun t ht => ?_, hused, fun x hx => ?_, hlost.trans h.lost⟩
  · rw [hlog]
    dsimp only
    split
    · exact le_rfl
    · exact (h.turns t).trans (Nat.le_succ _)
  · rw [hset] at hts
    have hlt : t < w.occ.tickets := by
      refine h.drawn ts ?_ t htt
      unfold World.ticketLists
      simp only [mem_append, mem_cons] at hts ⊢
      tauto
    rw [hold t hlt, hlog]
    exact h.settled ts hts t htt
  · rw [hlog] at ht
    obtain ⟨hlt, hturn⟩ := h.listed t ht
    refine ⟨hlt.trans_le hm.tickets_le, ?_⟩
    rw [hold t hlt, hlog]
    exact hturn
  · unfold Covered
    rw [hlog] at hx ⊢
    rcases mem_append.1 hx with hx | hx
    · obtain ⟨h1, hv, _⟩ := h.wiped x hx
      refine ⟨h1.trans (Nat.le_succ _), hm.view hv, fun hlt => ?_⟩
      dsimp only at hlt
      omega
    obtain ⟨hturn, hv, tag, htag, hid, hrest⟩ := hwipes x hx
    refine ⟨hturn.le, hm.view hv, fun _ => ⟨tag, htag, hid, hrest.imp_right fun hmem => ?_⟩⟩
    dsimp only
    rw [if_pos hmem, hturn]

variable {tickets : List Nat}

theorem fenced_withdraw (hok : Ok top w) (h : Fenced w) (hmoves : Moves top w act w')
    (hv : v ∈ w.st.views) {len : Nat} {pieces : List (Nat × Nat × Nat)} (hlen : 0 < len)
    (hclean : w.st.invalidation = .clean)
    (htile : Occupancy.Tiles w.occ.occ.atlas v.id (start * pageSize)
      (start * pageSize + (len * pageSize - 1)) pieces)
    (hr : Occupancy.Retires v.id pieces w.occ w'.occ tickets)
    (hviews : w'.st.views = (w.st.put (v.without start (start + (len - 1)))).views)
    (hdirty : w'.st.invalidation = .dirty) (hset : w'.withdrawn ++ w'.due = w.withdrawn ++ w.due)
    (hlost : w'.lost = w.lost)
    (hlog : w'.log = w.clear (tickets.filter (w.occ.tickets ≤ ·)) v.id (v.activeIn start len)) :
    Fenced w' := by
  have hs := hok.base.sound v hv
  have hle := Nat.le_add_right start (len - 1)
  have hbyte : ∀ p, (start ≤ p ∧ p < start + len) ↔ (start * pageSize ≤ p * pageSize ∧
      p * pageSize ≤ start * pageSize + (len * pageSize - 1)) := by
    intro p
    have hps := pageSize_pos
    have hlp := Nat.mul_pos hlen hps
    have h1 : start ≤ p ↔ start * pageSize ≤ p * pageSize :=
      (Nat.mul_le_mul_right_iff hps).symm
    have h2 : p < start + len ↔ p * pageSize < (start + len) * pageSize :=
      (Nat.mul_lt_mul_right hps).symm
    rw [h1, h2, Nat.add_mul]
    omega
  refine h.clear hok hmoves _ _ hlog hclean hdirty hset hlost
    (fun t ht => by simpa using (mem_filter.1 ht).2) (fun u hu p hp => ?_) (fun x hx => ?_)
  · rw [hviews] at hu
    obtain ⟨t, ht, rfl⟩ := List.mem_map.1 hu
    split at hp
    · next hid =>
      -- what is left of the View lies outside the pieces
      obtain ⟨hact, hout⟩ := (active_without hs hle).1 hp
      obtain ⟨tag, htag, hti, ht0⟩ := h.used v hv p hact
      refine ⟨tag, ?_, ?_, ht0⟩
      · refine (hr.outside _ fun x hx hin => hout ?_).trans htag
        have hinx := htile.inside x hx
        have := (hbyte p).2 ⟨by omega, by omega⟩
        omega
      · rw [if_pos hid]
        exact hti
    · next hid =>
      obtain ⟨tag, htag, hti, ht0⟩ := h.used t ht p hp
      obtain ⟨tag', h1, _, h2⟩ := hr.keep _ tag htag
      rw [if_neg hid]
      rcases h2 with rfl | ⟨hid', _⟩
      · exact ⟨tag', h1, hti, ht0⟩
      · exact absurd (hti.symm.trans hid') hid
  · obtain ⟨p, hpa, rfl⟩ := List.mem_map.1 hx
    obtain ⟨hin, hact⟩ := (mem_activeIn hs).1 hpa
    refine ⟨rfl, ⟨v, hv, rfl⟩, ?_⟩
    obtain ⟨tag, htag, hti, ht0⟩ := h.used v hv p hact
    obtain ⟨tag', h1, hid', h2⟩ := hr.keep _ tag htag
    refine ⟨tag', h1, hid'.trans hti, .inr ?_⟩
    obtain ⟨x, hx, hx1, hx2⟩ := htile.all _ ((hbyte p).1 hin).1 ((hbyte p).1 hin).2
    obtain ⟨tag2, htag2, _, hxt⟩ := htile.tag x hx _ hx1 hx2
    cases htag.symm.trans htag2
    rcases h2 with rfl | ⟨_, _, hmem, hge⟩
    · exact absurd ht0 (hr.gone x hx (hxt.symm.trans ht0) _ hx1 hx2 tag' h1 hti)
    · exact mem_filter.2 ⟨hmem, by simpa using hge⟩

theorem fenced_reclaim (hok : Ok top w) (h : Fenced w) (hd : tickets ∈ w.due) :
    Fenced { w with
      due := w.due.erase tickets,
      occ := { w.occ with occ := tickets.foldl reclaim w.occ.occ } } := by
  have hz : 0 ∉ tickets := hok.tickets tickets (by simp [hd])
  have hturn : ∀ t ∈ tickets, w.log.ticketTurn t ≤ w.log.confirmed :=
    h.settled tickets (mem_append_right _ hd)
  have hkeep : ∀ a tag, w.atlas a = some tag → tag.ticket ∉ tickets →
      (tickets.foldl reclaim w.occ.occ).atlas a = some tag := by
    intro a tag htag hno
    rw [reclaims_atlas hok.base.good, filter_eq_some_iff]
    exact ⟨htag, by simpa using hno⟩
  have hm : Moves top w _ _ := .reclaim hd
  refine ⟨h.clean, h.fencing, h.turns, hm.tickets_lt hok h,
    fun ts hts => h.settled ts ?_, h.listed, fun v hv p hp => ?_, fun x hx => ?_, h.lost⟩
  · simp only [mem_append] at hts ⊢
    exact hts.imp_right mem_of_mem_erase
  · obtain ⟨tag, htag, hti, ht0⟩ := h.used v hv p hp
    exact ⟨tag, hkeep _ tag htag (ht0 ▸ hz), hti, ht0⟩
  obtain ⟨h1, h2, h3⟩ := h.wiped x hx
  refine ⟨h1, h2, fun hlt => ?_⟩
  obtain ⟨tag, htag, hti, hrest⟩ := h3 hlt
  refine ⟨tag, hkeep _ tag htag fun hm => ?_, hti, hrest⟩
  rcases hrest with h0 | hge
  · exact hz (h0 ▸ hm)
  · have := hturn _ hm
    dsimp only at hlt
    omega

variable {kernel : Bool}

/-- Other sections keep the tickets in hand confirmed. -/
theorem fenced_step (hok : Ok top w) (h : Fenced w) (hc : Careful w act)
    (hs : step top kernel w act = some w') : Fenced w' := by
  have hm := moves_of_step hok hs
  -- a call that moves on, with nothing but its tickets
  have jobs : w'.log = w.log → w'.st.views = w.st.views →
      (w'.st.invalidation = .clean → w.st.invalidation = .clean) →
      (w'.st.invalidation = .fencing → w.st.invalidation = .fencing) → w'.occ = w.occ →
      (∀ ts ∈ w'.withdrawn ++ w'.due, ts ∈ w.withdrawn ++ w.due ∨ w.st.invalidation = .clean ∨
        ts ⊆ w.log.listed) →
      w'.lost = w.lost → Fenced w' := fun h1 h2 h3 h4 h5 h6 h7 =>
    h.quiet hok hm (quiet_of_views h h1 h2 h3 h4
      (fun a tag ht _ => by rwa [World.atlas, h5]) h6 h7)
  -- only the occupancy table changes
  have occupancy : w'.log = w.log → w'.st = w.st → w'.withdrawn ++ w'.due = w.withdrawn ++ w.due →
      (∀ a tag, w.atlas a = some tag → (∃ v ∈ w.st.views, v.id = tag.id) →
        w'.atlas a = some tag) → w'.lost = w.lost → Fenced w' := fun h1 h2 h3 h4 h5 =>
    h.quiet hok hm (quiet_of_views h h1 (h2 ▸ rfl) (h2 ▸ id) (h2 ▸ id) h4
      (fun ts hts => .inl (h3 ▸ hts)) h5)
  have hm' := hm
  cases hm with
  | splits hsp =>
    obtain ⟨root, rfl, _⟩ := hsp
    exact jobs rfl rfl id id rfl (fun _ hts => .inl hts) rfl
  | counts hslots _ _ =>
    exact occupancy rfl rfl rfl (fun a _ ht _ => (congrFun (atlas_of_slots hslots) a).trans ht) rfl
  | reserve he _ _ =>
    exact occupancy rfl rfl rfl (fun _ _ ht _ => reserve_keep hok.base.good he ht) rfl
  | @giveBack _ r hr =>
    exact occupancy rfl rfl rfl (fun _ _ ht ⟨_, hv, hid⟩ => release_keep hok.base.good r ht
      (.inl fun heq => hok.base.fresh_id hv hr (hid.trans heq))) rfl
  | @install r _ _ _ _ frames _ v _ hr hv _ _ =>
    obtain ⟨hs, hid, hst, hpg, hpub⟩ := new_spec hv
    have hl := publishAll_lessens hs (installFrames_spec hs hpub frames)
    refine h.quiet hok hm' ⟨rfl, by simp, by simp, fun _ _ h _ => h, fun u hu p hp => ?_,
      fun _ hts => .inl hts, h.lost⟩
    rcases mem_append.1 hu with hu | hu
    · exact .inl ⟨u, hu, rfl, hp⟩
    rw [mem_singleton] at hu
    subst hu
    right
    -- its span is in hand until now
    have hspan := hs.mem_span (hl.active p hp)
    obtain ⟨h1, h2⟩ := Reservation.first_le (r := r) (p := p) (by omega) (by omega)
    obtain ⟨tag, htag, htid, ht0⟩ := (hok.base.held r hr).mine _ h1 h2
    exact ⟨tag, htag, by rw [htid, hl.id, hid], ht0⟩
  | @publish _ _ _ _ frames v _ hv hcov hlent _ =>
    have hmem := (view_spec hv).1
    have hsound := hok.base.sound v hmem
    exact h.quiet hok hm' (quiet_put h hmem
      (publishAll_lessens hsound (fresh_spec hsound frames hcov hlent)) rfl rfl)
  | @reshape _ v _ _ _ _ _ _ _ _ _ hv hr _ _ =>
    exact h.quiet hok hm' (quiet_put h hv (reshape_lessens (hok.base.sound v hv) hr) rfl rfl)
  | withdraw hv hlen hclean ht hr _ =>
    exact fenced_withdraw hok h hm' hv hlen hclean ht hr rfl rfl rfl rfl rfl
  | @unpublish _ v p _ held _ _ hv hstart hclean hheld _ =>
    have hs := hok.base.sound v hv
    refine h.clear hok hm' _ _ rfl hclean rfl rfl rfl (by simp)
      (fun u hu q hq => ?_) (fun x hx => ?_)
    · obtain ⟨t, ht, rfl⟩ := List.mem_map.1 hu
      split at hq
      · next hid =>
        rw [if_pos hid]
        exact h.used v hv q hq
      · next hid =>
        rw [if_neg hid]
        exact h.used t ht q hq
    obtain rfl := mem_singleton.1 hx
    have hpage : held.1 = p - v.start := by simpa using List.find?_some hheld
    have hact := hs.active held (mem_of_find?_eq_some hheld)
    rw [hpage, Nat.add_sub_cancel' hstart] at hact
    obtain ⟨tag, htag, hti, ht0⟩ := h.used v hv p hact
    exact ⟨rfl, ⟨v, hv, rfl⟩, tag, htag, hti, .inl ht0⟩
  | close hclean _ =>
    refine h.clear hok hm' [] (w.st.views.flatMap fun v =>
        (v.activeIn v.start v.pages).map fun p => ⟨v.id, p, w.log.clears + 1⟩) (by simp) hclean rfl
      rfl rfl (by simp) (fun u hu q hq => ?_) (fun x hx => ?_)
    · obtain ⟨t, _, rfl⟩ := List.mem_map.1 hu
      simp [View.Active, ActiveRange.currentAt] at hq
    obtain ⟨v, hv, hx⟩ := mem_flatMap.1 hx
    obtain ⟨p, hp, rfl⟩ := List.mem_map.1 hx
    obtain ⟨_, hact⟩ := (mem_activeIn (hok.base.sound v hv)).1 hp
    obtain ⟨tag, htag, hti, ht0⟩ := h.used v hv p hact
    exact ⟨rfl, ⟨v, hv, rfl⟩, tag, htag, hti, .inl ht0⟩
  | fence =>
    exact { h with
      clean := by simp
      fencing := fun _ => rfl }
  | confirm hf =>
    have hall := h.fencing hf
    refine { h with
      clean := fun _ => hall
      fencing := by simp
      settled := fun ts hts t ht => hall ▸ h.turns t
      listed := fun t ht => ⟨(h.listed t ht).1, hall ▸ h.turns t⟩
      wiped := fun x hx => ?_ }
    obtain ⟨h1, h2, _⟩ := h.wiped x hx
    refine ⟨h1, h2, fun hlt => ?_⟩
    dsimp only at hlt
    omega
  | fail => exact jobs rfl rfl (by simp) (by simp) rfl (fun _ hts => .inl hts) rfl
  | attached | attachFailed _ | withdrawalFailed =>
    exact jobs rfl rfl id id rfl (fun _ hts => .inl hts) rfl
  | retry hclean =>
    exact { h with listed := fun t ht =>
      ⟨h.drawn _ (by simp [World.ticketLists]) t ht, h.clean hclean ▸ h.turns t⟩ }
  | settle =>
    exact occupancy rfl rfl rfl (fun a _ ht _ =>
      (congrFun (atlas_of_slots (takeCleanup_slots _ _)) a).trans ht) rfl
  | lose _ hno => exact absurd hc hno
  | giveBackLost hr => simp [h.lost] at hr
  | withdrawalDone _ hclean => exact jobs rfl rfl id id rfl (fun _ _ => .inr (.inl hclean)) rfl
  | retain hr =>
    refine jobs rfl rfl id id rfl (fun ts hts => .inl ?_) rfl
    simp only [mem_append, mem_cons] at hts ⊢
    rcases hts with hts | rfl | hts
    · exact .inl (mem_of_mem_erase hts)
    · exact .inl hr
    · exact .inr hts
  | take =>
    refine jobs rfl rfl id id rfl (fun ts hts => ?_) rfl
    simp only [mem_append, mem_cons] at hts ⊢
    rcases hts with hts | rfl | hts
    · exact .inl (.inl hts)
    · exact .inr hc
    · exact .inl (.inr hts)
  | reclaim hd => exact fenced_reclaim hok h hd

/-- Every careful run keeps the fence. -/
theorem fenced_runs (h : Runs top kernel Careful w) : Fenced w := by
  induction h with
  | start => exact fenced_initial
  | step hr hc hs ih => exact fenced_step (ok_runs hr) ih hc hs

/-! ## What is handed back -/

/-- Retired spans, frames and tables stay where they are. -/
structure Holds (w w' : World) : Prop where
  spans : ∀ a tag, w.atlas a = some tag → tag.ticket ≠ 0 → w'.atlas a = some tag
  frames : w.st.retiredFrames <+: w'.st.retiredFrames
  tables : w.st.retiredTables <+: w'.st.retiredTables

theorem Holds.same (hocc : w'.occ = w.occ) (hf : w.st.retiredFrames <+: w'.st.retiredFrames)
    (ht : w.st.retiredTables <+: w'.st.retiredTables) : Holds w w' := by
  refine ⟨fun a tag h _ => ?_, hf, ht⟩
  unfold World.atlas at h ⊢
  rwa [hocc]

/-- Only a reclamation takes retired spans, and only a confirmed shootdown retired frames and
tables. -/
theorem step_holds (hok : Ok top w) (hs : step top kernel w act = some w')
    (hr : ∀ tickets, act ≠ .reclaim tickets) (hc : act ≠ .confirm) : Holds w w' := by
  cases moves_of_step hok hs with
  | splits hsp =>
    obtain ⟨root, rfl, _⟩ := hsp
    exact .same rfl (prefix_refl _) (prefix_refl _)
  | counts hslots _ _ =>
    exact ⟨fun a _ ht _ => (congrFun (atlas_of_slots hslots) a).trans ht, prefix_refl _,
      prefix_refl _⟩
  | reserve he _ _ =>
    exact ⟨fun _ _ ht _ => reserve_keep hok.base.good he ht, prefix_refl _,
      prefix_refl _⟩
  | @giveBack _ r _ | @giveBackLost r _ =>
    exact ⟨fun _ _ ht hne => release_keep hok.base.good r ht (.inr hne), prefix_refl _,
      prefix_refl _⟩
  | withdraw _ _ _ _ hrs _ =>
    refine ⟨fun a tag ht hne => ?_, prefix_append _ _, prefix_append _ _⟩
    obtain ⟨tag', h1, _, rfl | ⟨_, h0, _⟩⟩ := hrs.keep a tag ht
    · exact h1
    · exact absurd h0 hne
  | unpublish | close => exact .same rfl (prefix_append _ _) (prefix_append _ _)
  | settle =>
    exact ⟨fun a _ ht _ => (congrFun (atlas_of_slots (takeCleanup_slots _ _)) a).trans ht,
      prefix_refl _, prefix_refl _⟩
  | confirm => exact absurd rfl hc
  | reclaim => exact absurd rfl (hr _)
  | _ => exact .same rfl (prefix_refl _) (prefix_refl _)

theorem settled_confirmed (hok : Ok top w) (h : Fenced w) (hset : w.settled id = true)
    (hphase : w.st.phase ≠ .closed) {x : Wipe} (hx : x ∈ w.log.wipes) (hid : x.id = id) :
    x.turn ≤ w.log.confirmed := by
  by_contra hlt
  obtain ⟨tag, htag, hti, _⟩ := (h.wiped x hx).2.2 (by omega)
  obtain ⟨slot, hslot, _, rfl⟩ := (atlas_eq_some hok.base.good.ordered).1 htag
  have hno : w.occ.occ.hasId id = false := by
    simpa [World.settled, hphase] using hset
  have : w.occ.occ.hasId id = true := by
    unfold hasId
    exact List.any_eq_true.2 ⟨slot, hslot, by simpa using hti.trans hid⟩
  simp [this] at hno

/-- In a run of careful sections a retired span leaves the occupancy table only after its clearing
is confirmed, retired frames and tables are released only by a shootdown that confirms all
clearings, and a relation is settled only when every translation that was cleared for it is
confirmed. -/
theorem retirement_safe {kernel : Bool} (h : Runs top kernel Careful w) :
    (∀ act w', Careful w act → step top kernel w act = some w' →
      (∀ a tag, w.atlas a = some tag → tag.ticket ≠ 0 → w'.atlas a ≠ some tag →
        w.log.ticketTurn tag.ticket ≤ w.log.confirmed) ∧
      ((w.st.retiredFrames <+: w'.st.retiredFrames ∧ w.st.retiredTables <+: w'.st.retiredTables) ∨
        w'.log.confirmed = w.log.clears)) ∧
    ∀ id, w.settled id = true → w.st.phase ≠ .closed →
      ∀ x ∈ w.log.wipes, x.id = id → x.turn ≤ w.log.confirmed := by
  have hok := ok_runs h
  have hf := fenced_runs h
  refine ⟨fun act w' _ hs => ?_, fun id hset hphase x hx hid =>
    settled_confirmed hok hf hset hphase hx hid⟩
  by_cases hr : ∃ tickets, act = .reclaim tickets
  · obtain ⟨tickets, rfl⟩ := hr
    -- a reclamation takes the spans of its own tickets, which are confirmed
    simp only [step] at hs
    split at hs
    · next hd =>
      cases hs
      refine ⟨fun a tag ht _ hgone => ?_, .inl ⟨prefix_refl _, prefix_refl _⟩⟩
      by_cases hm : tag.ticket ∈ tickets
      · exact hf.settled tickets (mem_append_right _ hd) _ hm
      refine absurd ?_ hgone
      unfold World.atlas
      rw [reclaims_atlas hok.base.good, filter_eq_some_iff]
      exact ⟨ht, by simpa using hm⟩
    · simp at hs
  by_cases hc : act = .confirm
  · subst hc
    simp only [step] at hs
    split at hs
    · next hfence =>
      cases hs
      exact ⟨fun a tag ht _ hgone => absurd ht hgone, .inr (hf.fencing hfence)⟩
    · simp at hs
  · have hh := step_holds hok hs (fun t ht => hr ⟨t, ht⟩) hc
    exact ⟨fun a tag ht hne hgone => absurd (hh.spans a tag ht hne) hgone,
      .inl ⟨hh.frames, hh.tables⟩⟩

end

/-- A page is lent, withdrawn, and its span reclaimed after the shootdown. -/
def lentAndWithdrawn : List Act :=
  [reserveAt 512 0, lend 1 512 0 1024 100, .fence, .confirm, .attached (spanOf 1 512 0),
    .withdraw 1 512 1 100, .fence, .confirm, .withdrawalDone [1], .retain [1], .reclaim [1]]

/-- The relation is settled, and the clearing of its page was confirmed. -/
theorem retirement_safe_withdrawn : ∃ w, execute 2 false lentAndWithdrawn = some w ∧
    w.settled 1 = true ∧ w.log.clears = 1 ∧ ∃ x ∈ w.log.wipes, x.id = 1 ∧
      x.turn ≤ w.log.confirmed := by
  have h : (execute 2 false lentAndWithdrawn).any (fun w =>
      w.settled 1 && w.st.phase = .opened && w.log.clears = 1 && w.log.wipes.any (·.id = 1)) =
      true := by decide +kernel
  have hcareful : ∀ act ∈ lentAndWithdrawn, ∀ w, Careful w act := by
    intro act hact w
    simp only [lentAndWithdrawn, mem_cons, not_mem_nil, or_false] at hact
    rcases hact with rfl | rfl | rfl | rfl | rfl | rfl | rfl | rfl | rfl | rfl | rfl <;>
      exact trivial
  cases he : execute 2 false lentAndWithdrawn with
  | none => simp [he] at h
  | some w =>
    simp only [he, any_some, List.any_eq_true, Bool.and_eq_true, decide_eq_true_eq] at h
    obtain ⟨⟨⟨hset, hphase⟩, hclears⟩, x, hx, hid⟩ := h
    have hrun : Runs 2 false Careful w := runs_execute hcareful he
    exact ⟨w, rfl, hset, hclears, x, hx, hid,
      (retirement_safe hrun).2 1 hset (by simp [hphase]) x hx hid⟩

/-- A retry sees that nothing is owed; before it takes the tickets a withdrawal clears the page and
lists its ticket, and the span goes before any shootdown. -/
theorem retired_early : ∃ w, Runs 2 false (fun _ _ => True) w ∧ w.settled 1 = true ∧
    w.st.phase ≠ .closed ∧ ∃ x ∈ w.log.wipes, x.id = 1 ∧ w.log.confirmed < x.turn := by
  let acts : List Act := [reserveAt 512 0, lend 1 512 0 1024 100, .fence, .confirm,
    .attached (spanOf 1 512 0), .retry, .withdraw 1 512 1 100, .take, .reclaim [1]]
  have h : (execute 2 false acts).any (fun w => w.settled 1 && w.st.phase = .opened &&
      w.log.wipes.any fun x => x.id = 1 && w.log.confirmed < x.turn) = true := by decide +kernel
  cases he : execute 2 false acts with
  | none => simp [he] at h
  | some w =>
    simp only [he, any_some, List.any_eq_true, Bool.and_eq_true, decide_eq_true_eq] at h
    obtain ⟨⟨hset, hphase⟩, x, hx, hid, hlt⟩ := h
    exact ⟨w, runs_execute (fun _ _ _ => trivial) he, hset, by simp [hphase], x, hx, hid, hlt⟩

end Sqware.Nest
