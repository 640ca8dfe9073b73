import Sqware.Nest.Sections

/-!
# Runs of a Nest
-/

namespace Sqware.Nest

open List hiding span

open Spans TableNode NestState Option View Occupancy

/-- All lists of tickets. -/
def World.ticketLists (w : World) : List (List Nat) :=
  w.st.retirement :: (w.withdrawing ++ w.withdrawn ++ w.due)

/-- What every state that a Nest reaches has, whatever its page table became. -/
structure Ok (top : Nat) (w : World) : Prop where
  base : Base top w.occ w.st.views w.loose
  installed : ∀ r ∈ w.attaching ++ w.failed ++ w.lost, ∃ v ∈ w.st.views, v.id = r.id
  tickets : ∀ ts ∈ w.st.retirement :: (w.withdrawing ++ w.withdrawn ++ w.due), 0 ∉ ts

theorem ok_initial (top : Nat) : Ok top {} := by
  refine ⟨⟨⟨ordered_nil, ?_, ?_, ?_, ?_⟩, ?_, ?_, ?_, ?_, ?_, ?_, ?_, ?_⟩, ?_, ?_⟩ <;> simp

section

variable {top id : Nat} {w w' : World} {s : NestState} {v : View}

theorem view_spec (h : s.view id = some v) : v ∈ s.views ∧ v.id = id :=
  ⟨mem_of_find?_eq_some h, by simpa using List.find?_some h⟩

variable {o : Occupancy.State}

theorem Base.put {loose : List Reservation} {v' : View} (h : Base top o s.views loose)
    (hv : v ∈ s.views) (hl : Lessens v v') : Base top o (s.put v').views loose := by
  refine h.map fun u hu => ?_
  split
  · next hid => exact h.eq_of_id hu hv (hid.trans hl.id) ▸ hl
  · exact .refl (h.sound u hu)

/-- Installed reservations stay so as long as no View goes. -/
theorem installed_mono {s' : NestState} {rs rs' : List Reservation}
    (h : ∀ r ∈ rs, ∃ v ∈ s.views, v.id = r.id) (hr : rs' ⊆ rs)
    (hs : ∀ id ∈ s.views.map View.id, id ∈ s'.views.map View.id) :
    ∀ r ∈ rs', ∃ v ∈ s'.views, v.id = r.id := by
  intro r hm
  obtain ⟨v, hv, hid⟩ := h r (hr hm)
  obtain ⟨v', hv', hid'⟩ := List.mem_map.1 (hs v.id (List.mem_map_of_mem hv))
  exact ⟨v', hv', hid'.trans hid⟩

theorem put_ids (v : View) : (s.put v).views.map View.id = s.views.map View.id := by
  unfold put
  rw [List.map_map]
  refine map_congr_left fun u _ => ?_
  simp only [Function.comp_apply]
  split
  · next hid => exact hid.symm
  · rfl

theorem publishAll_lessens (h : v.Sound) {frames : List (Nat × Nat)}
    (hf : (frames.Pairwise fun x y => x.1 < y.1) ∧
      (∀ x ∈ frames, v.publishes x.1 = false ∧ v.Active (v.start + x.1)) ∧
      (v.borrows = true → frames = [])) :
    Lessens v (v.publishAll frames) := by
  have hs := h.publishAll hf.1 (fun x hx => (hf.2.1 x hx).1) (fun x hx => (hf.2.1 x hx).2) hf.2.2
  obtain ⟨ps, hps⟩ := v.publishAll_eq frames
  rw [hps] at hs ⊢
  exact ⟨rfl, rfl, rfl, hs, fun _ h => h⟩

variable {hi' lo' : Nat}

theorem reshape_lessens (h : v.Sound) {next : List ActiveRange}
    {permission : Nat → Option LeafAccess} (hr : Reshapes v lo' hi' next permission) :
    Lessens v { v with active := next } :=
  ⟨rfl, rfl, rfl, h.reshape hr.ordered hr.inside hr.active, fun p hp => (hr.active p).symm.trans hp⟩

theorem without_lessens (h : v.Sound) (hle : lo' ≤ hi') : Lessens v (v.without lo' hi') :=
  ⟨rfl, rfl, rfl, h.without hle, fun _ hp => ((active_without h hle).1 hp).1⟩

variable {tickets : List Nat} {o' : Occupancy.State}

/-- Pieces of a View that are withdrawn leave the spans in hand alone. -/
theorem Base.retire {views : List View} {loose : List Reservation} (h : Base top o views loose)
    (hv : v ∈ views) {ps : List (Nat × Nat × Nat)} (hr : Occupancy.Retires v.id ps o o' tickets) :
    Base top o' views loose := by
  refine h.shrink hr.good hr.ids.ge hr.shrinks fun r hm a tag htag hid _ => ?_
  obtain ⟨tag', h1, _, h2⟩ := hr.keep a tag htag
  rcases h2 with rfl | ⟨hid', _⟩
  · exact h1
  · exact absurd (hid'.symm.trans hid) (h.fresh_id hv hm)

theorem Retires.of_withdraw (hg : Occupancy.Good o) {room : Bool} {start len : Nat}
    {pieces : List (Nat × Nat × Nat)}
    (hp : o.occ.pieces room (start * pageSize) (start * pageSize + (len * pageSize - 1)) id =
      .ok pieces)
    (hr : retirePieces id pieces o = some (o', tickets)) :
    Occupancy.Tiles o.occ.atlas id (start * pageSize)
      (start * pageSize + (len * pageSize - 1)) pieces ∧
      Occupancy.Retires id pieces o o' tickets := by
  unfold Occupancy.pieces at hp
  split at hp
  case isFalse => simp at hp
  have ht := piecesFrom_tiles hg.ordered (fun s hs => hs) (Nat.le_add_right _ _) hp
  exact ⟨ht, retirePieces_retires hg (fun x hx => (ht.inside x hx).2.1) hr⟩

theorem Retires.pos (hg : Occupancy.Good o) {ps : List (Nat × Nat × Nat)}
    (h : Occupancy.Retires id ps o o' tickets) : 0 ∉ tickets := by
  intro hz
  rcases h.drawn 0 hz with ⟨h1, _⟩ | ⟨h1, _⟩
  · exact absurd hg.tickets_pos (by omega)
  · exact h1 rfl

/-- What a section can come to. -/
inductive Moves (top : Nat) (w : World) : Act → World → Prop
  -- it failed, or found nothing to do
  | splits {act : Act} {st : NestState} (h : Splits top w.st st) : Moves top w act { w with st }
  -- the slots stay as they are
  | counts {act : Act} {o : Occupancy.State} (hslots : o.occ.slots = w.occ.occ.slots)
      (hids : w.occ.ids ≤ o.ids) (ht : w.occ.tickets ≤ o.tickets) :
      Moves top w act { w with occ := o }
  | reserve {r₁ r₂ : Bool} {p : Placement} {occ : Occupancy} {start id ids : Nat}
      (he : w.occ.occ.reserve w.occ.ids r₁ r₂ p = (.ok (occ, start, id), ids))
      (hfit : pageSize ∣ start ∧ start + p.size ≤ span (top + 1) * pageSize)
      (hpos : 0 < p.size / pageSize) :
      Moves top w (.reserve r₁ r₂ p) { w with
        occ := { w.occ with occ, ids },
        loose := ⟨id, start / pageSize, p.size / pageSize, hpos⟩ :: w.loose }
  | giveBack {act : Act} {r : Reservation} (hr : r ∈ w.loose) :
      Moves top w act { w with occ := w.giveBack r, loose := w.loose.erase r }
  | install {r : Reservation} {attrs : PteFlags} {ha} {active : List ActiveRange} {source : Source}
      {frames : Materialized r.pages} {room : Nat} {v : View} {root : TableNode} (hr : r ∈ w.loose)
      (hv : View.new r attrs ha active source = .ok v)
      (hover : ∀ u ∈ w.st.views, u.overlaps v.start v.last = false)
      (hm : MapsIn top v (v.installRuns (v.installFrames frames.frames)) w.st.root root) :
      Moves top w (.install r attrs ha active source frames room) { w with
        st := { w.st with
          root, views := w.st.views ++ [v.publishAll (v.installFrames frames.frames)],
          invalidation := .dirty },
        loose := w.loose.erase r, attaching := r :: w.attaching }
  | publish {id first len room : Nat} {frames : Materialized len} {v : View} {root : TableNode}
      (hv : w.st.view id = some v) (hcov : v.covers first (first + (len - 1)) = true)
      (hlent : v.borrows = false)
      (hm : MapsIn top v (v.runs (v.fresh first frames.frames)) w.st.root root) :
      Moves top w (.publish id first len frames room) { w with
        st := { { w.st with root }.put (v.publishAll (v.fresh first frames.frames)) with
          invalidation := .dirty } }
  | reshape {act : Act} {v : View} {lo' hi' room room' : Nat} {next : List ActiveRange}
      {permission : Nat → Option LeafAccess} {us : List (Nat × LeafAccess)}
      {root₁ root₂ : TableNode} (hv : v ∈ w.st.views) (hr : Reshapes v lo' hi' next permission)
      (hp : prepareUpdates top v permission (List.range' lo' (hi' + 1 - lo')) w.st.root room =
        (.ok us, root₁, room'))
      (hw : writeUpdates top v us root₁ = some root₂) :
      Moves top w act { w with
        st := { { w.st with root := root₂ }.put { v with active := next } with
          invalidation := .dirty } }
  | withdraw {act : Act} {v : View} {start len : Nat} {o : Occupancy.State}
      {tickets : List Nat} {pieces : List (Nat × Nat × Nat)} {root : TableNode}
      {tables : List TableNode} (hv : v ∈ w.st.views) (hlen : 0 < len)
      (hclean : w.st.invalidation = .clean)
      (ht : Occupancy.Tiles w.occ.occ.atlas v.id (start * pageSize)
        (start * pageSize + (len * pageSize - 1)) pieces)
      (hr : Occupancy.Retires v.id pieces w.occ o tickets)
      (hm : Unmaps top start len w.st.root root) :
      Moves top w act { w with
        occ := o,
        st := { { w.st with root }.put (v.without start (start + (len - 1))) with
          retiredTables := w.st.retiredTables ++ tables,
          retiredFrames :=
            w.st.retiredFrames ++ ((v.publishedIn start (start + (len - 1))).map Prod.snd).reverse,
          retirement := w.st.retirement ++ tickets,
          invalidation := .dirty },
        withdrawing := tickets :: w.withdrawing,
        log := w.clear (tickets.filter (w.occ.tickets ≤ ·)) v.id (v.activeIn start len) }
  | unpublish {act : Act} {v : View} {p frame : Nat} {held : Nat × Nat} {root : TableNode}
      {tables : List TableNode} (hv : v ∈ w.st.views) (hstart : v.start ≤ p)
      (hclean : w.st.invalidation = .clean)
      (hheld : v.published.find? (·.1 = p - v.start) = some held)
      (hm : Unmaps top p 1 w.st.root root) :
      Moves top w act { w with
        st := { { w.st with root }.put { v with published := v.published.erase held } with
          retiredTables := w.st.retiredTables ++ tables,
          retiredFrames := w.st.retiredFrames ++ [frame],
          invalidation := .dirty },
        log := w.clear [] v.id [p] }
  | close {act : Act} {root : TableNode} {tables : List TableNode}
      (hclean : w.st.invalidation = .clean) (hm : UnmapsAll top w.st.views w.st.root root) :
      Moves top w act { w with
        st := { w.st with
          root,
          views := w.st.views.map fun v => { v with active := [], published := [] },
          retiredTables := w.st.retiredTables ++ tables,
          retiredFrames := w.st.retiredFrames ++ w.st.views.flatMap (·.published.map Prod.snd),
          invalidation := .dirty,
          phase := .closing },
        log := { w.log with
          clears := w.log.clears + 1,
          wipes := w.log.wipes ++ w.st.views.flatMap fun v =>
            (v.activeIn v.start v.pages).map fun p => ⟨v.id, p, w.log.clears + 1⟩ } }
  | fence : Moves top w .fence { w with
      st := { w.st with invalidation := .fencing }, log := { w.log with started := w.log.clears } }
  | confirm (hf : w.st.invalidation = .fencing) : Moves top w .confirm { w with
      st := { w.st with
        invalidation := .clean, phase := w.st.phase.settle,
        retiredFrames := [], retiredTables := [] },
      log := { w.log with confirmed := w.log.started } }
  | fail : Moves top w .fail { w with st := { w.st with invalidation := .failed } }
  | attached {r : Reservation} :
      Moves top w (.attached r) { w with attaching := w.attaching.erase r }
  | attachFailed {r : Reservation} (hr : r ∈ w.attaching) : Moves top w (.attachFailed r)
      { w with attaching := w.attaching.erase r, failed := r :: w.failed }
  | settle {r : Reservation} : Moves top w (.settleInstall r) { w with
      failed := w.failed.erase r, occ := Occupancy.step w.occ (.takeCleanup r.id) }
  | lose {r : Reservation} (hr : r ∈ w.failed) (hno : ¬ (w.st.find r.start).any (·.id = r.id)) :
      Moves top w (.settleInstall r) { w with failed := w.failed.erase r, lost := r :: w.lost }
  | giveBackLost {r : Reservation} (hr : r ∈ w.lost) : Moves top w (.giveBackLost r)
      { w with occ := w.giveBack r, lost := w.lost.erase r }
  | withdrawalDone {tickets : List Nat} (hr : tickets ∈ w.withdrawing)
      (hclean : w.st.invalidation = .clean) : Moves top w (.withdrawalDone tickets) { w with
        withdrawing := w.withdrawing.erase tickets, withdrawn := tickets :: w.withdrawn }
  | withdrawalFailed {tickets : List Nat} : Moves top w (.withdrawalFailed tickets)
      { w with withdrawing := w.withdrawing.erase tickets }
  | retain {tickets : List Nat} (hr : tickets ∈ w.withdrawn) :
      Moves top w (.retain tickets) { w with
      withdrawn := w.withdrawn.erase tickets, due := tickets :: w.due,
      st := { w.st with retirement := w.st.retirement.filter (· ∉ tickets) } }
  | retry (hc : w.st.invalidation = .clean) : Moves top w .retry { w with
      retrying := w.retrying + 1, log := { w.log with listed := w.st.retirement } }
  | take : Moves top w .take { w with
      retrying := w.retrying - 1, due := w.st.retirement :: w.due,
      st := { w.st with retirement := [] } }
  | reclaim {tickets : List Nat} (hd : tickets ∈ w.due) : Moves top w (.reclaim tickets) { w with
      due := w.due.erase tickets,
      occ := { w.occ with occ := tickets.foldl reclaim w.occ.occ } }

/-- A change of permissions, or the narrowing of a ceiling. -/
theorem Moves.of_reshape {act : Act} (hv : v ∈ w.st.views) {st : NestState}
    {answer : Except NestError Unit}
    (h : Splits top w.st st ∨ ∃ next permission room, Reshapes v lo' hi' next permission ∧
      w.st.reshape top v lo' hi' next permission room = some (answer, st)) :
    Moves top w act { w with st } := by
  rcases h with hsp | ⟨next, permission, room, hr, he⟩
  · exact .splits hsp
  unfold NestState.reshape at he
  split at he
  · next hp =>
    cases he
    exact .splits ⟨_, rfl, prepareUpdates_refines hp⟩
  next hp =>
  split at he
  · cases he
    exact .splits ⟨_, rfl, prepareUpdates_refines hp⟩
  split at he
  · simp at he
  · next hw =>
    cases he
    exact .reshape hv hr hp hw

theorem moves_of_step {kernel : Bool} {act : Act} (h : Ok top w)
    (hs : step top kernel w act = some w') : Moves top w act w' := by
  cases act with
  | reserve r1 r2 p =>
    simp only [step] at hs
    split at hs
    · next he =>
      cases hs
      exact .counts rfl (reserve_error_ids he).ge le_rfl
    next he =>
    split at hs
    · next hfit =>
      cases hs
      exact .reserve he hfit _
    · simp at hs
  | elsewhere ids tickets =>
    cases hs
    exact .counts rfl (le_max_left _ _) (le_max_left _ _)
  | prepareCleanup room id =>
    cases hs
    exact .counts (settle_slots fun _ he => prepareCleanup_slots he)
      (by simp [Occupancy.step]) (by simp [Occupancy.step])
  | takeCleanup id =>
    cases hs
    exact .counts (takeCleanup_slots _ _) le_rfl le_rfl
  | install r attrs ha active source frames room =>
    obtain ⟨hr, hs⟩ := ite_none_right_eq_some.1 hs
    split at hs
    · cases hs
      exact .giveBack hr
    next v hv =>
    split at hs
    · simp at hs
    · cases hs
      exact .splits (.refl top w.st)
    split at hs
    · simp at hs
    · next he =>
      cases hs
      rcases install_cases he with ⟨_, hsp⟩ | ⟨hok, _⟩
      · exact .splits hsp
      · simp at hok
    next he =>
    cases hs
    rcases install_cases he with ⟨⟨e, hno⟩, _⟩ | ⟨_, hover, root, hm, rfl⟩
    · simp at hno
    · exact .install hr hv hover hm
  | publish id first len frames room =>
    simp only [step] at hs
    split at hs
    · next v hv _ =>
      obtain ⟨⟨answer, st⟩, he, rfl⟩ := map_eq_some_iff.1 hs
      rcases publishSpan_cases he with hsp | ⟨hcov, hlent, root, hm, rfl⟩
      · exact .splits hsp
      · exact .publish hv hcov hlent hm
    · simp at hs
  | setAccess id lo' hi' access room =>
    simp only [step] at hs
    split at hs
    · next v hv _ =>
      obtain ⟨hle, hs⟩ := ite_none_right_eq_some.1 hs
      obtain ⟨⟨answer, st⟩, he, rfl⟩ := map_eq_some_iff.1 hs
      have hmem := (view_spec hv).1
      exact .of_reshape hmem (setAccess_cases (h.base.sound v hmem) hle he)
    · simp at hs
  | narrow id lo' hi' ceiling room =>
    simp only [step] at hs
    split at hs
    · next v hv _ =>
      obtain ⟨hle, hs⟩ := ite_none_right_eq_some.1 hs
      obtain ⟨⟨answer, st⟩, he, rfl⟩ := map_eq_some_iff.1 hs
      have hmem := (view_spec hv).1
      exact .of_reshape hmem (narrow_cases (h.base.sound v hmem) hle he)
    · simp at hs
  | withdraw id start len room =>
    simp only [step] at hs
    split at hs
    · simp at hs
    next v hv =>
    obtain ⟨hmem, hid⟩ := view_spec hv
    split at hs
    · simp at hs
    · next he =>
      cases hs
      rcases withdraw_cases he with ⟨_, rfl, hsp⟩ | ⟨_, _, _, _, _, hok, _⟩
      · exact .splits hsp
      · simp at hok
    next he =>
    cases hs
    rcases withdraw_cases he with
      ⟨⟨e, hno⟩, _⟩ | ⟨_, pieces, root, tables, hlen, hok, _, hclean, hp, hret, hm, rfl⟩
    · simp at hno
    · cases hok
      obtain ⟨ht, hr⟩ := Retires.of_withdraw h.base.good hp hret
      exact hid ▸ .withdraw hmem hlen hclean ht hr hm
  | unpublish id p frame room =>
    simp only [step] at hs
    split at hs
    · simp at hs
    next v hv =>
    obtain ⟨hmem, hid⟩ := view_spec hv
    split at hs
    · simp at hs
    next hp =>
    split at hs
    · simp at hs
    · next he =>
      cases hs
      rcases unpublishPage_cases he with ⟨hsp, _⟩ | ⟨_, _, _, hok, _⟩
      · exact .splits hsp
      · simp at hok
    next he =>
    rcases unpublishPage_cases he with
      ⟨hsp, hno⟩ | ⟨held, root, tables, _, _, hclean, hheld, hm, rfl⟩
    · rw [hno rfl] at hs
      cases hs
      exact .splits hsp
    have hpub : v.publishes (p - v.start) = true := publishes_iff.2
      ⟨held, mem_of_find?_eq_some hheld, by simpa using List.find?_some hheld⟩
    rw [hpub] at hs
    cases hs
    exact hid ▸ .unpublish hmem (by omega) hclean hheld hm
  | close room =>
    obtain ⟨hclean, hs⟩ := ite_none_right_eq_some.1 hs
    have hviews : ∀ v ∈ w.st.views, v.Sound ∧ v.start + v.pages ≤ span (top + 1) := fun v hv =>
      ⟨h.base.sound v hv, h.base.fits v hv⟩
    split at hs
    · next he =>
      cases hs
      rcases close_cases hviews he with ⟨hsp, _⟩ | ⟨_, _, hok, _⟩
      · exact .splits hsp
      · simp at hok
    next he =>
    rcases close_cases hviews he with ⟨hsp, hcl⟩ | ⟨root, tables, _, hphase, hm, rfl⟩
    · rw [if_pos (hcl rfl)] at hs
      cases hs
      exact .splits hsp
    · rw [if_neg hphase] at hs
      cases hs
      exact .close hclean hm
  | settleInstall r =>
    obtain ⟨hr, hs⟩ := ite_none_right_eq_some.1 hs
    split at hs
    · cases hs
      exact .settle
    · next hno =>
      cases hs
      exact .lose hr hno
  | giveBack r =>
    obtain ⟨hr, ⟨⟩⟩ := ite_none_right_eq_some.1 hs
    exact .giveBack hr
  | fence =>
    obtain ⟨_, ⟨⟩⟩ := ite_none_right_eq_some.1 hs
    exact .fence
  | confirm =>
    obtain ⟨hf, ⟨⟩⟩ := ite_none_right_eq_some.1 hs
    exact .confirm hf
  | fail =>
    obtain ⟨_, ⟨⟩⟩ := ite_none_right_eq_some.1 hs
    exact .fail
  | attached r =>
    obtain ⟨_, ⟨⟩⟩ := ite_none_right_eq_some.1 hs
    exact .attached
  | attachFailed r =>
    obtain ⟨hr, ⟨⟩⟩ := ite_none_right_eq_some.1 hs
    exact .attachFailed hr.1
  | giveBackLost r =>
    obtain ⟨hr, ⟨⟩⟩ := ite_none_right_eq_some.1 hs
    exact .giveBackLost hr
  | withdrawalDone tickets =>
    obtain ⟨hr, ⟨⟩⟩ := ite_none_right_eq_some.1 hs
    exact .withdrawalDone hr.1 hr.2
  | withdrawalFailed tickets =>
    obtain ⟨_, ⟨⟩⟩ := ite_none_right_eq_some.1 hs
    exact .withdrawalFailed
  | retain tickets =>
    obtain ⟨hr, ⟨⟩⟩ := ite_none_right_eq_some.1 hs
    exact .retain hr
  | retry =>
    obtain ⟨hc, ⟨⟩⟩ := ite_none_right_eq_some.1 hs
    exact .retry hc.1
  | take =>
    obtain ⟨_, ⟨⟩⟩ := ite_none_right_eq_some.1 hs
    exact .take
  | reclaim tickets =>
    obtain ⟨hd, ⟨⟩⟩ := ite_none_right_eq_some.1 hs
    exact .reclaim hd

/-! ## What every section keeps -/

section

variable {act : Act}

theorem Moves.ids (hm : Moves top w act w') : w.st.views.map View.id ⊆ w'.st.views.map View.id := by
  intro id hid
  cases hm with
  | splits h =>
    obtain ⟨root, rfl, _⟩ := h
    exact hid
  | install => exact map_append ▸ mem_append_left _ hid
  | publish | reshape | withdraw | unpublish => exact put_ids (s := w.st) _ ▸ hid
  | close => rwa [List.map_map]
  | _ => exact hid

/-- A ticket in hand was so before, or a withdrawal drew it. -/
theorem Moves.drawn (hm : Moves top w act w') {ts : List Nat} (hts : ts ∈ w'.ticketLists) {t : Nat}
    (ht : t ∈ ts) : (∃ us ∈ w.ticketLists, t ∈ us) ∨
      ∃ id ps tickets, (∀ x ∈ ps, ∃ tag, w.occ.occ.atlas x.1 = some tag ∧ tag.ticket = x.2.2) ∧
        Occupancy.Retires id ps w.occ w'.occ tickets ∧ t ∈ tickets := by
  cases hm with
  | splits h =>
    obtain ⟨root, rfl, _⟩ := h
    exact .inl ⟨ts, hts, ht⟩
  | @withdraw _ _ _ _ _ _ ps _ _ _ _ _ htile hr _ =>
    have hold : ∀ x ∈ ps, ∃ tag, w.occ.occ.atlas x.1 = some tag ∧ tag.ticket = x.2.2 := fun x hx =>
      have ⟨tag, htag, _, hti⟩ := htile.tag x hx x.1 le_rfl (htile.inside x hx).2.1
      ⟨tag, htag, hti⟩
    unfold World.ticketLists at hts ⊢
    simp only [cons_append, mem_cons] at hts
    rcases hts with rfl | rfl | hts
    · rcases mem_append.1 ht with ht | ht
      · exact .inl ⟨_, mem_cons_self, ht⟩
      · exact .inr ⟨_, _, _, hold, hr, ht⟩
    · exact .inr ⟨_, _, _, hold, hr, ht⟩
    · exact .inl ⟨ts, mem_cons_of_mem _ hts, ht⟩
  | withdrawalDone hr _ =>
    refine .inl ⟨ts, ?_, ht⟩
    unfold World.ticketLists at hts ⊢
    simp only [mem_append, mem_cons] at hts ⊢
    rcases hts with hts | (hts | rfl | hts) | hts
    · exact .inl hts
    · exact .inr (.inl (.inl (mem_of_mem_erase hts)))
    · exact .inr (.inl (.inl hr))
    · exact .inr (.inl (.inr hts))
    · exact .inr (.inr hts)
  | withdrawalFailed =>
    refine .inl ⟨ts, ?_, ht⟩
    unfold World.ticketLists at hts ⊢
    simp only [mem_append, mem_cons] at hts ⊢
    exact hts.imp_right fun hts => hts.imp_left fun hts => hts.imp_left mem_of_mem_erase
  | retain hr =>
    unfold World.ticketLists at hts ⊢
    simp only [mem_append, mem_cons] at hts
    rcases hts with rfl | (hts | hts) | rfl | hts
    · exact .inl ⟨_, mem_cons_self, mem_of_mem_filter ht⟩
    · exact .inl ⟨ts, by simp [hts], ht⟩
    · exact .inl ⟨ts, by simp [mem_of_mem_erase hts], ht⟩
    · exact .inl ⟨ts, by simp [hr], ht⟩
    · exact .inl ⟨ts, by simp [hts], ht⟩
  | take =>
    unfold World.ticketLists at hts ⊢
    simp only [mem_append, mem_cons] at hts
    rcases hts with rfl | (hts | hts) | rfl | hts
    · simp at ht
    · exact .inl ⟨ts, by simp [hts], ht⟩
    · exact .inl ⟨ts, by simp [hts], ht⟩
    · exact .inl ⟨_, mem_cons_self, ht⟩
    · exact .inl ⟨ts, by simp [hts], ht⟩
  | reclaim =>
    refine .inl ⟨ts, ?_, ht⟩
    unfold World.ticketLists at hts ⊢
    simp only [mem_append, mem_cons] at hts ⊢
    exact hts.imp_right fun hts => hts.imp_right mem_of_mem_erase
  | _ => exact .inl ⟨ts, hts, ht⟩

theorem Moves.installed (hm : Moves top w act w') (h : Ok top w) :
    ∀ r ∈ w'.attaching ++ w'.failed ++ w'.lost, ∃ v ∈ w'.st.views, v.id = r.id := by
  have hids := hm.ids
  cases hm with
  | splits hsp =>
    obtain ⟨root, rfl, _⟩ := hsp
    exact h.installed
  | install _ hv _ _ =>
    intro t ht
    simp only [cons_append, mem_cons] at ht
    rcases ht with rfl | ht
    · obtain ⟨ps, hps⟩ := publishAll_eq _ _
      refine ⟨_, mem_append_right _ (mem_singleton_self _), ?_⟩
      rw [hps]
      exact (new_spec hv).2.1
    · exact installed_mono h.installed (List.Subset.refl _) hids t ht
  | attached =>
    refine installed_mono h.installed (fun t ht => ?_) hids
    simp only [mem_append] at ht ⊢
    exact ht.imp_left fun ht => ht.imp_left mem_of_mem_erase
  | attachFailed hr =>
    refine installed_mono h.installed (fun t ht => ?_) hids
    simp only [mem_append, mem_cons] at ht ⊢
    rcases ht with (ht | rfl | ht) | ht
    · exact .inl (.inl (mem_of_mem_erase ht))
    · exact .inl (.inl hr)
    · exact .inl (.inr ht)
    · exact .inr ht
  | settle =>
    refine installed_mono h.installed (fun t ht => ?_) hids
    simp only [mem_append] at ht ⊢
    exact ht.imp_left fun ht => ht.imp_right mem_of_mem_erase
  | lose hr _ =>
    refine installed_mono h.installed (fun t ht => ?_) hids
    simp only [mem_append, mem_cons] at ht ⊢
    rcases ht with (ht | ht) | rfl | ht
    · exact .inl (.inl ht)
    · exact .inl (.inr (mem_of_mem_erase ht))
    · exact .inl (.inr hr)
    · exact .inr ht
  | giveBackLost =>
    refine installed_mono h.installed (fun t ht => ?_) hids
    simp only [mem_append] at ht ⊢
    exact ht.imp_right mem_of_mem_erase
  | _ => exact installed_mono h.installed (List.Subset.refl _) hids

theorem Moves.base (hm : Moves top w act w') (h : Ok top w) :
    Base top w'.occ w'.st.views w'.loose := by
  cases hm with
  | splits hsp =>
    obtain ⟨root, rfl, _⟩ := hsp
    exact h.base
  | counts hslots hids ht => exact h.base.same hslots hids ht
  | @reserve _ _ p _ start _ _ he hfit hpos =>
    have hst : start / pageSize * pageSize = start := Nat.div_mul_cancel hfit.1
    have hpg : p.size / pageSize * pageSize = p.size := Nat.div_mul_cancel p.size_paged
    refine h.base.reserve he rfl hst hpg ?_
    refine Nat.le_of_mul_le_mul_right (c := pageSize) ?_ (by decide)
    rw [Nat.add_mul]
    rw [hst, hpg]
    exact hfit.2
  | @giveBack _ r hr =>
    refine (h.base.sublist erase_sublist).giveBack r fun t ht heq => ?_
    have hn := (nodup_append.1 h.base.ids).2.1
    rw [((perm_cons_erase hr).map Reservation.id).nodup_iff, map_cons,
      nodup_cons] at hn
    exact hn.1 (heq ▸ List.mem_map_of_mem ht)
  | @install r _ _ _ _ frames _ v _ hr hv hover _ =>
    obtain ⟨hs, hid, hst, hpg, hpub⟩ := new_spec hv
    have hl := publishAll_lessens hs (installFrames_spec hs hpub frames)
    refine h.base.install hr hl.sound (hl.id.trans hid) (hl.start.trans hst) (hl.pages.trans hpg)
      fun u hu p h1 h2 hp => ?_
    unfold last at h2
    rw [hl.start, hl.pages] at h2
    rw [hl.start] at h1
    have hno := hover u hu
    rw [Bool.eq_false_iff, ne_eq, overlaps_iff (by unfold last; omega)] at hno
    exact hno ⟨p, h1, h2, hp⟩
  | @publish _ _ _ _ frames v _ hv hcov hlent _ =>
    have hmem := (view_spec hv).1
    have hsound := h.base.sound v hmem
    exact h.base.put hmem (publishAll_lessens hsound (fresh_spec hsound frames hcov hlent))
  | @reshape _ v _ _ _ _ _ _ _ _ _ hv hr _ _ =>
    exact h.base.put hv (reshape_lessens (h.base.sound v hv) hr)
  | @withdraw _ v start len _ _ _ _ _ hv _ _ _ hr _ =>
    exact (h.base.retire hv hr).put hv
      (without_lessens (h.base.sound v hv) (Nat.le_add_right start (len - 1)))
  | @unpublish _ v _ _ held _ _ hv _ _ _ _ =>
    exact h.base.put hv ⟨rfl, rfl, rfl, (h.base.sound v hv).erase held, fun _ hp => hp⟩
  | close =>
    refine h.base.map fun v hv => ⟨rfl, rfl, rfl, (h.base.sound v hv).emptied, fun p hp => ?_⟩
    simp [View.Active, ActiveRange.currentAt] at hp
  | settle => exact h.base.same (takeCleanup_slots _ _) le_rfl le_rfl
  | @giveBackLost r hr =>
    obtain ⟨v, hv, hid⟩ := h.installed r (mem_append_right _ hr)
    exact h.base.giveBack r fun t ht heq => h.base.fresh_id hv ht (hid.trans heq.symm)
  | @reclaim tickets hd =>
    have hz := h.tickets tickets (by simp [hd])
    have hat := reclaims_atlas h.base.good tickets
    refine h.base.shrink (good_reclaims h.base.good tickets) le_rfl (fun a tag' ht => ?_)
      (fun r _ a tag ht _ h0 => ?_)
    · rw [hat, filter_eq_some_iff] at ht
      exact ⟨tag', ht.1, rfl⟩
    · dsimp only
      rw [hat, filter_eq_some_iff]
      exact ⟨ht, by simpa [h0] using hz⟩
  | _ => exact h.base

theorem Moves.ok (hm : Moves top w act w') (h : Ok top w) : Ok top w' := by
  refine ⟨hm.base h, hm.installed h, fun ts hts hz => ?_⟩
  rcases hm.drawn hts hz with ⟨us, hus, hz⟩ | ⟨_, _, _, _, hr, hz⟩
  · exact h.tickets us hus hz
  · exact Retires.pos h.base.good hr hz

/-- Every section keeps the Views sound and apart. -/
theorem ok_step {kernel : Bool} (h : Ok top w) (hs : step top kernel w act = some w') : Ok top w' :=
  (moves_of_step h hs).ok h

end

end

/-- Runs in which every section meets a condition on the state it finds. -/
inductive Runs (top : Nat) (kernel : Bool) (cond : World → Act → Prop) : World → Prop
  | start : Runs top kernel cond {}
  | step {w w' : World} {act : Act} : Runs top kernel cond w → cond w act →
      step top kernel w act = some w' → Runs top kernel cond w'

/-- The state after some sections. -/
def execute (top : Nat) (kernel : Bool) (acts : List Act) : Option World :=
  acts.foldlM (step top kernel) {}

variable {cond : World → Act → Prop}

theorem runs_foldlM {top : Nat} {kernel : Bool} {acts : List Act} {w w' : World}
    (hc : ∀ act ∈ acts, ∀ w, cond w act) (h : Runs top kernel cond w)
    (he : acts.foldlM (step top kernel) w = some w') : Runs top kernel cond w' :=
  Lists.foldlM_keeps (fun act ha w _ hw hs => .step hw (hc act ha w) hs) h he

/-- A list of sections none of which can break the condition. -/
theorem runs_execute {top : Nat} {kernel : Bool} {acts : List Act} {w : World}
    (hc : ∀ act ∈ acts, ∀ w, cond w act) (h : execute top kernel acts = some w) :
    Runs top kernel cond w :=
  runs_foldlM hc .start h

/-- So it is in every state that a run reaches. -/
theorem ok_runs {top : Nat} {kernel : Bool} {w : World} (h : Runs top kernel cond w) :
    Ok top w := by
  induction h with
  | start => exact ok_initial top
  | step _ _ hs ih => exact ok_step ih hs

/-! ## Sections with fixed arguments -/

def readWrite : LeafAccess := ⟨Access.read ||| Access.write, by decide⟩

/-- A span of `more + 1` pages. -/
def spanOf (id start more : Nat) : Reservation := ⟨id, start, more + 1, Nat.succ_pos more⟩

/-- Reserve `more + 1` pages at a page. -/
def reserveAt (start more : Nat) : Act :=
  .reserve true true
    { region := .normal, size := (more + 1) * pageSize, align := pageSize,
      at' := .exact (start * pageSize),
      size_pos := Nat.mul_pos (Nat.succ_pos more) pageSize_pos,
      size_paged := Nat.dvd_mul_left _ _,
      align_pow := pageSize_pow,
      exact_aligned := fun s hs => by
        cases hs
        exact ⟨Nat.dvd_mul_left _ _, Nat.dvd_mul_left _ _⟩ }

theorem architectural_ad : PteFlags.intersects (.A ||| .D) (.V ||| .rwx) = false := by decide

/-- Attach memory lent from page `base` on to a span. -/
def lend (id start more base room : Nat) : Act :=
  .install (spanOf id start more) (.A ||| .D) architectural_ad
    [⟨start, more + 1, Nat.succ_pos more, readWrite.1, readWrite⟩] (.borrowed base)
    ⟨[], .nil, by simp⟩ room

end Sqware.Nest
