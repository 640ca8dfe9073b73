import Sqware.Assembly.Orderly

/-!
# A cancellation answers about its own construction

A CANCEL looks for the record of its key, and for the construction in the queue.  Where it takes a
construction out of the queue, the answer is read from the records at the place the construction had
in the queue.
-/

namespace Sqware.Assembly

open Jobs List Keyed Function

/-- The key a queued construction is for. -/
def Work.create? : Work → Option CreateKey
  | .construct _ request => request.create
  | _ => none

namespace System

/-- The instance was launched for the key. -/
def Belongs (s : System) (key : CreateKey) (i : Instance) : Prop :=
  ∃ launch ∈ s.jobs.launches, launch.task = i.task ∧ launch.create = some key

/-- The answer is what is recorded for the key, and what is recorded, queued or running for other
keys is as before, but for finished records of the key's own scope. -/
structure AnswersOwn (s : System) (room : Room) (key : CreateKey) (said : Said) (j : Jobs)
    (c : Control) : Prop where
  recorded : ∀ r, j.create key = some r → said = r.said
  swept : j.create key = none → (s.jobs.create key).isSome = true → said = cancelledSaid
  refused : j.create key = none → s.jobs.create key = none →
    ∃ fail, j.refuses room key = some fail ∧ said = .fromResult (.error fail)
  records : ∀ key', key' ≠ key → j.create key' = s.jobs.create key' ∨
    (key'.scope = key.scope ∧ j.create key' = none ∧
      ∃ r, s.jobs.create key' = some r ∧ r.pending = false)
  work : j.work.filter (·.create? ≠ some key) = s.jobs.work.filter (·.create? ≠ some key)
  launches : j.launches = s.jobs.launches
  instances : s.control.instances.Forall₂ (fun i i' => i' ≠ i →
    s.Belongs key i ∧ ∀ other, s.Belongs other i → other = key) c.instances

end System

namespace Jobs

variable {j : Jobs} {key : CreateKey}

/-- Where in the queue the construction is that a CANCEL of the key takes out. -/
def queuedAt (j : Jobs) (key : CreateKey) : Option Nat :=
  match j.create key with
  | none => none
  | some r =>
    if (j.launches.find? (·.create = some key)).isSome then none
    else j.work.findIdx? (Work.constructs r.construct key)

/-- The records that are left when the key's construction is over. -/
def left (j : Jobs) (key : CreateKey) : List CreateRecord :=
  if key.scope ∈ j.closed ∧
      (j.creates.any fun r => r.scope = key.scope && r.key ≠ key && r.pending) = false
  then j.creates.filter (·.scope ≠ key.scope)
  else j.creates

/-- The record at the place of the construction is the key's own, or cancelled as well. -/
def Aligned (j : Jobs) (key : CreateKey) : Prop :=
  ∀ spot, j.queuedAt key = some spot →
    ∃ r, (j.left key)[spot]? = some r ∧ (r.key = key ∨ r.said = cancelledSaid)

/-! ## The records when a queued construction is cancelled -/

/-- What is recorded for the key that was cancelled. -/
def overdue (key : CreateKey) (r : CreateRecord) : CreateRecord :=
  if r.key = key then { cancelling r with said := cancelledSaid } else r

theorem overdue_key (key : CreateKey) (r : CreateRecord) : (overdue key r).key = r.key := by
  unfold overdue
  split <;> rfl

theorem overdue_scope (key : CreateKey) (r : CreateRecord) : (overdue key r).scope = r.scope := by
  rw [CreateRecord.scope, overdue_key, CreateRecord.scope]

theorem overdue_pending (key : CreateKey) (r : CreateRecord) :
    (overdue key r).pending = (decide (r.key ≠ key) && r.pending) := by
  unfold overdue
  split
  · next he => simp [he, CreateRecord.pending, cancelledSaid, Said.plain]
  · next hne => simp [hne]

theorem overdue_creates (hn : (j.creates.map CreateRecord.key).Nodup) :
    ((j.setCreate key cancelling).setSaid key cancelledSaid).creates =
      j.creates.map (overdue key) := by
  have hkey : ∀ r : CreateRecord, r.key = key → (cancelling r).key = key := fun _ h => h
  have hn' : ((j.setCreate key cancelling).creates.map CreateRecord.key).Nodup := by
    rw [setCreate, map_update hkey]
    exact hn
  rw [setSaid, setCreate, update_eq_map hn', setCreate, update_eq_map hn, map_map]
  refine map_congr_left fun r _ => ?_
  unfold overdue
  by_cases hr : r.key = key
  · simp [hr, cancelling]
  · simp [hr]

theorem pendingIn_overdue (creates : List CreateRecord) (scope : Scope) :
    pendingIn (creates.map (overdue key)) scope =
      creates.any fun r => r.scope = scope && r.key ≠ key && r.pending := by
  rw [pendingIn, any_map]
  congr 1
  funext r
  simp only [comp, overdue_scope, overdue_pending, Bool.and_assoc]

theorem sweep_overdue {j' : Jobs} (hcreates : j'.creates = j.creates.map (overdue key))
    (hclosed : j'.closed = j.closed) (hswept : j.Swept) :
    j'.sweepClosedCreateScopes.creates = (j.left key).map (overdue key) := by
  -- other scopes keep what is pending
  have hother : ∀ scope, scope ≠ key.scope → stays j.closed j'.creates scope = true := by
    intro scope hne
    by_cases hmem : scope ∈ j.closed
    · have hpend := hswept scope hmem
      obtain ⟨r, hr, hs, hp⟩ := pendingIn_iff.1 hpend
      have hrk : r.key ≠ key := fun he => hne (hs ▸ he ▸ rfl)
      rw [stays, hcreates, pendingIn_overdue, Bool.or_eq_true, any_eq_true]
      exact .inr ⟨r, hr, by simp [hs, hrk, hp]⟩
    · simp [stays, hmem]
  have hown : stays j.closed j'.creates key.scope = false ↔ key.scope ∈ j.closed ∧
      (j.creates.any fun r => r.scope = key.scope && r.key ≠ key && r.pending) = false := by
    rw [stays, hcreates, pendingIn_overdue, Bool.or_eq_false_iff]
    simp
  rw [sweep_creates, hclosed, left]
  split
  · next hgone =>
    have hfalse := hown.2 hgone
    rw [hcreates, filter_map]
    congr 1
    refine filter_congr fun r _ => ?_
    rw [← hcreates, comp, overdue_scope]
    by_cases hs : r.scope = key.scope
    · rw [hs, hfalse]
      simp
    · rw [hother _ hs]
      simp [hs]
  · next hstay =>
    have htrue : stays j.closed j'.creates key.scope = true := by
      by_contra hf
      exact hstay (hown.1 (by simpa using hf))
    rw [← hcreates]
    refine filter_eq_self.2 fun r _ => ?_
    by_cases hs : r.scope = key.scope
    · rw [hs, htrue]
    · exact hother _ hs

end Jobs

namespace System

variable {s : System} {key : CreateKey} {room : Room}

theorem unmoved_instances (s : System) (key : CreateKey) :
    s.control.instances.Forall₂ (fun i i' => i' ≠ i →
      s.Belongs key i ∧ ∀ other, s.Belongs other i → other = key) s.control.instances :=
  forall₂_same.2 fun _ _ hne => absurd rfl hne

/-- Records of the key's own scope that were finished may go; others stay. -/
theorem prune_records (hs : s.jobs.Sound s.Dead) (key key' : CreateKey) :
    (s.jobs.pruneCreates key).create key' = s.jobs.create key' ∨
      (key'.scope = key.scope ∧ (s.jobs.pruneCreates key).create key' = none ∧
        ∃ r, s.jobs.create key' = some r ∧ r.pending = false) := by
  rw [prune_create hs]
  cases hr : s.jobs.create key' with
  | none => exact .inl rfl
  | some r =>
    have hk : r.key = key' := key_of_get hr
    by_cases hstay : (r.scope ≠ key.scope || key.id - 64 < r.key.id || r.pending) = true
    · left
      rw [Option.filter, if_pos hstay]
    right
    have hnone : (some r).filter
        (fun r => r.scope ≠ key.scope || key.id - 64 < r.key.id || r.pending) = none := by
      rw [Option.filter, if_neg hstay]
    simp only [Bool.or_eq_true, decide_eq_true_eq, not_or, Bool.not_eq_true, not_not] at hstay
    exact ⟨hk ▸ hstay.1.1, hnone, r, rfl, hstay.2⟩

theorem answersOwn_refused {fail : Fail} (h : Orderly [] s) (hnone : s.jobs.create key = none)
    (hfail : (s.jobs.pruneCreates key).refuses room key = some fail) :
    s.AnswersOwn room key (.fromResult (.error fail)) (s.jobs.pruneCreates key) s.control := by
  have hgone := prune_none h.sound hnone
  refine ⟨?_, ?_, fun _ _ => ⟨fail, hfail, rfl⟩, fun key' _ => prune_records h.sound key key',
    rfl, rfl,
    unmoved_instances s key⟩
  · intro r hr
    rw [hgone] at hr
    cases hr
  · intro _ hsome
    rw [hnone] at hsome
    cases hsome

theorem answersOwn_unseen (h : Orderly [] s) (hnone : s.jobs.create key = none) :
    s.AnswersOwn room key cancelledSaid ((s.jobs.pruneCreates key).enter (unseen key))
      s.control := by
  have hgone := prune_none h.sound hnone
  have hcreate : ∀ key', ((s.jobs.pruneCreates key).enter (unseen key)).create key' =
      if key' = key then some (unseen key) else (s.jobs.pruneCreates key).create key' :=
    enter_create (r := unseen key) hgone
  have hown : ((s.jobs.pruneCreates key).enter (unseen key)).create key = some (unseen key) := by
    rw [hcreate, if_pos rfl]
  refine ⟨?_, ?_, ?_, ?_, rfl, rfl, unmoved_instances s key⟩
  · intro r hr
    cases hown.symm.trans hr
    rfl
  · intro hf
    cases hown.symm.trans hf
  · intro hf
    cases hown.symm.trans hf
  · intro key' hne
    rw [hcreate, if_neg hne]
    exact prune_records h.sound key key'

variable {r : CreateRecord}

/-- The record is marked and given a status; the rest stays. -/
theorem answersOwn_said {c : Control} (hr : s.jobs.create key = some r) (said : Said)
    (hc : s.control.instances.Forall₂ (fun i i' => i' ≠ i →
      s.Belongs key i ∧ ∀ other, s.Belongs other i → other = key) c.instances) :
    s.AnswersOwn room key said ((s.jobs.setCreate key cancelling).setSaid key said) c := by
  have hcreate : ∀ key', ((s.jobs.setCreate key cancelling).setSaid key said).create key' =
      if key' = key then some { cancelling r with said } else s.jobs.create key' := by
    intro key'
    rw [setSaid, setCreate_create (f := fun r => { r with said }) (fun _ => rfl),
      setCreate_create (f := cancelling) (fun _ => rfl),
      setCreate_create (f := cancelling) (fun _ => rfl), if_pos rfl, hr]
    split <;> rfl
  have hown := hcreate key
  rw [if_pos rfl] at hown
  refine ⟨?_, ?_, ?_, ?_, rfl, rfl, hc⟩
  · intro r' hr'
    cases hown.symm.trans hr'
    rfl
  · intro hf
    cases hown.symm.trans hf
  · intro hf
    cases hown.symm.trans hf
  · intro key' hne
    rw [hcreate, if_neg hne]
    exact .inl rfl

/-- The instance that is stopped was launched for the key, and tasks belong to one launch. -/
theorem stopped_instances {launch : Launch} (h : Orderly [] s)
    (hlaunch : s.jobs.launches.find? (·.create = some key) = some launch) :
    s.control.instances.Forall₂ (fun i i' => i' ≠ i →
      s.Belongs key i ∧ ∀ other, s.Belongs other i → other = key)
      (s.control.stopInstance launch.task).instances := by
  have hmem := mem_of_find?_eq_some hlaunch
  have hkey : launch.create = some key := by simpa using List.find?_some hlaunch
  refine forall₂_update (fun i _ hne => absurd rfl hne) fun i hi _ => ?_
  have htask : i.task = launch.task := key_of_get hi
  refine ⟨⟨launch, hmem, htask.symm, hkey⟩, ?_⟩
  rintro other ⟨launch', hmem', htask', hother⟩
  have hsame : launch' = launch :=
    inj_on_of_nodup_map h.launches hmem' hmem (htask'.trans htask)
  rw [hsame, hkey] at hother
  exact (Option.some.inj hother).symm

/-- The jobs once the queued construction of the key is over. -/
def dropped (j : Jobs) (key : CreateKey) (work : List Work) : Jobs :=
  ({ j.setCreate key cancelling with work }.setSaid key cancelledSaid).sweepClosedCreateScopes

theorem dropped_create (h : Orderly [] s) (hr : s.jobs.create key = some r)
    (work : List Work) (key' : CreateKey) : (dropped s.jobs key work).create key' =
      if stays s.jobs.closed (s.jobs.creates.map (overdue key)) key'.scope then
        if key' = key then some { cancelling r with said := cancelledSaid } else s.jobs.create key'
      else none := by
  have hcreates :
      ({ s.jobs.setCreate key cancelling with work }.setSaid key cancelledSaid).creates =
      s.jobs.creates.map (overdue key) := overdue_creates h.sound.keys
  rw [dropped, sweep_create, hcreates]
  congr 1
  rw [setSaid, setCreate_create (f := fun r => { r with said := cancelledSaid }) (fun _ => rfl)]
  change (if key' = key then ((s.jobs.setCreate key cancelling).create key).map _
    else (s.jobs.setCreate key cancelling).create key') = _
  rw [setCreate_create (f := cancelling) (fun _ => rfl),
    setCreate_create (f := cancelling) (fun _ => rfl), if_pos rfl, hr]
  split <;> rfl

/-- Everything but the answer is right when a queued construction is cancelled. -/
theorem answersOwn_queued {id : JobId} {request : Request} {l1 l2 : List Work}
    (h : Orderly [] s) (hr : s.jobs.create key = some r)
    (hwork : s.jobs.work = l1 ++ .construct id request :: l2) (hcreate : request.create = some key)
    (said : Said) : s.AnswersOwn room key said (dropped s.jobs key (l1 ++ l2)) s.control ↔
      said = cancelledSaid := by
  have hview := dropped_create h hr (l1 ++ l2)
  constructor
  · intro hanswers
    cases hown : (dropped s.jobs key (l1 ++ l2)).create key with
    | none => exact hanswers.swept hown (by rw [hr]; rfl)
    | some r' =>
      have hr' := hanswers.recorded r' hown
      rw [hview] at hown
      split at hown
      · rw [if_pos rfl] at hown
        cases hown
        exact hr'
      · cases hown
  · rintro rfl
    refine ⟨?_, fun _ _ => rfl, ?_, ?_, ?_, rfl, unmoved_instances s key⟩
    · intro r' hr'
      rw [hview] at hr'
      split at hr'
      · rw [if_pos rfl] at hr'
        cases hr'
        rfl
      · cases hr'
    · intro _ hnone
      cases hr.symm.trans hnone
    · intro key' hne
      rw [hview, if_neg hne]
      split
      · exact .inl rfl
      next hgone =>
      -- the scope was swept: it is the key's own, and nothing else of it was pending
      cases hk : s.jobs.create key' with
      | none => exact .inl rfl
      | some r' =>
        right
        have hk' : r'.key = key' := key_of_get hk
        simp only [stays, Bool.or_eq_true, decide_eq_true_eq, not_or, not_not,
          Bool.not_eq_true] at hgone
        obtain ⟨hclosed, hpend⟩ := hgone
        have hno : ∀ x ∈ s.jobs.creates, x.scope = key'.scope →
            x.key ≠ key → x.pending = false := by
          intro x hx hxs hxk
          rw [pendingIn_overdue, any_eq_false] at hpend
          simpa [hxs, hxk] using hpend x hx
        refine ⟨?_, rfl, r', rfl, hno r' (mem_of_get hk) (hk' ▸ rfl) (hk' ▸ hne)⟩
        obtain ⟨x, hx, hxs, hxp⟩ := pendingIn_iff.1 (h.swept key'.scope hclosed)
        by_contra hscope
        have hxk : x.key ≠ key := fun he => hscope (hxs.symm.trans (congrArg CreateKey.scope he))
        rw [hno x hx hxs hxk] at hxp
        cases hxp
    · change (l1 ++ l2).filter _ = _
      rw [hwork, filter_append, filter_append, filter_cons_of_neg]
      simp [Work.create?, hcreate]

/-- A CANCEL answers about its own construction and leaves others alone exactly when the record at
the place of the queued construction is the key's own or says the same. -/
theorem cancel_answers_own (h : Reached s) (room : Room) (key : CreateKey) :
    (∃ said j c, s.jobs.cancelCreate room s.control key = some (said, j, c) ∧
      s.AnswersOwn room key said j c) ↔ s.jobs.Aligned key := by
  obtain ⟨es, hrun⟩ := h
  have horderly := runs_orderly hrun
  have hidle : ∀ {said j c}, s.jobs.cancelCreate room s.control key = some (said, j, c) →
      s.AnswersOwn room key said j c → s.jobs.queuedAt key = none →
      ((∃ said j c, s.jobs.cancelCreate room s.control key = some (said, j, c) ∧
        s.AnswersOwn room key said j c) ↔ s.jobs.Aligned key) := by
    intro said j c hcancel hanswers hnone
    refine iff_of_true ⟨said, j, c, hcancel, hanswers⟩ fun spot hspot => ?_
    cases hnone.symm.trans hspot
  have hcases := cancelCreate_cases s.jobs room s.control key
  generalize hres : s.jobs.cancelCreate room s.control key = res at hcases
  cases hcases with
  | refused fail hnone hfail =>
    rw [← hres]
    exact hidle hres (answersOwn_refused horderly hnone hfail) (by rw [queuedAt, hnone])
  | unseen hnone hfree =>
    rw [← hres]
    exact hidle hres (answersOwn_unseen horderly hnone) (by rw [queuedAt, hnone])
  | stopped hr hlaunch =>
    rw [← hres]
    refine hidle hres (answersOwn_said hr _ (stopped_instances horderly hlaunch)) ?_
    simp only [queuedAt, hr, hlaunch, Option.isSome_some, if_true]
  | idle hr hlaunch hwork =>
    rw [← hres]
    refine hidle hres (answersOwn_said hr _ (unmoved_instances s key)) ?_
    simp [queuedAt, hr, hlaunch, hwork]
  | @queued r id request l1 l2 hr hlaunch hwork hid hcreate hspot =>
    have hclear : ∀ w ∈ l1 ++ l2, w.completedId ≠ some id :=
      (orderly_unqueue horderly hwork).not_completed
    have hdropped : ({ s.jobs.setCreate key cancelling with work := l1 ++ l2 }.consumeConstruct id
        .cancelled (some key)).2 = dropped s.jobs key (l1 ++ l2) := by
      rw [consumeConstruct_eq hclear]
      rfl
    have hat : s.jobs.queuedAt key = some l1.length := by
      simp [queuedAt, hr, hlaunch, hspot]
    have hsaid : ∀ x : CreateRecord, (overdue key x).said = cancelledSaid ↔
        x.key = key ∨ x.said = cancelledSaid := by
      intro x
      unfold overdue
      split
      · next he => exact iff_of_true rfl (.inl he)
      · next hne => simp [hne]
    have hleft : (dropped s.jobs key (l1 ++ l2)).creates = (s.jobs.left key).map (overdue key) :=
      sweep_overdue (overdue_creates horderly.sound.keys) rfl horderly.swept
    simp only [hdropped, hleft, List.getElem?_map, Option.map_map]
    constructor
    · rintro ⟨said, j, c, hcancel, hanswers⟩ spot hspot'
      cases hat.symm.trans hspot'
      obtain ⟨x, hx, he⟩ := Option.map_eq_some_iff.1 hcancel
      cases he
      exact ⟨x, hx, (hsaid x).1 ((answersOwn_queued horderly hr hwork hcreate _).1 hanswers)⟩
    intro haligned
    obtain ⟨x, hx, hown⟩ := haligned _ hat
    refine ⟨(overdue key x).said, dropped s.jobs key (l1 ++ l2), s.control, ?_, ?_⟩
    · rw [hx]
      rfl
    · exact (answersOwn_queued horderly hr hwork hcreate _).2 ((hsaid x).2 hown)

end System

/-! ## Two cancellations that go astray -/

private def ample : Room := ⟨true, true, true, true, true, true⟩

private def builds (id : Nat) : Action :=
  .dispatch ⟨.build, 1, 7, id, some (.unit "echo" ⟨0, 0, []⟩), 7, 9, 4⟩ true ample

/-- A BUILD alone; one behind a lifecycle; one that is repeated, with another behind it. -/
private def alone : List Action := [.grant 7 0 true true true, builds 1]

private def behind : List Action := [.grant 7 0 true true true, .lifecycle true, builds 1]

private def repeated : List Action := [.grant 7 0 true true true, builds 1, builds 1, builds 2]

private def cancelOne (s : System) : Option (Said × Jobs × Control) :=
  s.jobs.cancelCreate ample s.control ⟨1, 7, 1⟩

theorem reached_replay (actions : List Action) (self tokens tasks : Nat) {α : Type} {f : System → α}
    {x : α} (h : (replay (.new self tokens tasks) actions).map (fun done => f done.1) = some x) :
    ∃ s, Reached s ∧ f s = x := by
  obtain ⟨⟨s, es⟩, hreplay, rfl⟩ := Option.map_eq_some_iff.1 h
  exact ⟨s, ⟨_, runs_replay (.new self tokens tasks) hreplay⟩, rfl⟩

/-- With a lifecycle ahead in the queue there is no record at the place of the construction; with
the BUILD repeated there is another key's, which is pending while the key's own is cancelled. -/
theorem cancel_strays :
    (∃ s, Reached s ∧ cancelOne s = none) ∧
      ∃ s, Reached s ∧ (cancelOne s).map (fun answer =>
        (answer.1.state, (answer.2.1.create ⟨1, 7, 1⟩).map (·.said.state))) =
          some (.pending, some .cancelled) := by
  constructor
  · exact reached_replay behind 1 1 1 (f := cancelOne)
      (by decide +kernel)
  exact reached_replay repeated 1 1 1
    (f := fun s => (cancelOne s).map fun answer =>
      (answer.1.state, (answer.2.1.create ⟨1, 7, 1⟩).map (·.said.state)))
    (x := some (.pending, some .cancelled)) (by decide +kernel)

/-- A BUILD alone in the queue is cancelled as it should be. -/
theorem cancel_answers_own_alone : ∃ s, Reached s ∧ s.jobs.queuedAt ⟨1, 7, 1⟩ = some 0 ∧
    ∃ said j c, s.jobs.cancelCreate ample s.control ⟨1, 7, 1⟩ = some (said, j, c) ∧
      s.AnswersOwn ample ⟨1, 7, 1⟩ said j c := by
  obtain ⟨s, hs, hq⟩ := reached_replay alone 1 1 1
    (f := fun s => (s.jobs.queuedAt ⟨1, 7, 1⟩, (s.jobs.left ⟨1, 7, 1⟩).map (·.key)))
    (x := (some 0, [⟨1, 7, 1⟩])) (by decide +kernel)
  obtain ⟨hat, hleft⟩ := Prod.mk.inj hq
  refine ⟨s, hs, hat, (System.cancel_answers_own hs ample ⟨1, 7, 1⟩).2 ?_⟩
  intro spot hspot
  cases hat.symm.trans hspot
  obtain ⟨r, hr, hkey⟩ := map_eq_singleton_iff.1 hleft
  exact ⟨r, by rw [hr]; rfl, .inl hkey⟩

end Sqware.Assembly
