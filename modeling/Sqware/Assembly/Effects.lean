import Sqware.Assembly.Records
import Sqware.Lib.Lists

/-!
# What each function of the jobs can do

Every function is inverted once: the states it can leave, and how the records, the queue and the
launches compare with those before.
-/

namespace Sqware.Assembly

open List Lists

namespace Jobs

variable {j j' : Jobs} {key : CreateKey} {scope : Scope} {dead : Scope → Prop} {room : Room}

/-! ## The queue -/

variable {id : JobId}

theorem take_cut {w : Work} (h : j.take id = some (w, j')) :
    ∃ l1 l2, j.work = l1 ++ w :: l2 ∧ j' = { j with work := l1 ++ l2 } := by
  unfold take at h
  split at h
  · cases h
  next spot hspot =>
  obtain ⟨l1, x, l2, hwork, rfl, -⟩ := exists_of_findIdx? hspot
  rw [hwork, getElem?_append_right (Nat.le_refl _), Nat.sub_self, getElem?_cons_zero,
    Option.map_some, eraseIdx_append_cons] at h
  cases h
  exact ⟨l1, l2, hwork, rfl⟩

/-- The completion that is taken back is the job's own. -/
theorem consumeConstruct_eq (h : ∀ w ∈ j.work, w.completedId ≠ some id)
    (outcome : Outcome) (create : Option CreateKey) : j.consumeConstruct id outcome create =
      (outcome.reference, (j.conclude create outcome).sweepClosedCreateScopes) := by
  have hspot : (j.work ++ [Work.completed id outcome]).findIdx? (·.completedId = some id) =
      some j.work.length := by
    rw [List.findIdx?_append, findIdx?_eq_none_iff.2 (fun w hw => by simpa using h w hw)]
    simp [List.findIdx?_cons, Work.completedId]
  simp only [consumeConstruct, take, push, hspot]
  rw [getElem?_append_right (Nat.le_refl _), Nat.sub_self, eraseIdx_append_cons]
  simp

theorem popMatching_perm {p : Work → Bool} {rounds : Nat} {work work' : List Work} {w : Work}
    (h : popMatching p rounds work = some (w, work')) : work.Perm (w :: work') := by
  induction rounds generalizing work with
  | zero => simp [popMatching] at h
  | succ rounds ih =>
    cases work with
    | nil => simp [popMatching] at h
    | cons x work =>
      unfold popMatching at h
      split at h
      · cases h
        exact .refl _
      · exact (perm_append_singleton x work).symm.trans (ih h)

theorem takeCommandsFrom_perm (limit count : Nat) (work taken : List Work) :
    (taken ++ work).Perm ((takeCommandsFrom limit count work taken).1 ++
      (takeCommandsFrom limit count work taken).2) := by
  induction count generalizing work taken with
  | zero => exact .refl _
  | succ count ih =>
    cases work with
    | nil => exact .refl _
    | cons w work =>
      unfold takeCommandsFrom
      split
      · exact .refl _
      split
      · simpa using ih work (taken ++ [w])
      · exact ((perm_append_singleton w work).symm.append_left taken).trans (ih (work ++ [w]) taken)

theorem reserveJob_eq {limit : Nat} {ready : Bool} (h : j.reserveJob limit ready = some (id, j')) :
    id = j.next ∧ j' = { j with next := j.next + 1 } := by
  unfold reserveJob at h
  split at h
  · cases h
  split at h
  · cases h
  split at h
  · cases h
    exact ⟨rfl, rfl⟩
  · cases h

/-! ## The end of a construction -/

theorem failing_key (fail : Fail) (r : CreateRecord) : (failing fail r).key = r.key := by
  unfold failing
  split <;> rfl

theorem failing_follows (fail : Fail) (r : CreateRecord) : Follows r (failing fail r) := by
  unfold failing
  split <;> exact ⟨id, id⟩

theorem conclude_evolves (dead : Scope → Prop) (j : Jobs) (create : Option CreateKey)
    (outcome : Outcome) :
    Evolves dead j (j.conclude create outcome) ∧ Keeps dead j (j.conclude create outcome) := by
  have hsame : Evolves dead j j ∧ Keeps dead j j := ⟨(Alike.refl j).evolves, (Alike.refl j).keeps⟩
  cases create with
  | none => cases outcome <;> exact hsame
  | some key =>
    cases outcome with
    | cancelled => exact ⟨setSaid_evolves _, setSaid_keeps _⟩
    | failed fail =>
      exact ⟨setCreate_evolves (failing_key fail) (failing_follows fail),
        setCreate_keeps (failing_key fail)⟩
    | _ => exact hsame

/-- A construction that is over: the queue and the launches as before, the records grown, and the
retired scopes swept. -/
structure Concludes (dead : Scope → Prop) (j j' : Jobs) : Prop where
  work : j'.work = j.work
  next : j'.next = j.next
  launches : j'.launches = j.launches
  evolves : Evolves dead j j'
  keeps : Sound dead j → Keeps dead j j'
  swept : j'.Swept

theorem consumeConstruct_concludes (h : ∀ w ∈ j.work, w.completedId ≠ some id)
    (outcome : Outcome) (create : Option CreateKey) :
    Concludes dead j (j.consumeConstruct id outcome create).2 := by
  obtain ⟨hevolves, hkeeps⟩ := conclude_evolves dead j create outcome
  rw [consumeConstruct_eq h]
  have hsweeps := hevolves.trans sweep_evolves
  have hkept := fun hs => hkeeps.trans (sweep_keeps (hevolves hs).1)
  cases create <;> cases outcome <;> exact ⟨rfl, rfl, rfl, hsweeps, hkept, swept_sweep _⟩

/-! ## Requests -/

/-- The ways of a BUILD request through the records. -/
inductive Admission (j : Jobs) (room : Room) (key : CreateKey) :
    Except Fail CreateAdmission → Jobs → Prop
  | refused (fail : Fail) : Admission j room key (.error fail) j
  | cancelled : Admission j room key (.ok .cancelled) j
  | duplicate {r : CreateRecord} (h : j.create key = some r) :
      Admission j room key (.ok .duplicate) j
  | pruned (fail : Fail) (h : j.create key = none) :
    Admission j room key (.error fail) (j.pruneCreates key)
  | new {r : CreateRecord} (h : j.create key = none) (hkey : r.key = key)
    (hfree : (j.pruneCreates key).refuses room key = none) :
    Admission j room key (.ok .new) ((j.pruneCreates key).enter r)

/-- The ways a BUILD request is admitted or not. -/
theorem admitCreate_cases (j : Jobs) (room : Room) (key : CreateKey) (ask : Ask) :
    Admission j room key (j.admitCreate room key ask).1 (j.admitCreate room key ask).2 := by
  unfold admitCreate
  split
  · exact .refused _
  split
  · next r hr =>
    split
    · exact .cancelled
    · split
      · exact .duplicate hr
      · exact .refused _
  next hnone =>
  dsimp only
  split
  · exact .pruned _ hnone
  · exact .pruned _ hnone
  next hfree _ =>
  split
  · exact .pruned _ hnone
  · exact .new hnone rfl hfree

/-- Queued under the next number, or refused. -/
theorem enqueue_cases {request : Request} (room : Room) (hnext : ∀ w ∈ j.work, w.id < j.next)
    (hkey : request.create = some key) :
    (j.enqueue room request).2 = j.setSaid key (.fromResult (.error .full)) ∨
      (j.enqueue room request).2 =
        { j with
          next := j.next + 1
          work := j.work ++ [Work.construct j.next request] }.setCreate key
          fun r => { r with construct := some j.next } := by
  have hrefuse : j.refuse request.create .full = j.setSaid key (.fromResult (.error .full)) := by
    rw [hkey]
    rfl
  unfold enqueue
  split
  · exact .inl hrefuse
  split
  · exact .inl hrefuse
  next id j1 hreserve =>
  obtain ⟨rfl, rfl⟩ := reserveJob_eq hreserve
  -- the number is new, so the search finds the request that was just queued
  have hfind : (j.work ++ [Work.construct j.next request]).findSome? (Work.createOf j.next) =
      some key := by
    have hnone : j.work.findSome? (Work.createOf j.next) = none := by
      rw [findSome?_eq_none_iff]
      intro w hw
      cases w with
      | construct id request' =>
        have hlt : id < j.next := hnext _ hw
        simp [Work.createOf, Nat.ne_of_lt hlt]
      | _ => rfl
    rw [List.findSome?_append, hnone]
    simp [Work.createOf, hkey]
  right
  simp only [push, hfind]

/-- The five ways of a CANCEL request. -/
inductive Cancels (j : Jobs) (room : Room) (c : Control) (key : CreateKey) :
    Option (Said × Jobs × Control) → Prop
  | refused (fail : Fail) (h : j.create key = none)
    (hfail : (j.pruneCreates key).refuses room key = some fail) :
    Cancels j room c key (some (.fromResult (.error fail), j.pruneCreates key, c))
  | unseen (h : j.create key = none) (hfree : (j.pruneCreates key).refuses room key = none) :
    Cancels j room c key (some (cancelledSaid, (j.pruneCreates key).enter (unseen key), c))
  | stopped {r : CreateRecord} {launch : Launch} (h : j.create key = some r)
    (hlaunch : j.launches.find? (·.create = some key) = some launch) :
    Cancels j room c key
      (some ({ r.said with state := .pending },
        (j.setCreate key cancelling).setSaid key
          { r.said with state := .pending },
        c.stopInstance launch.task))
  | queued {r : CreateRecord} {id : JobId} {request : Request} {l₁ l₂ : List Work}
    (h : j.create key = some r) (hlaunch : j.launches.find? (·.create = some key) = none)
    (hwork : j.work = l₁ ++ .construct id request :: l₂) (hid : r.construct = some id)
    (hcreate : request.create = some key)
    (hspot : j.work.findIdx? (Work.constructs r.construct key) = some l₁.length) :
    Cancels j room c key
      (let j' := ({ (j.setCreate key cancelling) with
        work := l₁ ++ l₂ }.consumeConstruct id .cancelled (some key)).2
      j'.creates[l₁.length]?.map fun r => (r.said, j', c))
  | idle {r : CreateRecord} (h : j.create key = some r)
    (hlaunch : j.launches.find? (·.create = some key) = none)
    (hwork : j.work.findIdx? (Work.constructs r.construct key) = none) :
    Cancels j room c key
      (some (cancelledSaid, (j.setCreate key cancelling).setSaid key
        cancelledSaid, c))

/-- The five ways of a CANCEL request. -/
theorem cancelCreate_cases (j : Jobs) (room : Room) (c : Control) (key : CreateKey) :
    Cancels j room c key (j.cancelCreate room c key) := by
  unfold cancelCreate
  split
  · next hnone =>
    dsimp only
    split
    · next fail hfail => exact .refused fail hnone hfail
    · next hfree => exact .unseen hnone hfree
  next r hr =>
  dsimp only
  split
  · next launch hlaunch => exact .stopped hr hlaunch
  next hlaunch =>
  split
  · next spot hspot =>
    obtain ⟨l1, w, l2, hwork, rfl, hw, -⟩ := exists_of_findIdx? hspot
    change j.work = l1 ++ w :: l2 at hwork
    cases w with
    | construct id request =>
      obtain ⟨hid, hcreate⟩ : r.construct = some id ∧ request.create = some key := by
        obtain ⟨hid, hcreate⟩ := Bool.and_eq_true_iff.1 hw
        exact ⟨(of_decide_eq_true hid).symm, of_decide_eq_true hcreate⟩
      have hget : (j.setCreate key cancelling).work[l1.length]? =
          some (.construct id request) := by
        rw [setCreate_work, hwork]
        simp
      have herase : (j.setCreate key cancelling).work.eraseIdx
          l1.length = l1 ++ l2 := by
        rw [setCreate_work, hwork, eraseIdx_append_cons]
      rw [hget]
      rw [herase]
      exact .queued hr hlaunch hwork hid hcreate hspot
    | _ => simp [Work.constructs] at hw
  · next hspot => exact .idle hr hlaunch hspot

/-! ## Phases, retirement and the end of instances -/

/-- The records grow; the launches, the retired scopes and what is pending stay; at most one work is
queued, under the next number, and it is no construction. -/
structure Submits (dead : Scope → Prop) (j j' : Jobs) : Prop where
  evolves : Evolves dead j j'
  launches : j'.launches = j.launches
  closed : j'.closed = j.closed
  pending : pendingIn j'.creates = pendingIn j.creates
  work : (j'.work = j.work ∧ j'.next = j.next) ∨
    ∃ w : Work, w.id = j.next ∧ w.construct? = none ∧ j'.work = j.work ++ [w] ∧ j'.next = j.next + 1

theorem Submits.refl (j : Jobs) : Submits dead j j :=
  ⟨(Alike.refl j).evolves, rfl, rfl, rfl, .inl ⟨rfl, rfl⟩⟩

theorem pendingIn_setCreate {f : CreateRecord → CreateRecord} (hf : ∀ r, (f r).key = r.key)
    (h : (∀ r, (f r).pending = r.pending) ∨ scope ≠ key.scope) :
    pendingIn (j.setCreate key f).creates scope = pendingIn j.creates scope := by
  unfold setCreate
  generalize j.creates = creates
  induction creates with
  | nil => rfl
  | cons r creates ih =>
    unfold Keyed.update
    split
    · next hr =>
      have hscope : (f r).scope = r.scope := by
        rw [CreateRecord.scope, hf, CreateRecord.scope]
      have hhead : (decide ((f r).scope = scope) && (f r).pending) =
          (decide (r.scope = scope) && r.pending) := by
        rcases h with h | h
        · rw [hscope, h]
        · have hne : r.scope ≠ scope := fun he => h (he ▸ hr ▸ rfl)
          simp [hscope, hne]
      simp only [pendingIn, any_cons] at hhead ⊢
      rw [hhead]
    · simp only [pendingIn, any_cons] at ih ⊢
      rw [ih]

theorem submit_submits {ready : Bool} {w : JobId → Work} (hid : ∀ id, (w id).id = id)
    (hw : ∀ id, (w id).construct? = none) : Submits dead j (j.submit ready w) ∧
      (j.submit ready w).watermarks = j.watermarks := by
  unfold submit
  split
  · exact ⟨.refl j, rfl⟩
  · next id j1 hreserve =>
    obtain ⟨rfl, rfl⟩ := reserveJob_eq hreserve
    exact ⟨⟨Alike.evolves ⟨rfl, rfl, rfl⟩, rfl, rfl, rfl, .inr ⟨_, hid _, hw _, rfl, rfl⟩⟩, rfl⟩

theorem phase_submits (ready : Bool) (reference : InstanceRef) (hook : HookKey) :
    Submits dead j (j.phase ready reference hook) ∧
      (j.phase ready reference hook).watermarks = j.watermarks := by
  unfold phase
  split
  · exact ⟨.refl j, rfl⟩
  split
  · exact ⟨.refl j, rfl⟩
  next id j1 hreserve =>
  obtain ⟨rfl, rfl⟩ := reserveJob_eq hreserve
  have hpush : Evolves dead j ({ j with next := j.next + 1 }.push
      (.phase j.next reference hook)) := Alike.evolves ⟨rfl, rfl, rfl⟩
  have hwork : ∃ w : Work, w.id = j.next ∧ w.construct? = none ∧
      j.work ++ [Work.phase j.next reference hook] = j.work ++ [w] ∧ j.next + 1 = j.next + 1 :=
    ⟨_, rfl, rfl, rfl, rfl⟩
  dsimp only
  split
  · next create _ =>
    refine ⟨⟨hpush.trans (setCreate_evolves (fun _ => rfl) fun _ => ⟨id, id⟩), rfl, rfl, ?_,
      .inr hwork⟩, rfl⟩
    funext scope
    refine pendingIn_setCreate ?_ (.inl ?_) <;> exact fun _ => rfl
  · exact ⟨⟨hpush, rfl, rfl, rfl, .inr hwork⟩, rfl⟩

theorem completeCreatePrepare_submits (id : JobId) (reference : InstanceRef) :
    Submits dead j (j.completeCreatePrepare id reference).2 ∧
      (j.completeCreatePrepare id reference).2.watermarks = j.watermarks := by
  unfold completeCreatePrepare
  split
  · exact ⟨.refl j, rfl⟩
  split
  · exact ⟨.refl j, rfl⟩
  split
  · refine ⟨⟨setCreate_evolves (fun _ => rfl) fun _ => ⟨fun h => h, fun h => h⟩, rfl, rfl, ?_,
      .inl ⟨rfl, rfl⟩⟩, rfl⟩
    funext scope
    refine pendingIn_setCreate ?_ (.inl ?_) <;> exact fun _ => rfl
  · exact ⟨.refl j, rfl⟩

theorem sweep_of_swept (h : j.Swept) : j.sweepClosedCreateScopes = j := by
  have hstays : ∀ scope, stays j.closed j.creates scope = true := by
    intro scope
    by_cases hs : scope ∈ j.closed
    · simp [stays, h scope hs]
    · simp [stays, hs]
  simp only [sweepClosedCreateScopes, sweepFrom_eq, hstays, filter_true]
  rw [filter_eq_self.2 h]

/-- With nothing pending the retirement is over; otherwise the scope is closed, or there is no
room. -/
theorem retire_eq (h : j.Swept) (room : Room) (scope : Scope) : ∃ answer closed,
    j.retireCreateScope room scope = (answer, { j with closed }) ∧
      (answer = .ok () ↔ pendingIn j.creates scope = false) ∧
      (answer = .ok () ∨ answer = .error .full ∨ answer = .error .notReady ∧ scope ∈ closed) ∧
      (∀ sc ∈ j.closed, sc ∈ closed) ∧
      ∀ sc ∈ closed, pendingIn j.creates sc = true ∧ (sc ∈ j.closed ∨ sc = scope) := by
  have hold : ∀ sc ∈ j.closed, pendingIn j.creates sc = true ∧ (sc ∈ j.closed ∨ sc = scope) :=
    fun sc hsc => ⟨h sc hsc, .inl hsc⟩
  unfold retireCreateScope
  by_cases hp : pendingIn j.creates scope = true
  · by_cases hc : scope ∈ j.closed
    · exact ⟨.error .notReady, j.closed, by simp [hc, hp, sweep_of_swept h], by simp [hp],
        .inr (.inr ⟨rfl, hc⟩), fun _ => id, hold⟩
    by_cases hroom : 256 ≤ j.closed.length ∨ room.scopes = false
    · exact ⟨_, j.closed, if_pos (by simpa [hp, hc] using hroom), by simp [hp], .inr (.inl rfl),
        fun _ => id, hold⟩
    have hnew : ∀ sc ∈ j.closed ++ [scope],
        pendingIn j.creates sc = true ∧ (sc ∈ j.closed ∨ sc = scope) := by
      intro sc hsc
      rcases mem_append.1 hsc with hsc | hsc
      · exact hold sc hsc
      · rw [mem_singleton.1 hsc]
        exact ⟨hp, .inr rfl⟩
    have hswept : { j with closed := j.closed ++ [scope] }.Swept := fun sc hsc => (hnew sc hsc).1
    refine ⟨.error .notReady, j.closed ++ [scope], ?_, by simp [hp], by simp,
      fun _ => mem_append_left _, hnew⟩
    rw [if_neg (by simpa [hp, hc] using hroom)]
    simp [hp, hc, sweep_of_swept hswept]
  · have hc : scope ∉ j.closed := fun hc => hp (h scope hc)
    exact ⟨.ok (), j.closed, by simp [hp, hc, sweep_of_swept h], by simp [hp],
      .inl rfl, fun _ => id,
      hold⟩

theorem bury_evolves (launch : Launch) :
    Evolves dead j { j with creates := bury j.creates launch } := by
  unfold bury
  split
  · refine setCreate_evolves (fun r => ?_) fun r => ?_
    · split <;> rfl
    · split <;> exact ⟨fun h => h, fun h => h⟩
  · exact (Alike.refl j).evolves

theorem report_evolves (launch : Launch) (said : Said) :
    Evolves dead j { j with creates := report j.creates launch said } := by
  unfold report
  split
  · refine setCreate_evolves (fun r => ?_) fun r => ?_
    · split <;> rfl
    · split <;> exact ⟨fun h => h, fun h => h⟩
  · exact (Alike.refl j).evolves

theorem completedFrom_evolves (dead : Scope → Prop) {c : Control} {launches launches' : List Launch}
    {creates' : List CreateRecord}
    (h : completedFrom c launches j.creates = some (launches', creates')) :
    Evolves dead j { j with creates := creates' } ∧
      (launches'.map (·.task)).Sublist (launches.map (·.task)) := by
  induction launches generalizing j launches' creates' with
  | nil =>
    cases h
    exact ⟨(Alike.refl j).evolves, .refl _⟩
  | cons launch rest ih =>
    -- a launch that waits stays as it is
    have hwait : ∀ {launches' creates'}, (completedFrom c rest j.creates).map
        (fun done => (launch :: done.1, done.2)) = some (launches', creates') →
        Evolves dead j { j with creates := creates' } ∧
          (launches'.map (·.task)).Sublist ((launch :: rest).map (·.task)) := by
      intro launches' creates' hw
      obtain ⟨done, hdone, he⟩ := Option.map_eq_some_iff.1 hw
      cases he
      obtain ⟨hevolves, hsub⟩ := ih hdone
      exact ⟨hevolves, hsub.cons_cons _⟩
    unfold completedFrom at h
    split at h
    · obtain ⟨hevolves, hsub⟩ := ih (j := { j with creates := bury j.creates launch }) h
      exact ⟨(bury_evolves launch).trans hevolves, hsub.cons _⟩
    split at h
    · exact hwait h
    · cases h
    · exact hwait h
    next back result _ _ =>
    split at h
    · exact hwait h
    obtain ⟨done, hdone, he⟩ := Option.map_eq_some_iff.1 h
    cases he
    obtain ⟨hevolves, hsub⟩ :=
      ih (j := { j with creates := report j.creates launch (resultSaid launch result) }) hdone
    exact ⟨(report_evolves launch _).trans hevolves, hsub.cons_cons _⟩

end Jobs

end Sqware.Assembly
