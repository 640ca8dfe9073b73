import Sqware.Assembly.Effects

/-!
# What holds in every state of the assembly

A scope is dead when no usable grant can lead to it any more.  In every state that is reached the
records are sound with the retired scopes dead, every retired scope has something pending, no job
number occurs twice, and constructions wait in the queue only while a frame is serving requests.
-/

namespace Sqware.Assembly

open Jobs List Option Lists

namespace System

variable {s s' : System} {key : CreateKey}

/-- No request can come through the entry from the caller any more. -/
def Dead (s : System) (scope : Scope) : Prop :=
  scope.entry < s.tokens ∧
    ∀ g ∈ s.grants, g.entry = scope.entry → g.task = scope.caller → g.revoked = true

/-- The numbers of the constructions taken from the queue, of the queue and of what is in flight. -/
abbrev ids (taken : List (JobId × Request)) (s : System) : List JobId :=
  taken.map Prod.fst ++ (s.jobs.work ++ s.flight).map Work.id

/-- `taken` are the constructions that were taken from the queue and are not over. -/
structure Orderly (taken : List (JobId × Request)) (s : System) : Prop where
  sound : s.jobs.Sound s.Dead
  swept : s.jobs.Swept
  numbers : (s.ids taken).Nodup
  next : ∀ id ∈ s.ids taken, id < s.jobs.next
  quiet : s.serving = false → ∀ w ∈ s.jobs.work, w.construct? = none
  flight : ∀ w ∈ s.flight, w.construct? = none
  entries : (s.grants.map Grant.entry).Nodup
  tokens : ∀ g ∈ s.grants, g.entry < s.tokens
  launches : (s.jobs.launches.map Launch.task).Nodup
  tasks : ∀ launch ∈ s.jobs.launches, launch.task < s.tasks

/-- The dead scopes stay dead and the records grow. -/
structure Moves (s s' : System) : Prop where
  dead : ∀ scope, s.Dead scope → s'.Dead scope
  grows : Grows s'.Dead s.jobs s'.jobs

/-- What a change of the records keeps. -/
abbrev Upholds (taken : List (JobId × Request)) (s s' : System) : Prop :=
  Orderly taken s' ∧ Grows s.Dead s.jobs s'.jobs

/-- What a step keeps. -/
abbrev Goes (s s' : System) : Prop := Orderly [] s' ∧ Moves s s'

theorem orderly_new (self : TaskId) (tokens : PieToken) (tasks : TaskId) :
    Orderly [] (System.new self tokens tasks) := by
  refine ⟨⟨.nil, fun key r hr => ?_, nofun⟩, nofun, .nil, nofun, nofun, nofun, .nil, nofun, .nil,
    nofun⟩
  have hnone : Jobs.new.create key = none := rfl
  cases hnone.symm.trans hr

/-! ## Constructions -/

variable {taken : List (JobId × Request)} {id : JobId} {request : Request}

theorem Orderly.not_completed (h : Orderly ((id, request) :: taken) s) :
    ∀ w ∈ s.jobs.work, w.completedId ≠ some id := by
  intro w hw hid
  have hwid : w.id = id := by
    cases w with
    | completed id' outcome => exact some.inj hid
    | _ => cases hid
  refine (nodup_cons.1 h.numbers).1 (mem_append_right _ ?_)
  exact List.mem_map.2 ⟨w, mem_append_left _ hw, hwid⟩

variable {j : Jobs}

theorem orderly_records (h : Orderly taken s) (hsound : j.Sound s.Dead) (hswept : j.Swept)
    (hwork : j.work = s.jobs.work) (hnext : j.next = s.jobs.next)
    (hlaunches : j.launches = s.jobs.launches) (control : Control) :
    Orderly taken { s with jobs := j, control } := by
  refine { h with sound := hsound, swept := hswept, numbers := ?_, next := ?_, quiet := ?_,
                  launches := ?_, tasks := ?_ } <;> dsimp only [ids]
  · rw [hwork]
    exact h.numbers
  · rw [hwork, hnext]
    exact h.next
  · rw [hwork]
    exact h.quiet
  · rw [hlaunches]
    exact h.launches
  · rw [hlaunches]
    exact h.tasks

theorem orderly_concludes (h : Orderly ((id, request) :: taken) s)
    (hj : Concludes s.Dead s.jobs j) :
    Orderly taken { s with jobs := j } := by
  have hrest : Orderly taken s :=
    { h with numbers := (nodup_cons.1 h.numbers).2
             next := fun id' hid => h.next id' (mem_cons_of_mem _ hid) }
  exact orderly_records hrest (hj.evolves h.sound).1 hj.swept hj.work hj.next hj.launches s.control

theorem orderly_consume (h : Orderly ((id, request) :: taken) s) (outcome : Outcome)
    (create : Option CreateKey) : Upholds taken s (s.consume id outcome create) := by
  have hconcludes : Concludes s.Dead s.jobs (s.jobs.consumeConstruct id outcome create).2 :=
    consumeConstruct_concludes h.not_completed outcome create
  exact ⟨orderly_concludes h hconcludes, (hconcludes.evolves h.sound).2⟩

theorem orderly_setCreate (h : Orderly taken s) {f : CreateRecord → CreateRecord}
    (hf : ∀ r, (f r).key = r.key) (hfollows : ∀ r, Follows r (f r))
    (hpending : (∀ r, (f r).pending = r.pending) ∨ ¬ s.Dead key.scope) (control : Control) :
    Upholds taken s { s with jobs := s.jobs.setCreate key f, control } := by
  obtain ⟨hsound, hgrows⟩ : (s.jobs.setCreate key f).Sound s.Dead ∧ _ :=
    setCreate_evolves hf hfollows h.sound
  refine ⟨orderly_records h hsound (fun scope hscope => ?_) rfl rfl rfl control, hgrows⟩
  rw [pendingIn_setCreate hf]
  · exact h.swept scope hscope
  · rcases hpending with hsame | halive
    · exact .inl hsame
    · exact .inr fun he => halive (he ▸ h.sound.closed scope hscope)

theorem orderly_setSaid (h : Orderly taken s) (halive : ¬ s.Dead key.scope) (said : Said)
    (control : Control) : Upholds taken s { s with jobs := s.jobs.setSaid key said, control } :=
  orderly_setCreate (f := fun r => { r with said }) h (fun _ => rfl)
    (fun _ => ⟨fun h => h, fun h => h⟩) (.inr halive) control

theorem orderly_launched {launch : Launch} (h : Orderly ((id, request) :: taken) s)
    (htask : launch.task = s.tasks) (create : Option CreateKey) (control : Control) :
    Upholds taken s (s.launched id create launch control) := by
  have hconcludes : Concludes s.Dead s.jobs
      (s.jobs.consumeConstruct id (.construct launch.reference) create).2 :=
    consumeConstruct_concludes h.not_completed _ create
  have hover := orderly_concludes h hconcludes
  have hdone : (s.jobs.consumeConstruct id (.construct launch.reference) create).1 =
      some launch.reference := by
    rw [consumeConstruct_eq h.not_completed]
    rfl
  have hlaunched : Evolves s.Dead
      (s.jobs.consumeConstruct id (.construct launch.reference) create).2
      (s.launched id create launch control).jobs := by
    simp only [launched, hdone, if_true]
    exact Alike.evolves ⟨rfl, rfl, rfl⟩
  have hevolves := hlaunched hover.sound
  simp only [launched, hdone, if_true] at hevolves ⊢
  refine ⟨{ hover with sound := hevolves.1, launches := ?_, tasks := ?_ },
    ((hconcludes.evolves h.sound).2).trans hevolves.2⟩
  · have hfresh : ∀ l ∈ s.jobs.launches, l.task ≠ launch.task := fun l hl =>
      htask ▸ Nat.ne_of_lt (h.tasks l hl)
    rw [hconcludes.launches, map_append, nodup_append]
    refine ⟨h.launches, by simp, ?_⟩
    intro a ha b hb
    obtain ⟨l, hl, rfl⟩ := List.mem_map.1 ha
    obtain rfl : b = launch.task := by simpa using hb
    exact hfresh l hl
  · dsimp only
    rw [hconcludes.launches]
    intro l hl
    rcases mem_append.1 hl with hl | hl
    · exact Nat.lt_succ_of_lt (h.tasks l hl)
    · rw [mem_singleton.1 hl, htask]
      exact Nat.lt_succ_self _

/-- A request that is constructed: it has no key, or no record, or the record of a construction that
was neither cancelled nor seen before. -/
inductive First (j : Jobs) (create : Option CreateKey) : Jobs → Prop
  | anonymous (h : create = none) : First j create j
  | forgotten {key : CreateKey} (h : create = some key) (hnone : j.create key = none) :
    First j create j
  | seen {key : CreateKey} {r : CreateRecord} (fingerprint : Fingerprint) (h : create = some key)
    (hr : j.create key = some r) (hfirst : r.fingerprint = none) (hlive : r.cancelled = false) :
    First j create (j.setCreate key fun r => { r with fingerprint := some fingerprint })

theorem recognise_none {j' : Jobs} {create : Option CreateKey} {fingerprint : Fingerprint}
    (h : j.recognise create fingerprint = (none, j')) : First j create j' := by
  unfold recognise at h
  split at h
  · cases h
    exact .anonymous rfl
  next key =>
  split at h
  · next hnone =>
    cases h
    exact .forgotten rfl hnone
  next r hr =>
  split at h
  · cases h
  next hfirst =>
  split at h
  · cases h
  · next hlive =>
    cases h
    exact .seen fingerprint rfl hr hfirst (by simpa using hlive)

theorem constructOne_ok {c c' : Control} {tasks : TaskId} {make : Make} {launch : Launch}
    (h : constructOne c tasks make id request = (.ok launch, c')) : launch.task = tasks := by
  unfold constructOne at h
  split at h
  · cases h
  split at h
  · cases h
  split at h
  · cases h
  split at h
  · cases h
  · cases h
    rfl

/-- The ways of a request through the construction. -/
inductive Constructing (s : System) (id : JobId) (request : Request) : System × List Event → Prop
  | finished (jobs : Jobs) (control : Control) (outcome : Outcome)
    (h : jobs = s.jobs ∨ First s.jobs request.create jobs) :
    Constructing s id request ({ s with jobs, control }.consume id outcome request.create, [])
  | built (jobs : Jobs) (launch : Launch) (control : Control)
    (h : First s.jobs request.create jobs) (htask : launch.task = s.tasks) :
    Constructing s id request ({ s with jobs }.launched id request.create launch control,
      (request.create.map Event.built).toList)

theorem constructRequest_cases (s : System) (make : Make) (id : JobId) (request : Request) :
    Constructing s id request (s.constructRequest make id request) := by
  unfold constructRequest
  split
  · exact .finished s.jobs s.control _ (.inl rfl)
  split
  · exact .finished s.jobs s.control _ (.inl rfl)
  next jobs hrecognise =>
  have hfirst := recognise_none hrecognise
  dsimp only
  split
  · exact .finished jobs s.control _ (.inr hfirst)
  · split
    · next launch control hone => exact .built jobs launch control hfirst (constructOne_ok hone)
    · next fail control hone => exact .finished jobs control _ (.inr hfirst)

theorem orderly_first {jobs : Jobs} (h : Orderly taken s) (control : Control)
    (hj : jobs = s.jobs ∨ First s.jobs request.create jobs) :
    Upholds taken s { s with jobs, control } := by
  have hsame : Upholds taken s { s with control } := ⟨{ h with }, .refl _⟩
  rcases hj with rfl | hj
  · exact hsame
  cases hj with
  | anonymous => exact hsame
  | forgotten => exact hsame
  | seen fingerprint =>
    exact orderly_setCreate (f := fun r => { r with fingerprint := some fingerprint }) h
      (fun _ => rfl) (fun _ => ⟨id, fun _ => rfl⟩) (.inl fun _ => rfl) control

theorem orderly_constructRequest (h : Orderly ((id, request) :: taken) s) (make : Make) :
    Upholds taken s (s.constructRequest make id request).1 := by
  generalize hres : s.constructRequest make id request = res
  have hcases := constructRequest_cases s make id request
  rw [hres] at hcases
  cases hcases with
  | finished jobs control outcome hj =>
    obtain ⟨horderly, hgrows⟩ := orderly_first h control hj
    exact (orderly_consume horderly outcome request.create).imp_right hgrows.trans
  | built jobs launch control hj htask =>
    obtain ⟨horderly, hgrows⟩ := orderly_first h s.control (.inr hj)
    exact (orderly_launched horderly htask request.create control).imp_right hgrows.trans

theorem constructRequest_dead (s : System) (id : JobId) (request : Request) (make : Make) :
    (s.constructRequest make id request).1.Dead = s.Dead := by
  have hcases := constructRequest_cases s make id request
  generalize s.constructRequest make id request = res at hcases
  cases hcases <;> rfl

theorem batch_perm (work : List Work) :
    ((work.filterMap Work.construct?).map Prod.fst ++
      (work.filter fun w => w.construct?.isNone).map Work.id).Perm (work.map Work.id) := by
  induction work with
  | nil => exact .refl _
  | cons w work ih =>
    cases hw : w.construct? with
    | none =>
      rw [filterMap_cons_none hw, filter_cons_of_pos (by simp [hw]), map_cons,
        map_cons]
      exact perm_middle.trans (ih.cons _)
    | some entry =>
      have hid : entry.1 = w.id := by
        cases w with
        | construct id request =>
          cases hw
          rfl
        | _ => cases hw
      rw [filterMap_cons_some hw, filter_cons_of_neg (by simp [hw]), map_cons,
        cons_append, map_cons, hid]
      exact ih.cons _

theorem withQueue_evolves (dead : Scope → Prop) (j : Jobs) (work : List Work) (next : Nat) :
    Evolves dead j { j with work, next } :=
  Alike.evolves ⟨rfl, rfl, rfl⟩

theorem orderly_batch (h : Orderly [] s) :
    Orderly s.jobs.takeConstructBatch.1
      { s with jobs := s.jobs.takeConstructBatch.2, serving := false } := by
  have hperm : (ids s.jobs.takeConstructBatch.1 { s with jobs := s.jobs.takeConstructBatch.2 }).Perm
      (s.ids []) := by
    rw [ids, ids, map_append, map_append, ← append_assoc]
    exact (batch_perm s.jobs.work).append_right _
  exact { h with
    sound := (withQueue_evolves s.Dead s.jobs _ _ h.sound).1
    numbers := hperm.nodup_iff.2 h.numbers
    next := fun id hid => h.next id (hperm.subset hid)
    quiet := fun _ w hw => by simpa using (mem_filter.1 hw).2 }

theorem orderly_settleEach (h : Orderly taken s) :
    Upholds [] s { s with jobs := s.jobs.settleEach taken } := by
  induction taken generalizing s with
  | nil => exact ⟨h, .refl _⟩
  | cons entry rest ih =>
    obtain ⟨id, request⟩ := entry
    obtain ⟨hover, hgrows⟩ := orderly_consume h
      (if request.create.any fun key => s.jobs.creates.any fun r => r.key = key && r.cancelled
        then .cancelled else .failed .notReady) request.create
    exact (ih hover).imp_right hgrows.trans

theorem orderly_serving (h : Orderly taken s) : Orderly taken { s with serving := true } :=
  { h with quiet := nofun }

theorem orderly_settle (h : Orderly [] s) (settling : Bool) :
    Upholds [] s { s with jobs := s.jobs.settle settling, serving := true } := by
  unfold settle
  split
  · obtain ⟨hdone, hgrows⟩ := orderly_settleEach (orderly_batch h)
    have htake : Grows s.Dead s.jobs s.jobs.takeConstructBatch.2 :=
      (withQueue_evolves s.Dead s.jobs _ _ h.sound).2
    exact ⟨orderly_serving hdone, htake.trans hgrows⟩
  · exact ⟨orderly_serving h, .refl _⟩

theorem orderly_constructEach (h : Orderly taken s) (makes : JobId → Make) :
    Upholds [] s (constructEach makes s taken).1 ∧
      (constructEach makes s taken).1.Dead = s.Dead := by
  induction taken generalizing s with
  | nil => exact ⟨⟨h, .refl _⟩, rfl⟩
  | cons entry rest ih =>
    obtain ⟨id, request⟩ := entry
    obtain ⟨hone, hgrows⟩ := orderly_constructRequest h (makes id)
    obtain ⟨⟨hdone, hmore⟩, hdead⟩ := ih hone
    rw [constructRequest_dead] at hmore hdead
    exact ⟨⟨hdone, hgrows.trans hmore⟩, hdead⟩

theorem orderly_construct (h : Orderly [] s) (settling : Bool) (makes : JobId → Make) :
    Goes s ({ s with jobs := s.jobs.settle settling, serving := false }.construct makes).1 := by
  obtain ⟨hsettled, hgrows⟩ := orderly_settle h settling
  obtain ⟨⟨hdone, hmore⟩, hdead⟩ := orderly_constructEach (orderly_batch hsettled) makes
  have htake : Grows s.Dead (s.jobs.settle settling)
      (s.jobs.settle settling).takeConstructBatch.2 :=
    (withQueue_evolves s.Dead _ _ _ hsettled.sound).2
  have hall : Grows s.Dead s.jobs _ := hgrows.trans (htake.trans hmore)
  exact ⟨hdone, fun scope hscope => hdead ▸ hscope, hdead.symm ▸ hall⟩

/-! ## Requests -/

theorem orderly_prune (h : Orderly taken s) (key : CreateKey) :
    Orderly taken { s with jobs := s.jobs.pruneCreates key } := by
  refine orderly_records h (prune_evolves h.sound).1 ?_ rfl rfl rfl s.control
  intro scope hscope
  obtain ⟨r, hr, hs, hp⟩ := pendingIn_iff.1 (h.swept scope hscope)
  exact pendingIn_iff.2 ⟨r, mem_filter.2 ⟨hr, by simp [hp]⟩, hs, hp⟩

variable {room : Room}

theorem prune_none (h : s.jobs.Sound s.Dead) (hnone : s.jobs.create key = none) :
    (s.jobs.pruneCreates key).create key = none := by
  rw [prune_create h, hnone]
  rfl

/-- A record under a key that had none. -/
theorem orderly_pruned_enter {r : CreateRecord} (h : Orderly taken s) (hkey : r.key = key)
    (hnone : s.jobs.create key = none) (hfree : (s.jobs.pruneCreates key).refuses room key = none)
    (halive : ¬ s.Dead key.scope) :
    Upholds taken s { s with jobs := (s.jobs.pruneCreates key).enter r } := by
  subst hkey
  have hpruned := orderly_prune h r.key
  have hgone := prune_none h.sound hnone
  have henters := enter_evolves hgone hfree halive hpruned.sound
  refine ⟨orderly_records hpruned henters.1 (fun scope hscope => ?_) rfl rfl rfl s.control,
    (prune_evolves h.sound).2.trans henters.2⟩
  obtain ⟨r', hr', hs, hp⟩ := pendingIn_iff.1 (hpruned.swept scope hscope)
  exact pendingIn_iff.2 ⟨r', mem_append_left _ hr', hs, hp⟩

theorem orderly_cancelling (h : Orderly taken s) (halive : ¬ s.Dead key.scope) :
    Upholds taken s { s with jobs := s.jobs.setCreate key cancelling } :=
  orderly_setCreate (f := cancelling) h (fun _ => rfl) (fun _ => ⟨fun _ => rfl, id⟩) (.inr halive)
    s.control

/-- A construction leaves the queue. -/
theorem orderly_unqueue {l1 l2 : List Work} (h : Orderly [] s)
    (hwork : s.jobs.work = l1 ++ .construct id request :: l2) :
    Orderly [(id, request)] { s with jobs := { s.jobs with work := l1 ++ l2 } } := by
  have hperm : (id :: (l1 ++ l2 ++ s.flight).map Work.id).Perm
      ((s.jobs.work ++ s.flight).map Work.id) := by
    rw [hwork, append_assoc, append_assoc, cons_append]
    exact (perm_middle (a := Work.construct id request)).symm.map Work.id
  refine { h with
    sound := (withQueue_evolves s.Dead _ _ _ h.sound).1
    numbers := hperm.nodup_iff.2 h.numbers
    next := fun id' hid' => h.next id' (hperm.subset hid')
    quiet := fun hserving w hw => h.quiet hserving w ?_ }
  rw [hwork]
  exact ((sublist_cons_self _ _).append_left _).subset hw

theorem orderly_cancelCreate {said : Said} {c : Control} (h : Orderly [] s)
    (halive : ¬ s.Dead key.scope)
    (hcancel : s.jobs.cancelCreate room s.control key = some (said, j, c)) :
    Upholds [] s { s with jobs := j, control := c } := by
  have hcases := cancelCreate_cases s.jobs room s.control key
  rw [hcancel] at hcases
  obtain ⟨hset, hgrows⟩ := orderly_cancelling h halive
  generalize hres : some (said, j, c) = res at hcases
  cases hcases with
  | refused fail hnone hfail =>
    cases hres
    exact ⟨orderly_prune h key, (prune_evolves h.sound).2⟩
  | unseen hnone hfree =>
    cases hres
    exact orderly_pruned_enter h rfl hnone hfree halive
  | @queued r id request l1 l2 hr hlaunch hwork hid hcreate hspot =>
    obtain ⟨r', hr', he⟩ := map_eq_some_iff.1 hres.symm
    cases he
    have htaken := orderly_unqueue hset hwork
    obtain ⟨hover, hmore⟩ := orderly_consume htaken .cancelled (some key)
    have halike : Grows s.Dead (s.jobs.setCreate key cancelling)
        { s.jobs.setCreate key cancelling with work := l1 ++ l2 } :=
      (withQueue_evolves s.Dead _ _ _ hset.sound).2
    exact ⟨hover, hgrows.trans (halike.trans hmore)⟩
  | _ =>
    cases hres
    exact (orderly_setSaid hset halive _ _).imp_right hgrows.trans

variable {w : Work}

/-- A work is queued under the next number, which is above all others. -/
theorem orderly_push (h : Orderly [] s) (hid : w.id = s.jobs.next)
    (hw : w.construct? = none ∨ s.serving = true) :
    Orderly [] { s with
      jobs := { s.jobs with work := s.jobs.work ++ [w], next := s.jobs.next + 1 } } := by
  have hperm : ((s.jobs.work ++ [w] ++ s.flight).map Work.id).Perm
      (s.jobs.next :: (s.jobs.work ++ s.flight).map Work.id) := by
    rw [append_assoc, singleton_append, ← hid]
    exact (perm_middle (a := w)).map Work.id
  refine { h with sound := (withQueue_evolves s.Dead _ _ _ h.sound).1
                  numbers := ?_, next := ?_, quiet := ?_ }
  · refine hperm.nodup_iff.2 (nodup_cons.2 ⟨fun hmem => ?_, h.numbers⟩)
    exact Nat.lt_irrefl _ (h.next _ hmem)
  · intro id hid
    rcases mem_cons.1 (hperm.subset hid) with rfl | hid
    · exact Nat.lt_succ_self _
    · exact Nat.lt_succ_of_lt (h.next id hid)
  intro hf x hx
  rcases mem_append.1 hx with hx | hx
  · exact h.quiet hf x hx
  rw [mem_singleton.1 hx]
  rcases hw with hw | hserving
  · exact hw
  · cases hserving.symm.trans hf

theorem orderly_enqueue (room : Room) (request : Request) (h : Orderly [] s)
    (hserving : s.serving = true) (halive : ¬ s.Dead key.scope) (hkey : request.create = some key) :
    Upholds [] s { s with jobs := (s.jobs.enqueue room request).2 } := by
  have hnext : ∀ w ∈ s.jobs.work, w.id < s.jobs.next := fun w hw =>
    h.next w.id (List.mem_map.2 ⟨w, mem_append_left _ hw, rfl⟩)
  rcases enqueue_cases room hnext hkey with hrefused | hqueued
  · rw [hrefused]
    exact orderly_setSaid h halive _ s.control
  rw [hqueued]
  obtain ⟨hset, hgrows⟩ := orderly_setCreate
    (orderly_push (w := .construct s.jobs.next request) h rfl (.inr hserving)) (fun _ => rfl)
    (f := fun r => { r with construct := some s.jobs.next }) (fun _ => ⟨id, id⟩)
    (.inl fun _ => rfl) s.control
  exact ⟨hset, (withQueue_evolves s.Dead _ _ _ h.sound).2.trans hgrows⟩

theorem orderly_admitCreate (room : Room) (h : Orderly [] s) (halive : ¬ s.Dead key.scope)
    (ask : Ask) : Upholds [] s { s with jobs := (s.jobs.admitCreate room key ask).2 } := by
  have hcases := admitCreate_cases s.jobs room key ask
  generalize (s.jobs.admitCreate room key ask).1 = result at hcases
  generalize (s.jobs.admitCreate room key ask).2 = j at hcases ⊢
  cases hcases with
  | pruned fail hnone => exact ⟨orderly_prune h key, (prune_evolves h.sound).2⟩
  | new hnone hkey hfree => exact orderly_pruned_enter h hkey hnone hfree halive
  | _ => exact ⟨h, .refl _⟩

variable {es : List Event}

/-- The ways of a request: a question, a CANCEL, a BUILD that is answered, and one that is
queued. -/
inductive Dispatching (s : System) (ask : Ask) (room : Room) : System → List Event → Prop
  | inspected (said : Said) : Dispatching s ask room s [.answered .inspect ask.key said]
  | cancelled {said : Said} {jobs : Jobs} {control : Control} (hop : ask.op = .cancel)
    (h : s.jobs.cancelCreate room s.control ask.key = some (said, jobs, control)) :
    Dispatching s ask room { s with jobs, control } [.answered .cancel ask.key said]
  | answered {answer : Except Fail CreateAdmission} {jobs : Jobs} (hop : ask.op = .build)
    (h : s.jobs.admitCreate room ask.key ask = (answer, jobs)) (said : Said) :
    Dispatching s ask room { s with jobs } [.answered .build ask.key said]
  | queued {admission : CreateAdmission} {jobs : Jobs} {request : Request} (hop : ask.op = .build)
    (h : s.jobs.admitCreate room ask.key ask = (.ok admission, jobs)) (hne : admission ≠ .cancelled)
    (hkey : request.create = some ask.key) :
    Dispatching s ask room { s with jobs := (jobs.enqueue room request).2 } []

theorem dispatch_cases {ask : Ask} (hstep : s.dispatch ask room = some (s', es)) :
    Dispatching s ask room s' es := by
  unfold dispatch at hstep
  split at hstep
  · cases hstep
    exact .inspected _
  · next hop =>
    obtain ⟨⟨said, j, c⟩, hcancel, he⟩ := map_eq_some_iff.1 hstep
    cases he
    exact .cancelled hop hcancel
  next hop =>
  have hbuild := some.inj hstep
  unfold dispatchBuild at hbuild
  split at hbuild
  · next hadmission =>
    cases hbuild
    exact .answered hop hadmission _
  · next hadmission =>
    cases hbuild
    exact .answered hop hadmission _
  next hne hadmission =>
  split at hbuild
  · cases hbuild
    exact .answered hop hadmission _
  · cases hbuild
    exact .queued hop hadmission hne rfl

theorem orderly_dispatch {ask : Ask} (h : Orderly [] s) (hserving : s.serving = true)
    (halive : ¬ s.Dead ask.key.scope) (hstep : Dispatching s ask room s' es) :
    Upholds [] s s' ∧ s'.Dead = s.Dead := by
  have hadmitted := orderly_admitCreate room h halive ask
  cases hstep with
  | inspected => exact ⟨⟨h, .refl _⟩, rfl⟩
  | cancelled hop hcancel => exact ⟨orderly_cancelCreate h halive hcancel, rfl⟩
  | answered hop hadmission =>
    rw [hadmission] at hadmitted
    exact ⟨hadmitted, rfl⟩
  | queued hop hadmission hne hkey =>
    rw [hadmission] at hadmitted
    obtain ⟨horderly, hgrows⟩ := hadmitted
    obtain ⟨hqueued, hmore⟩ := orderly_enqueue room _ horderly hserving halive hkey
    exact ⟨⟨hqueued, hgrows.trans hmore⟩, rfl⟩

/-! ## The rest of the frame -/

theorem orderly_submits (h : Orderly [] s) (hj : Submits s.Dead s.jobs j) :
    Goes s { s with jobs := j } := by
  obtain ⟨hsound, hgrows⟩ := hj.evolves h.sound
  have hswept : j.Swept := by
    intro scope hscope
    rw [hj.pending]
    exact h.swept scope (hj.closed ▸ hscope)
  refine ⟨?_, fun _ hd => hd, hgrows⟩
  rcases hj.work with ⟨hwork, hnext⟩ | ⟨w, hid, hw, hwork, hnext⟩
  · exact orderly_records h hsound hswept hwork hnext hj.launches s.control
  · have hpush := orderly_push h hid (.inl hw)
    exact orderly_records hpush hsound hswept hwork hnext hj.launches s.control

theorem orderly_completed (h : Orderly [] s) (hj : s.jobs.completed s.control = some j) :
    Goes s { s with jobs := j } := by
  obtain ⟨⟨launches, creates⟩, hdone, rfl⟩ := map_eq_some_iff.1 hj
  obtain ⟨hevolves, hsub⟩ := completedFrom_evolves s.Dead hdone
  have hlaunches : Evolves s.Dead { s.jobs with creates } { s.jobs with launches, creates } :=
    Alike.evolves ⟨rfl, rfl, rfl⟩
  obtain ⟨hsound, hgrows⟩ := (hevolves.trans (hlaunches.trans sweep_evolves)) h.sound
  refine ⟨{ h with sound := hsound, swept := swept_sweep _, launches := h.launches.sublist hsub
                   tasks := fun launch hlaunch => ?_ }, fun _ hd => hd, hgrows⟩
  obtain ⟨launch', hlaunch', he⟩ := List.mem_map.1 (hsub.subset (mem_map_of_mem hlaunch))
  rw [← he]
  exact h.tasks launch' hlaunch'

/-- Grants change: what is dead stays dead. -/
theorem orderly_grants {grants : List Grant} (tokens : PieToken) (h : Orderly [] s)
    (hentries : (grants.map Grant.entry).Nodup) (htokens : ∀ g ∈ grants, g.entry < tokens)
    (hle : s.tokens ≤ tokens)
    (hold : ∀ g ∈ grants, g.entry < s.tokens → ∃ g' ∈ s.grants, g'.entry = g.entry ∧
      g'.task = g.task ∧ (g'.revoked = true → g.revoked = true)) :
    Goes s { s with grants, tokens } := by
  have hdead : ∀ scope, s.Dead scope → Dead { s with grants, tokens } scope := by
    rintro scope ⟨hlt, hrevoked⟩
    refine ⟨Nat.lt_of_lt_of_le hlt hle, ?_⟩
    intro g hg he ht
    obtain ⟨g', hg', he', ht', hr⟩ := hold g hg (he ▸ hlt)
    exact hr (hrevoked g' hg' (he'.trans he) (ht'.trans ht))
  have hsound : s.jobs.Sound (Dead { s with grants, tokens }) :=
    ⟨h.sound.keys, h.sound.marks, fun scope hscope => hdead scope (h.sound.closed scope hscope)⟩
  exact ⟨{ h with sound := hsound, entries := hentries, tokens := htokens }, hdead, .refl _⟩

/-- Grants that go, and one that changes in place. -/
theorem orderly_grant_at {l1 l2 : List Grant} {g : Grant} (h : Orderly [] s)
    (hgrants : s.grants = l1 ++ g :: l2) (here : List Grant)
    (hone : here = [] ∨ ∃ g', here = [g'] ∧ g'.entry = g.entry ∧ g'.task = g.task ∧
      (g.revoked = true → g'.revoked = true)) :
    Goes s { s with grants := l1 ++ here ++ l2 } := by
  have hsub : ((l1 ++ here ++ l2).map Grant.entry).Sublist (s.grants.map Grant.entry) := by
    rw [hgrants]
    rcases hone with rfl | ⟨g', rfl, he, -⟩
    · simp
    · simp [he]
  have hold : ∀ x ∈ l1 ++ here ++ l2, ∃ x' ∈ s.grants, x'.entry = x.entry ∧ x'.task = x.task ∧
      (x'.revoked = true → x.revoked = true) := by
    intro x hx
    rw [hgrants]
    simp only [mem_append] at hx
    rcases hx with (hx | hx) | hx
    · exact ⟨x, mem_append_left _ hx, rfl, rfl, id⟩
    · rcases hone with rfl | ⟨g', rfl, he, ht, hr⟩
      · cases hx
      · obtain rfl := mem_singleton.1 hx
        exact ⟨g, by simp, he.symm, ht.symm, hr⟩
    · exact ⟨x, by simp [hx], rfl, rfl, id⟩
  refine orderly_grants _ h (h.entries.sublist hsub) ?_ (Nat.le_refl _) fun x hx _ => hold x hx
  intro x hx
  obtain ⟨x', hx', he, -⟩ := hold x hx
  rw [← he]
  exact h.tokens x' hx'

/-- An entry is granted for the first time. -/
theorem orderly_granted {g : Grant} (h : Orderly [] s) (hentry : g.entry = s.tokens) :
    Goes s { s with grants := s.grants ++ [g], tokens := s.tokens + 1 } := by
  refine orderly_grants _ h ?_ ?_ (Nat.le_succ _) ?_
  · rw [map_append, nodup_append]
    refine ⟨h.entries, by simp, ?_⟩
    intro a ha b hb
    obtain ⟨x, hx, rfl⟩ := List.mem_map.1 ha
    obtain rfl : b = s.tokens := by simpa [hentry] using hb
    exact Nat.ne_of_lt (h.tokens x hx)
  · intro x hx
    rcases mem_append.1 hx with hx | hx
    · exact Nat.lt_succ_of_lt (h.tokens x hx)
    · rw [mem_singleton.1 hx, hentry]
      exact Nat.lt_succ_self _
  intro x hx hold
  rcases mem_append.1 hx with hx | hx
  · exact ⟨x, hx, rfl, rfl, fun hr => hr⟩
  · rw [mem_singleton.1 hx, hentry] at hold
    exact absurd hold (Nat.lt_irrefl _)

/-- The entries are distinct, so no other grant leads to the scope. -/
theorem dead_retired {l1 l2 here : List Grant} {g : Grant} (h : Orderly [] s)
    (hgrants : s.grants = l1 ++ g :: l2) (hone : here = [] ∨ here = [{ g with revoked := true }])
    (j : Jobs) : Dead { s with jobs := j, grants := l1 ++ here ++ l2 } ⟨g.entry, g.task⟩ := by
  have hother : ∀ x, x ∈ l1 ∨ x ∈ l2 → x.entry ≠ g.entry := by
    intro x hx he
    have hentries := h.entries
    rw [hgrants, map_append, map_cons, nodup_middle] at hentries
    apply (nodup_cons.1 hentries).1
    rw [← map_append]
    exact List.mem_map.2 ⟨x, mem_append.2 hx, he⟩
  refine ⟨h.tokens g (by rw [hgrants]; simp), fun x hx he _ => ?_⟩
  simp only [mem_append] at hx
  rcases hx with (hx | hx) | hx
  · exact absurd he (hother x (.inl hx))
  · rcases hone with rfl | rfl
    · cases hx
    · rw [mem_singleton.1 hx]
  · exact absurd he (hother x (.inr hx))

theorem orderly_retire {l1 l2 here : List Grant} {g : Grant} {answer : Except Fail Unit}
    (h : Orderly [] s) (hgrants : s.grants = l1 ++ g :: l2)
    (hretire : s.jobs.retireCreateScope room ⟨g.entry, g.task⟩ = (answer, j))
    (hone : here = [] ∨ here = [{ g with revoked := true }]) :
    Goes s { s with jobs := j, grants := l1 ++ here ++ l2 } := by
  obtain ⟨hgone, hmoves⟩ := orderly_grant_at h hgrants here
    (hone.imp_right fun hhere => ⟨{ g with revoked := true }, hhere, rfl, rfl, fun _ => rfl⟩)
  obtain ⟨answer', closed, heq, -, -, -, hclosed⟩ := retire_eq hgone.swept room ⟨g.entry, g.task⟩
  cases hretire.symm.trans heq
  refine ⟨orderly_records (j := { s.jobs with closed }) hgone
    ⟨hgone.sound.keys, hgone.sound.marks, fun sc hsc => ?_⟩ (fun sc hsc => (hclosed sc hsc).1)
    rfl rfl rfl s.control, hmoves.dead, fun _ h => h, fun _ r hr => .inl ⟨r, hr, .refl r⟩⟩
  rcases (hclosed sc hsc).2 with hsc | rfl
  · exact hgone.sound.closed sc hsc
  · exact dead_retired h hgrants hone _

/-- What the rest of a frame does. -/
inductive Rest (s : System) : Action → System → Prop
  | queue {a : Action} {work flight : List Work} (gone : List JobId)
    (hperm : (gone ++ (work ++ flight).map Work.id).Perm ((s.jobs.work ++ s.flight).map Work.id))
    (hold : ∀ w ∈ work ++ flight, w ∈ s.jobs.work ++ s.flight ∨ w.construct? = none) :
    Rest s a { s with jobs := { s.jobs with work }, flight }
  | submits {a : Action} {jobs : Jobs}
    (h : ∀ dead, Submits dead s.jobs jobs ∧ jobs.watermarks = s.jobs.watermarks) :
    Rest s a { s with jobs }
  | completed {a : Action} {jobs : Jobs} (h : s.jobs.completed s.control = some jobs) :
    Rest s a { s with jobs }
  | grant_at {a : Action} {l1 l2 here : List Grant} {g : Grant} (hgrants : s.grants = l1 ++ g :: l2)
    (hone : here = [] ∧ g.delivered = false ∨ here = [{ g with delivered := true }]) :
    Rest s a { s with grants := l1 ++ here ++ l2 }
  | granted {a : Action} {g : Grant} (hentry : g.entry = s.tokens) (hnew : g.revoked = false) :
    Rest s a { s with grants := s.grants ++ [g], tokens := s.tokens + 1 }
  | retired {task : TaskId} {released : Bool} {room : Room} {l1 l2 here : List Grant} {g : Grant}
    {answer : Except Fail Unit} {jobs : Jobs} (hgrants : s.grants = l1 ++ g :: l2)
    (hfind : s.grants.find? (·.task = task) = some g) (hlet : g.revoked = true ∨ released = true)
    (h : s.jobs.retireCreateScope room ⟨g.entry, g.task⟩ = (answer, jobs))
    (hone : here = [] ∧ answer = .ok () ∨ here = [{ g with revoked := true }]) :
    Rest s (.retire task released room) { s with jobs, grants := l1 ++ here ++ l2 }
  | control {a : Action} (control : Control) : Rest s a { s with control }
  | elsewhere {a : Action} {tokens : PieToken} {tasks : TaskId} (htokens : s.tokens ≤ tokens)
    (htasks : s.tasks ≤ tasks) : Rest s a { s with tokens, tasks }

variable {a : Action}

theorem Rest.same : Rest s a s := .elsewhere (Nat.le_refl _) (Nat.le_refl _)

theorem Rest.serving (h : Rest s a s') : s'.serving = s.serving := by
  cases h <;> rfl

theorem grant_rest (task : TaskId) (policy : Nat) (unsealed delivered released : Bool) :
    Rest s a (s.grant task policy unsealed delivered released) := by
  unfold grant
  split
  · next spot hspot =>
    obtain ⟨l1, g, l2, hgrants, hget, herase, hset, -⟩ := cut_of_findIdx? hspot
    rw [hget]
    dsimp only
    split
    · exact .same
    next hnot =>
    split
    · rw [hset, append_cons]
      exact .grant_at hgrants (.inr rfl)
    split
    · rw [herase, ← append_nil l1]
      exact .grant_at hgrants (.inl ⟨rfl, Bool.eq_false_iff.2 fun hd => hnot (by simp [hd])⟩)
    · exact .same
  · split
    · exact .same
    split
    · exact .granted rfl rfl
    · exact .elsewhere (Nat.le_succ _) (Nat.le_refl _)

/-- A turn of a retirement stops at once, or gets to the scope of the first grant of the task. -/
theorem retire_cases (task : TaskId) (released : Bool) (room : Room) :
    (s.retire task released room = s ∧ ∀ g, s.grants.find? (·.task = task) = some g →
      released = false) ∨
    ∃ l1 g l2 here answer jobs, s.grants = l1 ++ g :: l2 ∧
      s.grants.find? (·.task = task) = some g ∧ (g.revoked = true ∨ released = true) ∧
      s.jobs.retireCreateScope room ⟨g.entry, g.task⟩ = (answer, jobs) ∧
      (here = [] ∧ answer = .ok () ∨ here = [{ g with revoked := true }]) ∧
      s.retire task released room = { s with jobs, grants := l1 ++ here ++ l2 } := by
  unfold retire
  split
  · next hnone =>
    rw [findIdx?_eq_none_iff] at hnone
    refine .inl ⟨rfl, fun g hg => ?_⟩
    simpa [hnone g (mem_of_find?_eq_some hg)] using find?_some hg
  next spot hspot =>
  obtain ⟨l1, g, l2, hgrants, hget, herase, hset, hfind⟩ := cut_of_findIdx? hspot
  rw [hget]
  dsimp only
  split
  · next hlet =>
    simp only [Bool.and_eq_true, Bool.not_eq_true'] at hlet
    exact .inl ⟨rfl, fun _ _ => hlet.2⟩
  next hlet =>
  have hlet : g.revoked = true ∨ released = true := by
    cases hr : g.revoked <;> cases released <;> simp_all
  right
  split
  · next hretire =>
    rw [herase, ← append_nil l1]
    exact ⟨l1, g, l2, _, _, _, hgrants, hfind, hlet, hretire, .inl ⟨rfl, rfl⟩, rfl⟩
  · next hretire =>
    rw [hset, append_cons]
    exact ⟨l1, g, l2, _, _, _, hgrants, hfind, hlet, hretire, .inr rfl, rfl⟩

theorem retire_rest (task : TaskId) (released : Bool) (room : Room) :
    Rest s (.retire task released room) (s.retire task released room) := by
  rcases retire_cases (s := s) task released room with ⟨heq, -⟩ |
    ⟨l1, g, l2, here, answer, jobs, hgrants, hfind, hlet, hretire, hone, heq⟩
  · rw [heq]
    exact .same
  · rw [heq]
    exact .retired hgrants hfind hlet hretire hone

theorem phase_id {id : JobId} (h : w.isPhase id = true) : w.id = id := by
  cases w with
  | phase id' reference hook => exact of_decide_eq_true h
  | _ => cases h

/-- A piece of work in flight is over, or goes back. -/
theorem rest_landed {w w' : Work} (hw : w ∈ s.flight) (hid : w'.id = w.id)
    (hw' : w' = w ∨ w'.construct? = none) :
    Rest s a { s with jobs := s.jobs.push w', flight := s.flight.erase w } := by
  refine .queue [] ?_ ?_
  · have hids : (s.jobs.work ++ [w'] ++ s.flight.erase w).map Work.id =
        (s.jobs.work ++ w :: s.flight.erase w).map Work.id := by
      simp [hid]
    rw [hids]
    exact ((perm_cons_erase hw).symm.append_left s.jobs.work).map Work.id
  intro x hx
  simp only [mem_append, mem_singleton] at hx
  rcases hx with (hx | rfl) | hx
  · exact .inl (mem_append_left _ hx)
  · exact hw'.imp_left fun he : x = w => he ▸ mem_append_right _ hw
  · exact .inl (mem_append_right _ (mem_of_mem_erase hx))

theorem other_rest (hstep : s.other a = some s') : Rest s a s' := by
  -- what is left of a queue that was permuted was there before
  have hturned : ∀ {a : Action} {work flight : List Work},
      (work ++ flight).Perm (s.jobs.work ++ s.flight) →
      Rest s a { s with jobs := { s.jobs with work }, flight } :=
    fun hperm => .queue [] (hperm.map Work.id) fun w hw => .inl (hperm.subset hw)
  cases a with
  | dispatch ask approved room => cases hstep
  | construct settling makes => cases hstep
  | completed =>
    obtain ⟨j, hj, rfl⟩ := map_eq_some_iff.1 hstep
    exact .completed hj
  | grant task policy unsealed delivered released =>
    cases hstep
    exact grant_rest task policy unsealed delivered released
  | retire task released room =>
    cases hstep
    exact retire_rest task released room
  | phase room reference hook =>
    cases hstep
    exact .submits fun _ => phase_submits room reference hook
  | completeCreatePrepare id reference =>
    cases hstep
    exact .submits fun _ => completeCreatePrepare_submits id reference
  | completePhase id =>
    cases hstep
    unfold completePhase
    split
    · exact .same
    next spot hspot =>
    obtain ⟨l1, w, l2, hwork, rfl, hw, -⟩ := exists_of_findIdx? hspot
    rw [hwork, eraseIdx_append_cons]
    refine .queue [] ?_ ?_
    · rw [hwork, perm_iff_count]
      intro x
      have hsame : (Work.completed id .other).id = w.id := (phase_id hw).symm
      simp only [nil_append, map_append, map_cons, map_nil, count_append,
        count_cons, count_nil, hsame]
      omega
    intro x hx
    simp only [hwork, mem_append, mem_cons, not_mem_nil, or_false] at hx ⊢
    rcases hx with ((hx | hx) | rfl) | hx
    · exact .inl (.inl (.inl hx))
    · exact .inl (.inl (.inr (.inr hx)))
    · exact .inr rfl
    · exact .inl (.inr hx)
  | selectLifecycle =>
    obtain ⟨⟨w, j⟩, hselect, rfl⟩ := map_eq_some_iff.1 hstep
    obtain ⟨⟨w', work⟩, hpop, he⟩ := map_eq_some_iff.1 hselect
    cases he
    refine hturned ?_
    rw [← append_assoc]
    exact (perm_append_singleton _ _).trans ((popMatching_perm hpop).symm.append_right s.flight)
  | takeCommands limit =>
    cases hstep
    have hperm := takeCommandsFrom_perm limit s.jobs.work.length s.jobs.work []
    refine hturned ?_
    rw [perm_iff_count]
    intro x
    have hcount := hperm.count_eq x
    simp only [nil_append, takeCommands, count_append] at hcount ⊢
    omega
  | requeue w =>
    obtain ⟨hw, hs⟩ := ite_none_right_eq_some.1 hstep
    cases hs
    exact rest_landed hw rfl (.inl rfl)
  | complete w =>
    obtain ⟨hw, hs⟩ := ite_none_right_eq_some.1 hstep
    cases hs
    exact rest_landed hw rfl (.inr rfl)
  | take id =>
    obtain ⟨⟨w, j⟩, htake, rfl⟩ := map_eq_some_iff.1 hstep
    obtain ⟨l1, l2, hwork, rfl⟩ := take_cut htake
    refine .queue [w.id] ?_ fun x hx => .inl ?_
    · rw [hwork, append_assoc, append_assoc, cons_append]
      exact (perm_middle (a := w)).symm.map Work.id
    · rw [hwork]
      exact ((sublist_cons_self _ _).append_left _).append_right _ |>.subset hx
  | control instances =>
    obtain ⟨-, hs⟩ := ite_none_right_eq_some.1 hstep
    cases hs
    exact .control _
  | elsewhere tokens tasks =>
    cases hstep
    exact .elsewhere (Nat.le_max_left _ _) (Nat.le_max_left _ _)
  | _ =>
    cases hstep
    exact .submits fun _ => submit_submits (fun _ => rfl) fun _ => rfl

theorem orderly_rest (h : Orderly [] s) (hserving : s.serving = false)
    (hrest : Rest s a s') : Goes s s' := by
  cases hrest with
  | @queue _ work flight gone hperm hold =>
    have hquiet : ∀ w ∈ work ++ flight, w.construct? = none := by
      intro w hw
      rcases hold w hw with hw | hw
      · exact (mem_append.1 hw).elim (h.quiet hserving w) (h.flight w)
      · exact hw
    obtain ⟨hsound, hgrows⟩ := withQueue_evolves s.Dead s.jobs work s.jobs.next h.sound
    exact ⟨{ h with
      sound := hsound
      numbers := (nodup_append.1 (hperm.nodup_iff.2 h.numbers)).2.1
      next := fun id hid => h.next id (hperm.subset (mem_append_right _ hid))
      quiet := fun _ w hw => hquiet w (mem_append_left _ hw)
      flight := fun w hw => hquiet w (mem_append_right _ hw) }, fun _ hd => hd, hgrows⟩
  | submits hj => exact orderly_submits h (hj _).1
  | completed hj => exact orderly_completed h hj
  | grant_at hgrants hone =>
    refine orderly_grant_at h hgrants _ (hone.imp (·.1) fun hhere => ?_)
    exact ⟨_, hhere, rfl, rfl, fun hr => hr⟩
  | granted hentry => exact orderly_granted h hentry
  | retired hgrants hfind hlet hretire hone =>
    exact orderly_retire h hgrants hretire (hone.imp_left (·.1))
  | control control =>
    exact ⟨orderly_records h h.sound h.swept rfl rfl rfl _, fun _ hd => hd, .refl _⟩
  | elsewhere htokens htasks =>
    obtain ⟨hgrants, hmoves⟩ := orderly_grants _ h h.entries
      (fun g hg => Nat.lt_of_lt_of_le (h.tokens g hg) htokens) htokens
      fun g hg _ => ⟨g, hg, rfl, rfl, fun hr => hr⟩
    exact ⟨{ hgrants with tasks := fun l hl => Nat.lt_of_lt_of_le (h.tasks l hl) htasks },
      hmoves.dead, hmoves.grows⟩

/-! ## Runs -/

/-- The ways of a step. -/
inductive Steps (s : System) : Action → System → List Event → Prop
  | refused {ask : Ask} {approved : Bool} {room : Room} : Steps s (.dispatch ask approved room) s []
  | dispatch {ask : Ask} {approved : Bool} {room : Room} {s' : System} {es : List Event}
    (halive : ¬ s.Dead ask.key.scope) (hadmits : s.usable ask.entry ask.caller = true)
    (h : Dispatching { s with serving := true } ask room s' es) :
    Steps s (.dispatch ask approved room) s' es
  | construct {settling : Bool} {makes : JobId → Make} {s' : System} {es : List Event}
    (h : { s with jobs := s.jobs.settle settling, serving := false }.construct makes = (s', es)) :
    Steps s (.construct settling makes) s' es
  | rest {a : Action} {s' : System} (hserving : s.serving = false) (h : Rest s a s') :
      Steps s a s' []

theorem step_cases (hstep : s.step a = some (s', es)) : Steps s a s' es := by
  have hother : (if s.serving then none else (s.other a).map fun s => (s, ([] : List Event))) =
      some (s', es) → Steps s a s' es := by
    intro hstep
    split at hstep
    · cases hstep
    next hserving =>
    obtain ⟨s1, hs1, he⟩ := map_eq_some_iff.1 hstep
    cases he
    exact .rest (by simpa using hserving) (other_rest hs1)
  cases a with
  | dispatch ask approved room =>
    change (if _ then _ else _) = _ at hstep
    split at hstep
    · next hadmits =>
      simp only [admits, Bool.and_eq_true] at hadmits
      refine .dispatch ?_ hadmits.1.1.1 (dispatch_cases hstep)
      rintro ⟨_, hdead⟩
      have h := hadmits.1.1.1
      simp only [usable, List.any_eq_true, Bool.and_eq_true, decide_eq_true_eq,
        Bool.not_eq_true'] at h
      obtain ⟨g, hg, ⟨⟨he, ht⟩, _⟩, hrevoked⟩ := h
      rw [hdead g hg he ht] at hrevoked
      cases hrevoked
    · cases hstep
      exact .refused
  | construct settling makes => exact .construct (some.inj hstep)
  | _ => exact hother hstep

/-- One step keeps it, and the records grow. -/
theorem orderly_step (h : Orderly [] s) (hstep : Steps s a s' es) : Goes s s' := by
  cases hstep with
  | refused => exact ⟨h, fun _ hd => hd, .refl _⟩
  | dispatch halive hadmits hstep =>
    obtain ⟨⟨horderly, hgrows⟩, hdead⟩ := orderly_dispatch (orderly_serving h) rfl halive hstep
    refine ⟨horderly, fun scope hd => hdead ▸ hd, ?_⟩
    rw [hdead]
    exact hgrows
  | @construct settling makes _ _ hconstruct =>
    have hdone := orderly_construct h settling makes
    rw [hconstruct] at hdone
    exact hdone
  | rest hserving hrest => exact orderly_rest h hserving hrest

theorem runs_orderly {meets : System → Action → Prop} (h : Runs meets s es) : Orderly [] s := by
  induction h with
  | new self tokens tasks => exact orderly_new self tokens tasks
  | step _ _ hstep ih => exact (orderly_step ih (step_cases hstep)).1

end System

end Sqware.Assembly
