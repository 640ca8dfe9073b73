import Sqware.Assembly.Orderly

/-!
# A construction request builds at most one instance

A repeated BUILD is queued like the first one and recognised only when it is processed, by the
record of its key.  A record that is not pending is dropped when a much larger number comes in, also
while a repeated BUILD of its key waits in the queue; that BUILD is then constructed as if it were
the first.
-/

namespace Sqware.Assembly

open Jobs List Option

/-- The CANCEL of this key was answered with CANCELLED. -/
def Event.cancels (key : CreateKey) (e : Event) : Prop :=
  ∃ said, e = .answered .cancel key said ∧ said.state = .cancelled

/-- No finished record that the key would drop belongs to a request still in the queue. -/
def Jobs.Spares (j : Jobs) (key : CreateKey) : Prop :=
  j.create key = none → ∀ id request key' r, Work.construct id request ∈ j.work →
    request.create = some key' → j.create key' = some r → key'.scope = key.scope →
      key'.id ≤ key.id - 64 → r.pending = true

/-- No BUILD or CANCEL comes in that drops a record a queued request depends on. -/
def Calm (s : System) : Action → Prop
  | .dispatch ask _ _ => ask.op ≠ .inspect → s.jobs.Spares ask.key
  | _ => True

namespace Jobs

variable {j j' j'' : Jobs} {key : CreateKey} {dead : Scope → Prop}

/-- The records of scopes in use are kept, those apart that a new key drops. -/
def KeepsBut (dead : Scope → Prop) (key : CreateKey) (j j' : Jobs) : Prop :=
  ∀ k, ¬ dead k.scope → (j.create k).isSome = true → (j'.create k).isSome = true ∨
    (j.create key = none ∧ k.scope = key.scope ∧ k.id ≤ key.id - 64 ∧
      ∃ r, j.create k = some r ∧ r.pending = false)

theorem Keeps.but (h : Keeps dead j j') : KeepsBut dead key j j' :=
  fun k hd hr => .inl (h k hd hr)

theorem KeepsBut.trans (h : KeepsBut dead key j j') (h' : Keeps dead j' j'') :
    KeepsBut dead key j j'' := by
  intro k hd hr
  rcases h k hd hr with hk | hk
  · exact .inl (h' k hd hk)
  · exact .inr hk

theorem prune_keepsBut (hs : Sound dead j) (hnone : j.create key = none) :
    KeepsBut dead key j (j.pruneCreates key) := by
  intro k _ hr
  obtain ⟨r, hr⟩ := isSome_iff_exists.1 hr
  have hk : r.key = k := Keyed.key_of_get hr
  rw [prune_create hs, hr]
  by_cases hstay : (r.scope ≠ key.scope || key.id - 64 < r.key.id || r.pending) = true
  · left
    rw [Option.filter, if_pos hstay]
    rfl
  right
  simp only [Bool.or_eq_true, decide_eq_true_eq, not_or, Bool.not_eq_true, not_not] at hstay
  obtain ⟨⟨hscope, hlt⟩, hpending⟩ := hstay
  refine ⟨hnone, hk ▸ hscope, ?_, r, rfl, hpending⟩
  rw [← hk]
  omega

/-- No construction waits in the queue that did not wait before. -/
abbrev Drains (j j' : Jobs) : Prop :=
  ∀ id request, Work.construct id request ∈ j'.work → Work.construct id request ∈ j.work

/-- The key is spent, and its record has the mark if it is still there. -/
def Marked (P : CreateRecord → Prop) (dead : Scope → Prop) (key : CreateKey) (j : Jobs) : Prop :=
  j.Spent dead key ∧ ∀ r, j.create key = some r → P r

section

variable {P : CreateRecord → Prop} (hP : ∀ {r r'}, Follows r r' → P r → P r')
include hP

/-- A mark that a record cannot lose stays with the key. -/
theorem Marked.grows (h : j.Marked P dead key) (hg : Grows dead j j') : j'.Marked P dead key := by
  refine ⟨hg.spent key h.1, fun r' hr' => ?_⟩
  rcases hg.records key r' hr' with ⟨r, hr, hfollows⟩ | hnew
  · exact hP hfollows (h.2 r hr)
  · exact absurd h.1 hnew

theorem marked_of_create {r : CreateRecord} (hs : Sound dead j) (hr : j.create key = some r)
    (h : P r) (hg : Grows dead j j') : j'.Marked P dead key := by
  refine Marked.grows hP ⟨.inl (hs.marks key r hr), fun r' hr' => ?_⟩ hg
  cases hr'.symm.trans hr
  exact h

end

end Jobs

namespace System

variable {s s' : System} {key : CreateKey} {taken : List (JobId × Request)} {es es' : List Event}

/-- Every request that waits has a record, and a scope in use. -/
def Backed (taken : List (JobId × Request)) (s : System) : Prop :=
  ∀ id request key, ((id, request) ∈ taken ∨ Work.construct id request ∈ s.jobs.work) →
    request.create = some key → (s.jobs.create key).isSome = true ∧ ¬ s.Dead key.scope

/-- The key is spent and its record has a fingerprint. -/
abbrev Built (s : System) (key : CreateKey) : Prop :=
  s.jobs.Marked (·.fingerprint.isSome = true) s.Dead key

/-- The key is spent and its record is cancelled. -/
abbrev Cancelled (s : System) (key : CreateKey) : Prop :=
  s.jobs.Marked (·.cancelled = true) s.Dead key

/-- What was built and what was cancelled is marked so. -/
structure Recalls (s : System) (es : List Event) : Prop where
  built : ∀ key, .built key ∈ es → s.Built key
  cancelled : ∀ key, (∃ e ∈ es, e.cancels key) → s.Cancelled key

/-- A later event does not build what an earlier one built or cancelled. -/
def Apart (e e' : Event) : Prop := ∀ key, e' = .built key → e ≠ .built key ∧ ¬ e.cancels key

variable {j : Jobs}

theorem marked_moves {P : CreateRecord → Prop} (hm : Moves s s') (h : j.Marked P s.Dead key) :
    j.Marked P s'.Dead key :=
  ⟨h.1.imp_right (hm.dead key.scope), h.2⟩

theorem recalls_moves (h : Recalls s es) (hm : Moves s s') : Recalls s' es :=
  ⟨fun key hbuilt => (marked_moves hm (h.built key hbuilt)).grows (·.2) hm.grows,
    fun key hcancelled => (marked_moves hm (h.cancelled key hcancelled)).grows (·.1) hm.grows⟩

/-- Everything at once. -/
structure Accounted (taken : List (JobId × Request)) (s : System) (es : List Event) : Prop where
  orderly : Orderly taken s
  backed : Backed taken s
  recalls : Recalls s es
  apart : es.Pairwise Apart

/-! ## Constructions -/

variable {id : JobId} {request : Request} {jobs : Jobs}

/-- A request that waits and is built has a record, which was neither cancelled nor seen before. -/
theorem first_seen (h : Backed ((id, request) :: taken) s)
    (hfirst : First s.jobs request.create jobs) (hkey : request.create = some key) :
    ∃ r fingerprint, s.jobs.create key = some r ∧ r.fingerprint = none ∧ r.cancelled = false ∧
      jobs = s.jobs.setCreate key fun r => { r with fingerprint := some fingerprint } := by
  obtain ⟨hsome, -⟩ := h id request key (.inl mem_cons_self) hkey
  cases hfirst with
  | anonymous hnone => cases hkey.symm.trans hnone
  | forgotten hkey' hnone =>
    cases hkey.symm.trans hkey'
    rw [hnone] at hsome
    cases hsome
  | seen fingerprint hkey' hr hnone hlive =>
    cases hkey.symm.trans hkey'
    exact ⟨_, fingerprint, hr, hnone, hlive, rfl⟩

/-- A request is built only if its key was neither built nor cancelled before. -/
theorem apart_first (h : Accounted ((id, request) :: taken) s es)
    (hfirst : First s.jobs request.create jobs) (hkey : request.create = some key) :
    ∀ e ∈ es, e ≠ .built key ∧ ¬ e.cancels key := by
  obtain ⟨r, fingerprint, hr, hnone, hlive, -⟩ := first_seen h.backed hfirst hkey
  intro e he
  constructor
  · rintro rfl
    have hsome : r.fingerprint.isSome = true := (h.recalls.built key he).2 r hr
    rw [hnone] at hsome
    cases hsome
  · intro hcancels
    cases hlive.symm.trans ((h.recalls.cancelled key ⟨e, he, hcancels⟩).2 r hr)

theorem backed_keeps (h : Backed taken s) (hkeeps : Keeps s.Dead s.jobs j) (hwork : Drains s.jobs j)
    (control : Control) (tasks : TaskId) : Backed taken { s with jobs := j, control, tasks } := by
  intro id request key hwaits hkey
  obtain ⟨hsome, halive⟩ := h id request key (hwaits.imp_right (hwork id request)) hkey
  exact ⟨hkeeps key halive hsome, halive⟩

theorem Backed.tail (h : Backed ((id, request) :: taken) s) : Backed taken s :=
  fun id' request' key hwaits hkey =>
    h id' request' key (hwaits.imp_left (mem_cons_of_mem _)) hkey

theorem first_keeps (h : jobs = s.jobs ∨ First s.jobs request.create jobs) :
    Keeps s.Dead s.jobs jobs ∧ jobs.work = s.jobs.work := by
  rcases h with rfl | h
  · exact ⟨(Alike.refl _).keeps, rfl⟩
  cases h with
  | anonymous => exact ⟨(Alike.refl _).keeps, rfl⟩
  | forgotten => exact ⟨(Alike.refl _).keeps, rfl⟩
  | seen fingerprint => exact ⟨setCreate_keeps fun _ => rfl, rfl⟩

theorem consume_keeps (h : Orderly ((id, request) :: taken) s) (outcome : Outcome)
    (create : Option CreateKey) :
    Keeps s.Dead s.jobs (s.jobs.consumeConstruct id outcome create).2 ∧
      (s.jobs.consumeConstruct id outcome create).2.work = s.jobs.work := by
  have hconcludes : Concludes s.Dead s.jobs (s.jobs.consumeConstruct id outcome create).2 :=
    consumeConstruct_concludes h.not_completed outcome create
  exact ⟨hconcludes.keeps h.sound, hconcludes.work⟩

theorem launched_keeps (launch : Launch) (h : Orderly ((id, request) :: taken) s)
    (create : Option CreateKey) (control : Control) :
    Keeps s.Dead s.jobs (s.launched id create launch control).jobs ∧
      (s.launched id create launch control).jobs.work = s.jobs.work := by
  obtain ⟨hkeeps, hwork⟩ := consume_keeps h (.construct launch.reference) create
  unfold launched
  dsimp only
  split
  · exact ⟨hkeeps.trans (Alike.keeps ⟨rfl, rfl, rfl⟩), hwork⟩
  · exact ⟨hkeeps, hwork⟩

/-- The record of a request that is built has a fingerprint from then on. -/
theorem first_marks (h : Accounted ((id, request) :: taken) s es)
    (hfirst : First s.jobs request.create jobs) (hkey : request.create = some key) :
    ∃ r, jobs.create key = some r ∧ r.fingerprint.isSome = true := by
  obtain ⟨r, fingerprint, hr, -, -, rfl⟩ := first_seen h.backed hfirst hkey
  refine ⟨{ r with fingerprint := some fingerprint }, ?_, rfl⟩
  rw [setCreate_create (f := fun r => { r with fingerprint := some fingerprint }) (fun _ => rfl),
    if_pos rfl, hr]
  rfl

/-- One more event, with what it means if it is a construction or a cancellation. -/
theorem accounted_event {e : Event} (horderly : Orderly taken s) (hbacked : Backed taken s)
    (hrecalls : Recalls s es) (hapart : es.Pairwise Apart)
    (hbuilt : ∀ key, e = .built key →
      s.Built key ∧ ∀ e' ∈ es, e' ≠ .built key ∧ ¬ e'.cancels key)
    (hcancels : ∀ key, e.cancels key → s.Cancelled key) : Accounted taken s (es ++ [e]) := by
  refine ⟨horderly, hbacked, ⟨?_, ?_⟩, ?_⟩
  · intro key hmem
    rcases mem_append.1 hmem with hmem | hmem
    · exact hrecalls.built key hmem
    · exact (hbuilt key (mem_singleton.1 hmem).symm).1
  · rintro key ⟨e', he', hc⟩
    rcases mem_append.1 he' with he' | he'
    · exact hrecalls.cancelled key ⟨e', he', hc⟩
    · rw [mem_singleton.1 he'] at hc
      exact hcancels key hc
  rw [pairwise_append]
  refine ⟨hapart, pairwise_singleton _ _, ?_⟩
  intro e1 he1 e2 he2 key hkey
  rw [mem_singleton.1 he2] at hkey
  exact (hbuilt key hkey).2 e1 he1

theorem accounted_constructRequest (h : Accounted ((id, request) :: taken) s es) (make : Make) :
    Accounted taken (s.constructRequest make id request).1
      (es ++ (s.constructRequest make id request).2) := by
  obtain ⟨horderly, hgrows⟩ := orderly_constructRequest h.orderly make
  have hdead := constructRequest_dead s id request make
  have hmoves : Moves s (s.constructRequest make id request).1 :=
    ⟨fun scope hd => hdead ▸ hd, hdead ▸ hgrows⟩
  have hrecalls := recalls_moves h.recalls hmoves
  have hcases := constructRequest_cases s make id request
  generalize s.constructRequest make id request = res at hcases horderly hrecalls ⊢
  cases hcases with
  | finished jobs control outcome hj =>
    obtain ⟨hkeeps, hwork⟩ := first_keeps hj
    obtain ⟨hmid, -⟩ := orderly_first h.orderly control hj
    obtain ⟨hmore, hwork'⟩ := consume_keeps hmid outcome request.create
    rw [append_nil]
    refine ⟨horderly, ?_, hrecalls, h.apart⟩
    refine backed_keeps h.backed.tail (hkeeps.trans hmore) (fun id request hw => ?_) control s.tasks
    rw [← hwork, ← hwork']
    exact hw
  | built jobs launch control hj htask =>
    obtain ⟨hkeeps, hwork⟩ := first_keeps (.inr hj)
    obtain ⟨hmid, -⟩ := orderly_first h.orderly s.control (.inr hj)
    obtain ⟨hmore, hwork'⟩ := launched_keeps launch hmid request.create control
    obtain ⟨-, hlaunched⟩ := orderly_launched hmid htask request.create control
    have hbacked : Backed taken ({ s with jobs }.launched id request.create launch control) := by
      refine backed_keeps h.backed.tail (hkeeps.trans hmore) (fun id request hw => ?_) control
        (s.tasks + 1)
      rw [← hwork, ← hwork']
      exact hw
    cases hcreate : request.create with
    | none =>
      rw [hcreate] at horderly hrecalls hbacked
      rw [map_none, toList_none, append_nil]
      exact ⟨horderly, hbacked, hrecalls, h.apart⟩
    | some key =>
      have hapart := apart_first h hj hcreate
      obtain ⟨r, hr, hfp⟩ := first_marks h hj hcreate
      have hmark := marked_of_create (P := (·.fingerprint.isSome = true)) (·.2) hmid.sound hr hfp
        hlaunched
      rw [hcreate] at horderly hrecalls hbacked hmark
      refine accounted_event horderly hbacked hrecalls h.apart (fun key' he => ?_) ?_
      · cases he
        exact ⟨hmark, hapart⟩
      · rintro key' ⟨said, he, -⟩
        cases he

theorem accounted_constructEach (makes : JobId → Make) (h : Accounted taken s es) :
    Accounted [] (constructEach makes s taken).1 (es ++ (constructEach makes s taken).2) := by
  induction taken generalizing s es with
  | nil =>
    rw [constructEach, append_nil]
    exact h
  | cons entry rest ih =>
    obtain ⟨id, request⟩ := entry
    have hrest := ih (accounted_constructRequest h (makes id))
    rw [append_assoc] at hrest
    exact hrest

theorem mem_construct? {work : List Work} :
    (id, request) ∈ work.filterMap Work.construct? ↔ Work.construct id request ∈ work := by
  rw [mem_filterMap]
  constructor
  · rintro ⟨w, hw, he⟩
    cases w with
    | construct id' request' =>
      cases he
      exact hw
    | _ => cases he
  · exact fun hw => ⟨_, hw, rfl⟩

theorem backed_of_quiet (h : ∀ w ∈ s.jobs.work, w.construct? = none) : Backed [] s := by
  rintro id request key (hw | hw) _
  · cases hw
  · cases h _ hw

theorem accounted_construct (h : Accounted [] s es) (settling : Bool) (makes : JobId → Make) :
    Accounted [] ({ s with jobs := s.jobs.settle settling, serving := false }.construct makes).1
      (es ++ ({ s with jobs := s.jobs.settle settling, serving := false }.construct makes).2) := by
  obtain ⟨hsettled, hgrows⟩ := orderly_settle h.orderly settling
  have hbacked : Backed [] { s with jobs := s.jobs.settle settling, serving := true } := by
    cases settling with
    | false => exact h.backed
    | true =>
      obtain ⟨hdone, -⟩ := orderly_settleEach (orderly_batch h.orderly)
      exact backed_of_quiet (hdone.quiet rfl)
  have hbatch := orderly_batch hsettled
  have htake : Grows s.Dead (s.jobs.settle settling)
      (s.jobs.settle settling).takeConstructBatch.2 :=
    (withQueue_evolves s.Dead _ _ _ hsettled.sound).2
  refine accounted_constructEach makes ⟨hbatch, ?_, ?_, h.apart⟩
  · rintro id request key (hw | hw) hkey
    · exact hbacked id request key (.inr (mem_construct?.1 hw)) hkey
    · have hnone := hbatch.quiet rfl _ hw
      cases hnone
  · exact recalls_moves h.recalls ⟨fun _ hd => hd, hgrows.trans htake⟩

/-! ## Requests -/

theorem backed_keepsBut (h : Backed [] s) (hcalm : s.jobs.Spares key)
    (hkeeps : KeepsBut s.Dead key s.jobs j) (hwork : Drains s.jobs j) (control : Control) :
    Backed [] { s with jobs := j, control } := by
  rintro id request key' (hw | hw) hkey
  · cases hw
  obtain ⟨hsome, halive⟩ := h id request key' (.inr (hwork id request hw)) hkey
  rcases hkeeps key' halive hsome with hk | ⟨hnone, hscope, hle, r, hr, hpending⟩
  · exact ⟨hk, halive⟩
  · rw [hcalm hnone id request key' r (hwork id request hw) hkey hr hscope hle] at hpending
    cases hpending

/-- A CANCEL keeps the records requests depend on, and answers CANCELLED only with a mark. -/
theorem cancelCreate_marks {room : Room} {said : Said} {c : Control} (h : Orderly [] s)
    (halive : ¬ s.Dead key.scope)
    (hcancel : s.jobs.cancelCreate room s.control key = some (said, j, c)) :
    KeepsBut s.Dead key s.jobs j ∧ Drains s.jobs j ∧
      (said.state = .cancelled → j.Marked (·.cancelled = true) s.Dead key) := by
  obtain ⟨hset, -⟩ := orderly_cancelling h halive
  have hkeeps : Keeps s.Dead s.jobs (s.jobs.setCreate key cancelling) :=
    setCreate_keeps fun _ => rfl
  have hmark : ∀ {r : CreateRecord} {j' : Jobs}, s.jobs.create key = some r →
      Grows s.Dead (s.jobs.setCreate key cancelling) j' →
      j'.Marked (·.cancelled = true) s.Dead key := by
    intro r j' hr hg
    have hr' : (s.jobs.setCreate key cancelling).create key = some (cancelling r) := by
      rw [setCreate_create (f := cancelling) (fun _ => rfl), if_pos rfl, hr]
      rfl
    exact marked_of_create (fun hf => hf.1) hset.sound hr' rfl hg
  have hcases := cancelCreate_cases s.jobs room s.control key
  rw [hcancel] at hcases
  generalize hres : some (said, j, c) = res at hcases
  cases hcases with
  | refused fail hnone hfail =>
    cases hres
    exact ⟨prune_keepsBut h.sound hnone, fun _ _ hw => hw, fun hf => nomatch hf⟩
  | unseen hnone hfree =>
    cases hres
    have hgone := prune_none h.sound hnone
    obtain ⟨hentered, -⟩ := orderly_pruned_enter (r := unseen key) h rfl hnone hfree halive
    refine ⟨(prune_keepsBut h.sound hnone).trans (enter_keeps hgone), fun _ _ hw => hw, fun _ => ?_⟩
    have hr := (enter_create (r := unseen key) hgone key).trans (if_pos rfl)
    exact marked_of_create (fun hf => hf.1) hentered.sound hr rfl (.refl _)
  | stopped hr hlaunch =>
    cases hres
    exact ⟨(hkeeps.trans (setSaid_keeps _)).but, fun _ _ hw => hw, fun hf => nomatch hf⟩
  | @queued r id request l1 l2 hr hlaunch hwork hid hcreate hspot =>
    obtain ⟨r', hr', he⟩ := map_eq_some_iff.1 hres.symm
    cases he
    have hclear : ∀ w ∈ l1 ++ l2, w.completedId ≠ some id :=
      (orderly_unqueue hset hwork).not_completed
    have hconcludes : Concludes s.Dead { s.jobs.setCreate key cancelling with work := l1 ++ l2 }
        ({ s.jobs.setCreate key cancelling with work := l1 ++ l2 }.consumeConstruct id .cancelled
          (some key)).2 := consumeConstruct_concludes hclear .cancelled (some key)
    have hqueue := withQueue_evolves s.Dead (s.jobs.setCreate key cancelling) (l1 ++ l2)
      (s.jobs.setCreate key cancelling).next hset.sound
    refine ⟨(hkeeps.trans ((Alike.keeps ⟨rfl, rfl, rfl⟩).trans (hconcludes.keeps hqueue.1))).but,
      ?_, fun _ => hmark hr (hqueue.2.trans (hconcludes.evolves hqueue.1).2)⟩
    intro id' request' hw
    rw [hconcludes.work] at hw
    rw [hwork]
    exact ((sublist_cons_self _ _).append_left _).subset hw
  | idle hr hlaunch hwork =>
    cases hres
    exact ⟨(hkeeps.trans (setSaid_keeps _)).but, fun _ _ hw => hw, fun _ =>
      hmark hr (setSaid_evolves _ hset.sound).2⟩

/-- A BUILD keeps the records requests depend on, and one that is queued has a record. -/
theorem admitCreate_keeps (room : Room) (key : CreateKey) (h : Orderly [] s) (ask : Ask) :
    KeepsBut s.Dead key s.jobs (s.jobs.admitCreate room key ask).2 ∧
      (s.jobs.admitCreate room key ask).2.work = s.jobs.work ∧
      (∀ admission, (s.jobs.admitCreate room key ask).1 = .ok admission → admission ≠ .cancelled →
        ((s.jobs.admitCreate room key ask).2.create key).isSome = true) := by
  have hcases := admitCreate_cases s.jobs room key ask
  generalize (s.jobs.admitCreate room key ask).1 = result at hcases ⊢
  generalize (s.jobs.admitCreate room key ask).2 = j at hcases ⊢
  have hsame : KeepsBut s.Dead key s.jobs s.jobs := (Alike.refl s.jobs).keeps.but
  cases hcases with
  | refused fail => exact ⟨hsame, rfl, fun _ he => nomatch he⟩
  | cancelled =>
    refine ⟨hsame, rfl, fun admission he hne => ?_⟩
    exact absurd (Except.ok.inj he).symm hne
  | duplicate hr => exact ⟨hsame, rfl, fun _ _ _ => by rw [hr]; rfl⟩
  | pruned fail hnone => exact ⟨prune_keepsBut h.sound hnone, rfl, fun _ he => nomatch he⟩
  | new hnone hkey hfree =>
    subst hkey
    have hgone := prune_none h.sound hnone
    refine ⟨(prune_keepsBut h.sound hnone).trans (enter_keeps hgone), rfl, fun _ _ _ => ?_⟩
    rw [enter_create hgone, if_pos rfl]
    rfl

/-- A request whose key has a record is queued, or refused for lack of room. -/
theorem backed_enqueue (room : Room) (request : Request) (h : Orderly [] s) (hbacked : Backed [] s)
    (halive : ¬ s.Dead key.scope) (hkey : request.create = some key)
    (hsome : (s.jobs.create key).isSome = true) :
    Backed [] { s with jobs := (s.jobs.enqueue room request).2 } := by
  have hnext : ∀ w ∈ s.jobs.work, w.id < s.jobs.next := fun w hw =>
    h.next w.id (List.mem_map.2 ⟨w, mem_append_left _ hw, rfl⟩)
  rcases enqueue_cases room hnext hkey with hrefused | hqueued
  · rw [hrefused]
    exact backed_keeps hbacked (setSaid_keeps _) (fun _ _ hw => hw) s.control s.tasks
  rw [hqueued]
  have hkeeps : Keeps s.Dead s.jobs ({ s.jobs with
      next := s.jobs.next + 1
      work := s.jobs.work ++ [Work.construct s.jobs.next request] }.setCreate key
        fun r => { r with construct := some s.jobs.next }) :=
    Keeps.trans (Alike.keeps (j := s.jobs) ⟨rfl, rfl, rfl⟩)
      (setCreate_keeps (f := fun r => { r with construct := some s.jobs.next }) fun _ => rfl)
  rintro id' request' key' (hw | hw) hkey'
  · cases hw
  rcases mem_append.1 hw with hw | hw
  · obtain ⟨hsome', halive'⟩ := hbacked id' request' key' (.inr hw) hkey'
    exact ⟨hkeeps key' halive' hsome', halive'⟩
  · obtain ⟨-, rfl⟩ := Work.construct.inj (mem_singleton.1 hw)
    cases hkey.symm.trans hkey'
    exact ⟨hkeeps key halive hsome, halive⟩

theorem accounted_dispatch {ask : Ask} {room : Room} (h : Accounted [] s es)
    (hserving : s.serving = true) (halive : ¬ s.Dead ask.key.scope)
    (hcalm : ask.op ≠ .inspect → s.jobs.Spares ask.key)
    (hstep : Dispatching s ask room s' es') : Accounted [] s' (es ++ es') := by
  obtain ⟨⟨horderly, hgrows⟩, hdead⟩ := orderly_dispatch h.orderly hserving halive hstep
  have hrecalls : Recalls s' es := by
    refine recalls_moves h.recalls ⟨fun scope hd => hdead ▸ hd, ?_⟩
    rw [hdead]
    exact hgrows
  have hno : ∀ {op : Op} {said : Said}, op ≠ .cancel → ∀ key,
      (Event.answered op ask.key said).cancels key → s'.Cancelled key := by
    rintro op said hop key ⟨said', he, -⟩
    exact absurd (Event.answered.inj he).1 hop
  -- a BUILD that was admitted
  have hbuild : ∀ {answer jobs}, ask.op = .build →
      s.jobs.admitCreate room ask.key ask = (answer, jobs) →
      Orderly [] { s with jobs } ∧ Backed [] { s with jobs } ∧
        (∀ admission, answer = .ok admission →
        admission ≠ .cancelled → (jobs.create ask.key).isSome = true) := by
    intro answer jobs hop hadmission
    obtain ⟨hmid, -⟩ := orderly_admitCreate room h.orderly halive ask
    obtain ⟨hkeeps, hwork, hadmitted⟩ := admitCreate_keeps room ask.key h.orderly ask
    rw [hadmission] at hmid hkeeps hwork hadmitted
    exact ⟨hmid, backed_keepsBut h.backed (hcalm (by rw [hop]; nofun)) hkeeps
      (fun _ _ hw => hwork ▸ hw) s.control, hadmitted⟩
  cases hstep with
  | inspected => exact accounted_event h.orderly h.backed h.recalls h.apart nofun (hno nofun)
  | @cancelled said jobs control hop hcancel =>
    obtain ⟨hkeeps, hwork, hmark⟩ := cancelCreate_marks h.orderly halive hcancel
    have hbacked := backed_keepsBut h.backed (hcalm (by rw [hop]; nofun)) hkeeps hwork control
    refine accounted_event horderly hbacked hrecalls h.apart nofun ?_
    rintro key ⟨said', he', hstate⟩
    obtain ⟨-, rfl, rfl⟩ := Event.answered.inj he'
    exact hmark hstate
  | answered hop hadmission =>
    exact accounted_event horderly (hbuild hop hadmission).2.1 hrecalls h.apart nofun (hno nofun)
  | queued hop hadmission hne hkey =>
    obtain ⟨hmid, hbacked, hsome⟩ := hbuild hop hadmission
    rw [append_nil]
    exact ⟨horderly, backed_enqueue room _ hmid hbacked halive hkey (hsome _ rfl hne), hrecalls,
      h.apart⟩

/-! ## Runs -/

/-- A calm step keeps the account of what was built. -/
theorem accounted_step {a : Action} (h : Accounted [] s es) (hcalm : Calm s a)
    (hstep : Steps s a s' es') : Accounted [] s' (es ++ es') := by
  obtain ⟨horderly, hmoves⟩ := orderly_step h.orderly hstep
  cases hstep with
  | refused =>
    rw [append_nil]
    exact h
  | dispatch halive hadmits hstep =>
    exact accounted_dispatch
      ⟨orderly_serving h.orderly, h.backed, { h.recalls with }, h.apart⟩ rfl halive hcalm hstep
  | @construct settling makes _ _ hconstruct =>
    have hall := accounted_construct h settling makes
    rw [hconstruct] at hall
    exact hall
  | rest hserving hrest =>
    rw [append_nil]
    exact ⟨horderly, backed_of_quiet (horderly.quiet (hrest.serving.trans hserving)),
      recalls_moves h.recalls hmoves, h.apart⟩

theorem runs_accounted (h : Runs Calm s es) : Accounted [] s es := by
  induction h with
  | new self tokens tasks =>
    refine ⟨orderly_new self tokens tasks, backed_of_quiet nofun, ⟨nofun, ?_⟩, .nil⟩
    rintro key ⟨e, he, -⟩
    cases he
  | step _ hcalm hstep ih => exact accounted_step ih hcalm (step_cases hstep)

end System

/-- In a calm run an instance is built at most once for a key, and none after the key's CANCEL was
answered with CANCELLED. -/
theorem runs_builds_once {s : System} {es : List Event} (h : Runs Calm s es) (key : CreateKey) :
    es.count (.built key) ≤ 1 ∧
      ∀ l₁ e l₂, es = l₁ ++ e :: l₂ → e.cancels key → .built key ∉ l₂ := by
  have hapart := (System.runs_accounted h).apart
  constructor
  · by_contra hcount
    obtain ⟨l₁, l₂, l3, rfl⟩ : 
        ∃ l₁ l₂ l3, es = l₁ ++ Event.built key :: l₂ ++ .built key :: l3 := by
      obtain ⟨l₁, rest, rfl, hnot⟩ := eq_append_cons_of_mem
        (count_pos_iff.1 (by omega : 0 < es.count (.built key)))
      have hrest : 0 < rest.count (.built key) := by
        rw [count_append, count_eq_zero.2 hnot, count_cons_self] at hcount
        omega
      obtain ⟨l₂, l3, rfl, -⟩ := eq_append_cons_of_mem (count_pos_iff.1 hrest)
      exact ⟨l₁, l₂, l3, by simp⟩
    rw [pairwise_append] at hapart
    exact (hapart.2.2 (.built key) (by simp) (.built key) mem_cons_self key rfl).1 rfl
  · rintro l₁ e l₂ rfl hcancels hbuilt
    rw [pairwise_append, pairwise_cons] at hapart
    exact (hapart.2.1.1 _ hbuilt key rfl).2 hcancels

/-! ## Runs that are not calm -/

private def roomy : Room := ⟨true, true, true, true, true, true⟩

private def made : Make := ⟨.ok 5, true, true, true, .ok 3⟩

private def asks (op : Op) (id : Nat) : Action :=
  .dispatch ⟨op, 1, 7, id, if op = .build then some (.unit "echo" ⟨0, 0, []⟩) else none, 7, 9, 4⟩
    true
    roomy

private def granted : List Action := [.grant 7 0 true true true]

/-- The instance is built, debarks and is reported; then the same BUILD comes again in one frame
with a much larger number. -/
private def again : List Action :=
  granted ++ [asks .build 1, .construct false fun _ => made,
    .control [⟨⟨1, 1⟩, 7, 1, .owner 3, .debarked⟩], .completed,
    asks .build 1, asks .build 100, .construct false fun _ => made]

/-- A BUILD twice, a cancelled number beside it, its CANCEL, and a much larger number. -/
private def revived : List Action :=
  granted ++ [asks .build 1, asks .build 1, asks .cancel 2, asks .cancel 1, asks .build 100,
    .construct false fun _ => made]

private theorem again_events : (replay (.new 1 1 1) again).map Prod.snd =
    some [.built ⟨1, 7, 1⟩, .built ⟨1, 7, 1⟩, .built ⟨1, 7, 100⟩] := by
  decide +kernel

private theorem revived_events : (replay (.new 1 1 1) revived).map Prod.snd =
    some [.answered .cancel ⟨1, 7, 2⟩ cancelledSaid, .answered .cancel ⟨1, 7, 1⟩ cancelledSaid,
      .built ⟨1, 7, 1⟩, .built ⟨1, 7, 100⟩] := by
  decide +kernel

theorem runs_of_events {actions : List Action} {self tokens tasks : Nat} {es : List Event}
    (h : (replay (.new self tokens tasks) actions).map Prod.snd = some es) :
    ∃ s, Runs (fun _ _ => True) s es := by
  obtain ⟨⟨s, es'⟩, hreplay, rfl⟩ := map_eq_some_iff.1 h
  exact ⟨s, by simpa using runs_replay (.new self tokens tasks) hreplay⟩

/-- One run builds a key twice; another builds a key whose CANCEL was answered with CANCELLED. -/
theorem builds_twice :
    (∃ s es, Runs (fun _ _ => True) s es ∧ es.count (.built ⟨1, 7, 1⟩) = 2) ∧
      ∃ s es l₁ e l₂, Runs (fun _ _ => True) s es ∧ es = l₁ ++ e :: l₂ ∧
        e.cancels ⟨1, 7, 1⟩ ∧ .built ⟨1, 7, 1⟩ ∈ l₂ := by
  constructor
  · obtain ⟨s, hs⟩ := runs_of_events again_events
    exact ⟨s, _, hs, by decide⟩
  · obtain ⟨s, hs⟩ := runs_of_events revived_events
    exact ⟨s, _, [_], _, _, hs, rfl, ⟨cancelledSaid, rfl, rfl⟩, by simp⟩

/-- A calm run: one number is asked for twice before it is built and once after it, another is
cancelled before it is asked for. -/
theorem runs_builds_once_asked_again : ∃ s l₁ e l₂, Runs Calm s (l₁ ++ e :: l₂) ∧
    .built ⟨1, 7, 1⟩ ∈ l₁ ∧ e.cancels ⟨1, 7, 2⟩ ∧ l₂.length = 1 ∧
    (l₁ ++ e :: l₂).count (.built ⟨1, 7, 1⟩) ≤ 1 ∧ .built ⟨1, 7, 2⟩ ∉ l₂ := by
  have hidle : ∀ {s : System} {op : Op} {id : Nat}, s.jobs.work = [] → Calm s (asks op id) := by
    intro s op id hwork _ _ id request key r hmem
    rw [hwork] at hmem
    cases hmem
  have hknown : ∀ {s : System} {op : Op} {id : Nat} {r : CreateRecord},
      s.jobs.create ⟨1, 7, id⟩ = some r → Calm s (asks op id) :=
    fun hr _ hnone => nomatch hr.symm.trans hnone
  have hnew : Runs Calm (.new 1 1 1) [] := .new 1 1 1
  have hgrant := Runs.step (a := .grant 7 0 true true true) hnew trivial rfl
  have hbuild := Runs.step (a := asks .build 1) hgrant (hidle rfl) rfl
  have hagain := Runs.step (a := asks .build 1) hbuild (hknown rfl) rfl
  have hmade := Runs.step (a := .construct false fun _ => made) hagain trivial rfl
  have hcancel := Runs.step (a := asks .cancel 2) hmade (hidle rfl) rfl
  have hlate := Runs.step (a := asks .build 2) hcancel (hknown rfl) rfl
  have hmore := Runs.step (a := asks .build 1) hlate (hknown rfl) rfl
  have hlast := Runs.step (a := .construct false fun _ => made) hmore trivial rfl
  have honce := runs_builds_once hlast
  exact ⟨_, [_], _, _, hlast, mem_singleton_self _, ⟨cancelledSaid, rfl, rfl⟩, rfl,
    (honce ⟨1, 7, 1⟩).1, (honce ⟨1, 7, 2⟩).2 [_] _ _ rfl ⟨cancelledSaid, rfl, rfl⟩⟩

end Sqware.Assembly
