import Sqware.Assembly.Cancel

/-!
# Scopes that are retired

A scope is closed when it is retired while something of it is pending; the sweep takes its records
and its watermark once nothing is.  With nothing pending the retirement is over at once, and what
the tables hold of the scope stays.
-/

namespace Sqware.Assembly

open Jobs List Option Keyed

/-- Nothing of the scope is in the tables. -/
def Jobs.Clear (j : Jobs) (scope : Scope) : Prop :=
  (∀ r ∈ j.creates, r.scope ≠ scope) ∧ ∀ m ∈ j.watermarks, m.scope ≠ scope

/-- Something of the scope is pending, or no request of it was ever recorded. -/
def Jobs.Retirable (j : Jobs) (scope : Scope) : Prop :=
  pendingIn j.creates scope = true ∨ j.watermark scope = none

/-- The first turn of a retirement finds its scope so, and room to close it. -/
def Clears (s : System) : Action → Prop
  | .retire task released room => ∀ g, s.grants.find? (·.task = task) = some g →
      g.revoked = false → released = true →
      (s.jobs.retireCreateScope room ⟨g.entry, g.task⟩).1 ≠ .error .full ∧
        s.jobs.Retirable ⟨g.entry, g.task⟩
  | _ => True

/-- The scope was granted, and the grant is still there. -/
def System.Granted (s : System) (scope : Scope) : Prop :=
  ∃ g ∈ s.grants, g.entry = scope.entry ∧ g.task = scope.caller ∧ g.delivered = true

namespace Jobs

variable {j j' j'' : Jobs} {scope : Scope} {room : Room} {dead : Scope → Prop}

theorem Sound.clear_iff (h : Sound dead j) : j.Clear scope ↔ j.watermark scope = none := by
  refine ⟨fun hc => get_eq_none_iff.2 hc.2,
    fun hnone => ⟨fun r hr hs => ?_, get_eq_none_iff.1 hnone⟩⟩
  obtain ⟨m, hm, -⟩ := h.marks r.key r (get_of_mem h.keys hr)
  have hscope : r.key.scope = scope := hs
  rw [hscope, hnone] at hm
  cases hm

/-- The scope is closed, or has been swept, or was never asked for anything. -/
def Closing (j : Jobs) (scope : Scope) : Prop := scope ∈ j.closed ∨ j.watermark scope = none

theorem Closing.retirable (hswept : j.Swept) (h : j.Closing scope) : j.Retirable scope :=
  h.imp_left (hswept scope)

/-- With nothing pending the retirement is over; with something pending the scope is closed. -/
theorem Retirable.over {answer : Except Fail Unit} (h : j.Retirable scope) (hswept : j.Swept)
    (hretire : j.retireCreateScope room scope = (answer, j')) :
    (answer = .ok () → j.watermark scope = none) ∧ (answer ≠ .error .full → j'.Closing scope) := by
  obtain ⟨answer, closed, heq, hok, hanswer, -, -⟩ := retire_eq hswept room scope
  cases hretire.symm.trans heq
  have hnone : answer = .ok () → j.watermark scope = none :=
    fun ha => h.resolve_left (by simp [hok.1 ha])
  refine ⟨hnone, fun hroom => ?_⟩
  rcases hanswer with ha | ha | ⟨-, hc⟩
  · exact .inr (hnone ha)
  · exact absurd ha hroom
  · exact .inl hc

/-- The scope does not get its first watermark, and is closed until it has none. -/
structure NoMark (scope : Scope) (j j' : Jobs) : Prop where
  mark : j.watermark scope = none → j'.watermark scope = none
  closed : scope ∈ j.closed → j'.Closing scope

theorem NoMark.closing (h : NoMark scope j j') (hc : j.Closing scope) : j'.Closing scope :=
  hc.elim h.closed fun hm => .inr (h.mark hm)

/-- A write that leaves both alone comes first. -/
theorem NoMark.after (h : NoMark scope j' j'') (hm : j'.watermarks = j.watermarks)
    (hc : j'.closed = j.closed) : NoMark scope j j'' := by
  refine ⟨fun hnone => h.mark ?_, fun hclosed => h.closed (hc ▸ hclosed)⟩
  rwa [watermark, hm]

theorem NoMark.of_eq (hm : j'.watermarks = j.watermarks) (hc : j'.closed = j.closed) :
    NoMark scope j j' :=
  NoMark.after ⟨id, .inl⟩ hm hc

theorem NoMark.trans (h : NoMark scope j j') (h' : NoMark scope j' j'') : NoMark scope j j'' :=
  ⟨fun hm => h'.mark (h.mark hm), fun hc => h'.closing (h.closed hc)⟩

variable (j : Jobs)

theorem sweep_noMark : NoMark scope j j.sweepClosedCreateScopes := by
  refine ⟨fun h => by rw [sweep_watermark, h, ite_self], fun h => ?_⟩
  cases hp : pendingIn j.creates scope with
  | true =>
    left
    rw [sweep_closed]
    exact mem_filter.2 ⟨h, hp⟩
  | false =>
    right
    rw [sweep_watermark]
    exact if_neg (by simp [stays, h, hp])

theorem consume_noMark (id : JobId) (outcome : Outcome) (create : Option CreateKey) :
    NoMark scope j (j.consumeConstruct id outcome create).2 := by
  unfold consumeConstruct
  dsimp only
  split
  · next outcome' j' htake =>
    obtain ⟨l1, l2, -, rfl⟩ := take_cut htake
    refine NoMark.trans ?_ (sweep_noMark _)
    cases outcome' <;> cases create <;> exact .of_eq rfl rfl
  · exact .of_eq rfl rfl

theorem settle_noMark (settling : Bool) : NoMark scope j (j.settle settling) := by
  have heach : ∀ (taken : List (JobId × Request)) (j : Jobs),
      NoMark scope j (j.settleEach taken) := by
    intro taken
    induction taken with
    | nil => exact fun _ => .of_eq rfl rfl
    | cons one taken ih => exact fun j => (consume_noMark j _ _ _).trans (ih _)
  unfold settle
  split
  · exact (heach _ _).after rfl rfl
  · exact .of_eq rfl rfl

theorem enqueue_noMark (room : Room) (request : Request) :
    NoMark scope j (j.enqueue room request).2 := by
  have hrefuse : NoMark scope j (j.refuse request.create .full) := by
    unfold refuse
    split <;> exact .of_eq rfl rfl
  unfold enqueue
  split
  · exact hrefuse
  split
  · exact hrefuse
  next id j1 hreserve =>
  obtain ⟨rfl, rfl⟩ := reserveJob_eq hreserve
  dsimp only
  split <;> exact .of_eq rfl rfl

end Jobs

namespace System

variable {s s' : System} {es : List Event} {scope : Scope}

theorem constructRequest_noMark (s : System) (make : Make) (id : JobId) (request : Request) :
    NoMark scope s.jobs (s.constructRequest make id request).1.jobs ∧
      (s.constructRequest make id request).1.grants = s.grants := by
  have hfirst : ∀ {jobs}, jobs = s.jobs ∨ First s.jobs request.create jobs →
      NoMark scope s.jobs jobs := by
    rintro jobs (rfl | hfirst)
    · exact .of_eq rfl rfl
    · cases hfirst <;> exact .of_eq rfl rfl
  have hone := constructRequest_cases s make id request
  generalize s.constructRequest make id request = r at hone
  cases hone with
  | finished jobs control outcome h =>
    exact ⟨(hfirst h).trans (consume_noMark jobs id outcome _), rfl⟩
  | built jobs launch control h htask =>
    refine ⟨(hfirst (.inr h)).trans ?_, rfl⟩
    have := @consume_noMark scope jobs id (.construct launch.reference) request.create
    unfold launched
    dsimp only
    split
    · exact this.trans (.of_eq rfl rfl)
    · exact this

theorem constructEach_noMark (makes : JobId → Make) (taken : List (JobId × Request)) (s : System) :
    NoMark scope s.jobs (constructEach makes s taken).1.jobs ∧
      (constructEach makes s taken).1.grants = s.grants := by
  induction taken generalizing s with
  | nil => exact ⟨.of_eq rfl rfl, rfl⟩
  | cons one taken ih =>
    obtain ⟨hmark, hgrants⟩ := s.constructRequest_noMark (makes one.1) one.1 one.2
    obtain ⟨hmark', hgrants'⟩ := ih (s.constructRequest (makes one.1) one.1 one.2).1
    exact ⟨hmark.trans hmark', hgrants'.trans hgrants⟩

theorem construct_noMark {settling : Bool} {makes : JobId → Make}
    (h : { s with jobs := s.jobs.settle settling, serving := false }.construct makes = (s', es)) :
    s'.grants = s.grants ∧ ∀ {scope}, NoMark scope s.jobs s'.jobs := by
  have hall := fun scope => @constructEach_noMark scope makes
    (s.jobs.settle settling).takeConstructBatch.1
    { s with jobs := (s.jobs.settle settling).takeConstructBatch.2, serving := false }
  obtain rfl := congrArg Prod.fst h
  exact ⟨(hall ⟨0, 0⟩).2, fun {scope} => (settle_noMark s.jobs settling).trans
    ((hall scope).1.after rfl rfl)⟩

theorem dispatch_noMark {ask : Ask} {room : Room} (hstep : Dispatching s ask room s' es) :
    s'.grants = s.grants ∧ ∀ {scope}, scope ≠ ask.key.scope → NoMark scope s.jobs s'.jobs := by
  have henter : ∀ (r : CreateRecord) {scope : Scope}, r.key = ask.key → scope ≠ ask.key.scope →
      NoMark scope s.jobs ((s.jobs.pruneCreates ask.key).enter r) := by
    refine fun r scope hkey hne => ⟨fun h => ?_, .inl⟩
    rw [enter_watermark, if_neg fun he => hne (he.trans (congrArg CreateKey.scope hkey))]
    exact h
  have hadmitted : ∀ {answer jobs}, s.jobs.admitCreate room ask.key ask = (answer, jobs) →
      ∀ {scope}, scope ≠ ask.key.scope → NoMark scope s.jobs jobs := by
    intro answer jobs hadmission scope hne
    have hcases := admitCreate_cases s.jobs room ask.key ask
    rw [hadmission] at hcases
    cases hcases with
    | new hnone hkey => exact henter _ hkey hne
    | _ => exact .of_eq rfl rfl
  cases hstep with
  | inspected => exact ⟨rfl, fun _ => .of_eq rfl rfl⟩
  | @cancelled said jobs control hop hcancel =>
    refine ⟨rfl, fun {scope} hne => ?_⟩
    have hcases := cancelCreate_cases s.jobs room s.control ask.key
    rw [hcancel] at hcases
    generalize hres : some (said, jobs, control) = res at hcases
    cases hcases with
    | unseen hnone hfree =>
      cases hres
      exact henter _ rfl hne
    | queued hr hlaunch hwork hid hcreate hspot =>
      obtain ⟨r', hr', he⟩ := map_eq_some_iff.1 hres.symm
      cases he
      exact (consume_noMark _ _ _ _).after rfl rfl
    | _ =>
      cases hres
      exact .of_eq rfl rfl
  | answered hop hadmission => exact ⟨rfl, hadmitted hadmission⟩
  | queued hop hadmission hne hkey =>
    exact ⟨rfl, fun hne => (hadmitted hadmission hne).trans (enqueue_noMark _ room _)⟩

theorem rest_noMark {a : Action} (ho : Orderly [] s) (hrest : Rest s a s') :
    NoMark scope s.jobs s'.jobs := by
  cases hrest with
  | submits hj => exact .of_eq (hj s.Dead).2 (hj s.Dead).1.closed
  | completed hj =>
    obtain ⟨done, -, rfl⟩ := map_eq_some_iff.1 hj
    exact (sweep_noMark _).after rfl rfl
  | retired _ _ _ hretire =>
    obtain ⟨answer, closed, heq, -, -, hold, -⟩ := retire_eq ho.swept _ _
    cases hretire.symm.trans heq
    exact ⟨fun hm => hm, fun hc => .inl (hold scope hc)⟩
  | _ => exact .of_eq rfl rfl

/-- A dead scope is closed until it is swept, and nothing comes after. -/
theorem step_noMark {a : Action} (ho : Orderly [] s) (hdead : s.Dead scope)
    (hstep : Steps s a s' es) : NoMark scope s.jobs s'.jobs := by
  cases hstep with
  | refused => exact .of_eq rfl rfl
  | dispatch halive _ hstep => exact (dispatch_noMark hstep).2 fun he => halive (he ▸ hdead)
  | construct hconstruct => exact (construct_noMark hconstruct).2
  | rest _ hrest => exact rest_noMark ho hrest

/-! ## Every watermark belongs to a grant -/

/-- What has a watermark is granted, and what is being retired is closed until it has none. -/
structure Kept (s : System) : Prop where
  granted : ∀ scope, s.jobs.watermark scope ≠ none → s.Granted scope
  closing : ∀ g ∈ s.grants, g.revoked = true → s.jobs.Closing ⟨g.entry, g.task⟩

theorem dead_of_revoked (ho : Orderly [] s) {g : Grant} (hg : g ∈ s.grants)
    (hr : g.revoked = true) : s.Dead ⟨g.entry, g.task⟩ := by
  refine ⟨ho.tokens g hg, fun x hx he _ => ?_⟩
  rw [inj_on_of_nodup_map ho.entries hx hg he, hr]

/-- The grants stay. -/
theorem Kept.of_grants_eq {a : Action} (h : Kept s) (ho : Orderly [] s) (hstep : Steps s a s' es)
    (hgrants : s'.grants = s.grants)
    (hmark : ∀ scope, s.jobs.watermark scope = none → ¬ s.Granted scope →
      s'.jobs.watermark scope = none) : Kept s' := by
  constructor
  · intro scope hs
    by_contra hnot
    have hnot : ¬ s.Granted scope := fun ⟨g, hg, hscope⟩ => hnot ⟨g, hgrants ▸ hg, hscope⟩
    exact hs (hmark scope (not_not.1 fun hm => hnot (h.granted scope hm)) hnot)
  · intro g hg hr
    rw [hgrants] at hg
    exact (step_noMark ho (dead_of_revoked ho hg hr) hstep).closing (h.closing g hg hr)

/-- One grant goes, or changes in place. -/
theorem Kept.of_grants {a : Action} {l1 l2 here : List Grant} {g : Grant} {jobs : Jobs} (h : Kept s)
    (ho : Orderly [] s) (hrest : Rest s a { s with jobs, grants := l1 ++ here ++ l2 })
    (hgrants : s.grants = l1 ++ g :: l2)
    (hone : (here = [] ∧ (g.delivered = true → jobs.watermark ⟨g.entry, g.task⟩ = none)) ∨
      ∃ g', here = [g'] ∧ g'.entry = g.entry ∧ g'.task = g.task ∧
        (g.delivered = true → g'.delivered = true) ∧
        (g'.revoked = true → g.revoked = true ∨ jobs.Closing ⟨g.entry, g.task⟩)) :
    Kept { s with jobs, grants := l1 ++ here ++ l2 } := by
  have hold : ∀ x, x ∈ l1 ∨ x ∈ l2 → x ∈ s.grants := by
    intro x hx
    rw [hgrants]
    rcases hx with hx | hx <;> simp [hx]
  have hg : g ∈ s.grants := by simp [hgrants]
  have hclosing : ∀ x ∈ s.grants, x.revoked = true → jobs.Closing ⟨x.entry, x.task⟩ :=
    fun x hx hr => (rest_noMark ho hrest).closing (h.closing x hx hr)
  constructor
  · intro scope hs
    obtain ⟨x, hx, he, ht, hd⟩ := h.granted scope (mt (rest_noMark ho hrest).mark hs)
    have hrest : x ∈ l1 ∨ x ∈ l2 → Granted { s with jobs, grants := l1 ++ here ++ l2 } scope := by
      refine fun hx => ⟨x, ?_, he, ht, hd⟩
      rcases hx with hx | hx <;> simp [hx]
    rw [hgrants] at hx
    rcases mem_append.1 hx with hx | hx
    · exact hrest (.inl hx)
    rcases mem_cons.1 hx with rfl | hx
    · rcases hone with ⟨-, hnone⟩ | ⟨g', rfl, he', ht', hd', -⟩
      · have := hnone hd
        rw [he, ht] at this
        exact absurd this hs
      · exact ⟨g', by simp, he'.trans he, ht'.trans ht, hd' hd⟩
    · exact hrest (.inr hx)
  · intro x hx hr
    rcases mem_append.1 hx with hx | hx
    · rcases mem_append.1 hx with hx | hx
      · exact hclosing x (hold x (.inl hx)) hr
      · rcases hone with ⟨rfl, -⟩ | ⟨g', rfl, he', ht', -, hr'⟩
        · cases hx
        · obtain rfl := mem_singleton.1 hx
          rw [he', ht']
          exact (hr' hr).elim (hclosing g hg) id
    · exact hclosing x (hold x (.inr hx)) hr

/-- The turn of a retirement: at its end nothing of the scope is left. -/
theorem kept_retired {l1 l2 here : List Grant} {g : Grant} {task : TaskId} {released : Bool}
    {room : Room} {answer : Except Fail Unit} {jobs : Jobs} (h : Kept s) (ho : Orderly [] s)
    (hclears : Clears s (.retire task released room)) (hgrants : s.grants = l1 ++ g :: l2)
    (hfind : s.grants.find? (·.task = task) = some g) (hlet : g.revoked = true ∨ released = true)
    (hretire : s.jobs.retireCreateScope room ⟨g.entry, g.task⟩ = (answer, jobs))
    (hone : here = [] ∧ answer = .ok () ∨ here = [{ g with revoked := true }]) :
    Kept { s with jobs, grants := l1 ++ here ++ l2 } := by
  have hrest := Rest.retired hgrants hfind hlet hretire hone
  -- the first turn finds the scope retirable, the later ones find it closed or swept
  have hscope : s.jobs.Retirable ⟨g.entry, g.task⟩ ∧
      (g.revoked = false → answer ≠ .error .full) := by
    cases hr : g.revoked with
    | true => exact ⟨(h.closing g (by simp [hgrants]) hr).retirable ho.swept, nofun⟩
    | false =>
      obtain ⟨hroom, hretirable⟩ := hclears g hfind hr (hlet.resolve_left (by simp [hr]))
      rw [hretire] at hroom
      exact ⟨hretirable, fun _ => hroom⟩
  obtain ⟨hnone, hclosing⟩ := hscope.1.over ho.swept hretire
  obtain ⟨_, closed, heq, -⟩ := retire_eq ho.swept room ⟨g.entry, g.task⟩
  cases hretire.symm.trans heq
  refine h.of_grants ho hrest hgrants ?_
  rcases hone with ⟨rfl, rfl⟩ | rfl
  · exact .inl ⟨rfl, fun _ => hnone rfl⟩
  · refine .inr ⟨_, rfl, rfl, rfl, fun hd => hd, fun _ => ?_⟩
    cases hr : g.revoked with
    | true => exact .inl rfl
    | false => exact .inr (hclosing (hscope.2 hr))

theorem kept_rest {a : Action} (h : Kept s) (ho : Orderly [] s) (hclears : Clears s a)
    (hserving : s.serving = false) (hrest : Rest s a s') : Kept s' := by
  have hsame : s'.grants = s.grants → Kept s' := fun hgrants =>
    h.of_grants_eq ho (.rest hserving hrest) hgrants fun _ hm _ => (rest_noMark ho hrest).mark hm
  cases hrest with
  | grant_at hgrants hone =>
    refine h.of_grants ho (.grant_at (a := a) hgrants hone) hgrants ?_
    rcases hone with ⟨rfl, hd⟩ | rfl
    · exact .inl ⟨rfl, fun hd' => by simp [hd] at hd'⟩
    · exact .inr ⟨_, rfl, rfl, rfl, fun _ => rfl, .inl⟩
  | granted hentry hnew =>
    constructor
    · intro scope hs
      obtain ⟨g, hg, hscope⟩ := h.granted scope hs
      exact ⟨g, mem_append_left _ hg, hscope⟩
    · intro g hg hr
      rcases mem_append.1 hg with hg | hg
      · exact h.closing g hg hr
      · rw [mem_singleton.1 hg, hnew] at hr
        cases hr
  | retired hgrants hfind hlet hretire hone =>
    exact kept_retired h ho hclears hgrants hfind hlet hretire hone
  | _ => exact hsame rfl

theorem kept_step {a : Action} (h : Kept s) (ho : Orderly [] s) (hclears : Clears s a)
    (hstep : Steps s a s' es) : Kept s' := by
  have hsame := h.of_grants_eq ho hstep
  cases hstep with
  | refused => exact h
  | @dispatch ask _ _ _ _ halive hadmits hdispatch =>
    obtain ⟨hgrants, hmark⟩ := dispatch_noMark hdispatch
    refine hsame hgrants fun scope hm hnot => ?_
    refine (hmark fun hscope => hnot ?_).mark hm
    simp only [usable, List.any_eq_true, Bool.and_eq_true, decide_eq_true_eq] at hadmits
    obtain ⟨g, hg, ⟨⟨he, ht⟩, hd⟩, -⟩ := hadmits
    exact ⟨g, hg, by rw [hscope, he]; rfl, by rw [hscope, ht]; rfl, hd⟩
  | construct hconstruct =>
    obtain ⟨hgrants, hmark⟩ := construct_noMark hconstruct
    exact hsame hgrants fun _ hm _ => hmark.mark hm
  | rest hserving hrest => exact kept_rest h ho hclears hserving hrest

theorem runs_kept (h : Runs Clears s es) : Kept s := by
  induction h with
  | new self tokens tasks => exact ⟨fun scope hs => absurd rfl hs, nofun⟩
  | step hruns hclears hstep ih =>
    exact kept_step ih (runs_orderly hruns) hclears (step_cases hstep)

/-! ## What a retirement leaves -/

/-- No record is made for a dead scope, and it is closed until it is swept. -/
theorem replay_dead {actions : List Action} (h : Orderly [] s) (hdead : s.Dead scope)
    (hreplay : replay s actions = some (s', es)) :
    Orderly [] s' ∧ NoMark scope s.jobs s'.jobs ∧
      ∀ key r, key.scope = scope → s'.jobs.create key = some r → s.jobs.create key ≠ none := by
  induction actions generalizing s es with
  | nil =>
    cases hreplay
    refine ⟨h, .of_eq rfl rfl, fun key r _ hr hnone => ?_⟩
    cases hnone.symm.trans hr
  | cons a rest ih =>
    unfold replay at hreplay
    split at hreplay
    · cases hreplay
    next s1 es1 hstep =>
    obtain ⟨⟨s2, es2⟩, hrest, he⟩ := map_eq_some_iff.1 hreplay
    cases he
    obtain ⟨horderly, hmoves⟩ := orderly_step h (step_cases hstep)
    have hdead1 := hmoves.dead scope hdead
    obtain ⟨hend, hmark, hrecords⟩ := ih horderly hdead1 hrest
    refine ⟨hend, (step_noMark h hdead (step_cases hstep)).trans hmark, fun key r hscope hr => ?_⟩
    obtain ⟨r1, hr1⟩ := ne_none_iff_exists'.1 (hrecords key r hscope hr)
    rcases hmoves.grows.records key r1 hr1 with ⟨r0, hr0, -⟩ | hnew
    · exact ne_none_iff_exists'.2 ⟨r0, hr0⟩
    · exact absurd (.inr (hscope ▸ hdead1)) hnew

/-- A scope that is dead and closed, or swept, is empty when a retirement of it is over. -/
theorem clear_of_closing {room : Room} {j : Jobs} (ho : Orderly [] s) (h : s.jobs.Closing scope)
    (hretire : s.jobs.retireCreateScope room scope = (.ok (), j)) : j.Clear scope := by
  have hnone := ((h.retirable ho.swept).over ho.swept hretire).1 rfl
  obtain ⟨_, closed, heq, -⟩ := retire_eq ho.swept room scope
  cases hretire.symm.trans heq
  exact ho.sound.clear_iff.2 hnone

/-- A retirement that begins with something pending leaves nothing. -/
theorem retire_over {actions : List Action} {task : TaskId} {room room' : Room}
    {g : Grant} {j : Jobs}
    (ho : Orderly [] s) (hfind : s.grants.find? (·.task = task) = some g)
    (hroom : (s.jobs.retireCreateScope room ⟨g.entry, g.task⟩).1 ≠ .error .full)
    (hscope : s.jobs.Retirable ⟨g.entry, g.task⟩)
    (hreplay : replay s (.retire task true room :: actions) = some (s', es))
    (hretire : s'.jobs.retireCreateScope room' ⟨g.entry, g.task⟩ = (.ok (), j)) :
    j.Clear ⟨g.entry, g.task⟩ := by
  unfold replay at hreplay
  split at hreplay
  · cases hreplay
  next s1 es1 hstep =>
  obtain ⟨⟨s2, es2⟩, hrest, he⟩ := map_eq_some_iff.1 hreplay
  cases he
  have horderly := (orderly_step ho (step_cases hstep)).1
  change (if s.serving then none else some (s.retire task true room, [])) = _ at hstep
  split at hstep
  · cases hstep
  cases hstep
  rcases retire_cases (s := s) task true room with ⟨-, hnot⟩ |
    ⟨l1, g', l2, here, answer, jobs, hgrants, hfind', -, hfirst, hone, heq⟩
  · cases hnot g hfind
  cases hfind.symm.trans hfind'
  rw [hfirst] at hroom
  rw [heq] at hrest horderly
  have hdead := dead_retired ho hgrants (hone.imp_left And.left) jobs
  obtain ⟨hend, hmark, -⟩ := replay_dead horderly hdead hrest
  exact clear_of_closing hend (hmark.closing ((hscope.over ho.swept hfirst).2 hroom)) hretire

/-- A retirement touches no other scope and closes its own while something is pending; a closed
scope gets no new record.  When the first turn of a retirement has room, what a later turn that is
over leaves is nothing just when something was pending at the first, or nothing was there; and in a
run all of whose retirements begin so, what the tables hold belongs to scopes whose grants are still
there. -/
theorem scopes_retire (h : Reached s) {room : Room} {scope : Scope} {answer : Except Fail Unit}
    {j : Jobs} (hretire : s.jobs.retireCreateScope room scope = (answer, j)) :
    (∀ r, r.scope ≠ scope → (r ∈ j.creates ↔ r ∈ s.jobs.creates)) ∧
      (∀ m, m.scope ≠ scope → (m ∈ j.watermarks ↔ m ∈ s.jobs.watermarks)) ∧
      (answer = .error .notReady → scope ∈ j.closed) ∧
      (scope ∈ s.jobs.closed → ∀ key, key.scope = scope →
        (∀ room ask, s.jobs.admitCreate room key ask = (.error .conflict, s.jobs)) ∧
        ∀ actions s' es, replay s actions = some (s', es) → ∀ r, s'.jobs.create key = some r →
          s.jobs.create key ≠ none) ∧
      (∀ g, s.grants.find? (·.task = scope.caller) = some g → g.entry = scope.entry →
        answer ≠ .error .full →
        (((answer = .ok () → j.Clear scope) ∧ ∀ actions s' es room' j',
            replay s (.retire scope.caller true room :: actions) = some (s', es) →
            s'.jobs.retireCreateScope room' scope = (.ok (), j') → j'.Clear scope) ↔
          s.jobs.Retirable scope)) ∧
      ∀ es, Runs Clears s es → (∀ r ∈ s.jobs.creates, s.Granted r.scope) ∧
        (∀ m ∈ s.jobs.watermarks, s.Granted m.scope) ∧
          ∀ scope ∈ s.jobs.closed, s.Granted scope := by
  obtain ⟨_, hruns⟩ := h
  have ho := runs_orderly hruns
  obtain ⟨answer', closed, heq, hok, hanswer, -⟩ := retire_eq ho.swept room scope
  cases hretire.symm.trans heq
  refine ⟨fun _ _ => .rfl, fun _ _ => .rfl, ?_, ?_, ?_, ?_⟩
  · rintro rfl
    rcases hanswer with ha | ha | ⟨-, hc⟩
    · cases ha
    · cases ha
    · exact hc
  · rintro hclosed key rfl
    refine ⟨fun room ask => if_pos hclosed, fun actions s' es hreplay r hr => ?_⟩
    exact (replay_dead ho (ho.sound.closed _ hclosed) hreplay).2.2 key r rfl hr
  · intro g hfind hentry hroom
    have htask : g.task = scope.caller := by simpa using find?_some hfind
    have hscope : (⟨g.entry, g.task⟩ : Scope) = scope := by rw [hentry, htask]
    constructor
    · rintro ⟨hclear, -⟩
      cases hp : pendingIn s.jobs.creates scope with
      | true => exact .inl hp
      | false => exact .inr (ho.sound.clear_iff.1 (hclear (hok.2 hp)))
    · intro hretirable
      refine ⟨fun ha => ho.sound.clear_iff.2 ((hretirable.over ho.swept hretire).1 ha), ?_⟩
      intro actions s' es room' j' hreplay hlater
      rw [← hscope] at hretirable hlater hretire ⊢
      exact retire_over ho hfind (by rw [hretire]; exact hroom) hretirable hreplay hlater
  · intro es hclears
    have hkept := (runs_kept hclears).granted
    have hrecord : ∀ r ∈ s.jobs.creates, s.Granted r.scope := by
      intro r hr
      obtain ⟨m, hm, -⟩ := ho.sound.marks r.key r (get_of_mem ho.sound.keys hr)
      exact hkept r.scope (ne_none_iff_exists'.2 ⟨m, hm⟩)
    refine ⟨hrecord, fun m hm => hkept _ fun hnone => get_eq_none_iff.1 hnone m hm rfl, ?_⟩
    intro sc hsc
    obtain ⟨r, hr, hscope⟩ := List.any_eq_true.1 (ho.swept sc hsc)
    obtain ⟨hs, -⟩ := Bool.and_eq_true_iff.1 hscope
    exact of_decide_eq_true hs ▸ hrecord r hr

end System

/-! ## A construction that was reported, and one that failed -/

private def spacious : Room := ⟨true, true, true, true, true, true⟩

private def asking : List Action := [.grant 7 0 true true true,
  .dispatch ⟨.build, 1, 7, 1, some (.unit "echo" ⟨0, 0, []⟩), 7, 9, 4⟩ true spacious]

private def started : List Action :=
  asking ++ [.construct false fun _ => ⟨.ok 5, true, true, true, .ok 3⟩]

private def failed : List Action :=
  asking ++ [.construct false fun _ => ⟨.error .badImage, true, true, true, .ok 3⟩]

private def reported : List Action :=
  [.control [⟨⟨1, 1⟩, 7, 1, .owner 3, .debarked⟩], .completed]

/-- The retirement begins while the instance starts, which closes the scope; once the instance is
reported the next turn is over and leaves nothing. -/
theorem scopes_retire_reported : ∃ s s' es j', Reached s ∧
    (s.jobs.retireCreateScope spacious ⟨1, 7⟩).1 = .error .notReady ∧
    replay s (.retire 7 true spacious :: reported) = some (s', es) ∧
    s'.jobs.retireCreateScope spacious ⟨1, 7⟩ = (.ok (), j') ∧ j'.Clear ⟨1, 7⟩ := by
  obtain ⟨s, hs, he⟩ := reached_replay started 1 1 1
    (f := fun s => (s.grants.find? (·.task = 7), (s.jobs.retireCreateScope spacious ⟨1, 7⟩).1,
      pendingIn s.jobs.creates ⟨1, 7⟩, (replay s (.retire 7 true spacious :: reported)).map
        fun done => (done.1.jobs.retireCreateScope spacious ⟨1, 7⟩).1))
    (x := (some ⟨1, 7, 0, true, false⟩, .error .notReady, true, some (.ok ()))) (by decide +kernel)
  simp only [Prod.mk.injEq] at he
  obtain ⟨hfind, hfirst, hpending, hlater⟩ := he
  obtain ⟨⟨s', es⟩, hreplay, hok⟩ := map_eq_some_iff.1 hlater
  have hretire : s'.jobs.retireCreateScope spacious ⟨1, 7⟩ = (.ok (), _) := Prod.ext hok rfl
  have hbegin : s.jobs.retireCreateScope spacious ⟨1, 7⟩ = (.error .notReady, _) :=
    Prod.ext hfirst rfl
  have hclear := (System.scopes_retire hs hbegin).2.2.2.2.1 _ hfind rfl nofun
  exact ⟨s, s', es, _, hs, hfirst, hreplay, hretire,
    (hclear.2 (.inl hpending)).2 reported s' es spacious _ hreplay hretire⟩

/-- Once it failed the retirement answers Ok and the grant goes, but the record and the watermark of
the scope do not. -/
theorem scope_remains :
    (∃ s, Reached s ∧ (s.jobs.retireCreateScope spacious ⟨1, 7⟩).1 = .ok () ∧
      ¬ (s.jobs.retireCreateScope spacious ⟨1, 7⟩).2.Clear ⟨1, 7⟩) ∧
    ∃ s, Reached s ∧ (s.grants, s.jobs.creates.map (·.scope), s.jobs.watermarks.map (·.scope)) =
      ([], [⟨1, 7⟩], [⟨1, 7⟩]) := by
  constructor
  · obtain ⟨s, hs, he⟩ := reached_replay failed 1 1 1
      (f := fun s => (s.jobs.retireCreateScope spacious ⟨1, 7⟩).map id fun j => j.watermark ⟨1, 7⟩)
      (x := (.ok (), some ⟨⟨1, 7⟩, 1⟩)) (by decide +kernel)
    obtain ⟨hok, hmark⟩ := Prod.mk.inj he
    refine ⟨s, hs, hok, fun hclear => ?_⟩
    cases hmark.symm.trans (get_eq_none_iff.2 hclear.2)
  · exact reached_replay (failed ++ [.retire 7 true spacious]) 1 1 1
      (f := fun s => (s.grants, s.jobs.creates.map (·.scope), s.jobs.watermarks.map (·.scope)))
      (x := ([], [⟨1, 7⟩], [⟨1, 7⟩])) (by decide +kernel)

end Sqware.Assembly
