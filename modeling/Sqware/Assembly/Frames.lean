import Sqware.Assembly.Jobs

/-!
# The frames of the assembly

A frame receives requests through the entries that were granted, dispatches each of them, and then
settles and constructs what is queued.  Between the first request of a frame and its constructions
nothing else runs; lifecycles, commands, phases, grants, retirements and the end of instances come
in the rest of the frame.
-/

namespace Sqware.Assembly

/-- The right to construct, as a grant of an entry to a task. -/
structure Grant where
  entry : PieToken
  task : TaskId
  policy : Nat
  delivered : Bool
  revoked : Bool
  deriving DecidableEq, Repr

/-- The program with the kernel's next token and next task.  `flight` holds the lifecycles and
commands that were taken from the queue and are being carried out. -/
structure System where
  jobs : Jobs
  control : Control
  grants : List Grant
  flight : List Work
  tokens : PieToken
  tasks : TaskId
  serving : Bool
  deriving DecidableEq, Repr

/-- What a run has shown: an answer, or a construction that began. -/
inductive Event
  | answered (op : Op) (key : CreateKey) (said : Said)
  | built (key : CreateKey)
  deriving DecidableEq, Repr

namespace Jobs

/-- What the record says about bytes with this fingerprint; a first sight is recorded. -/
def recognise (j : Jobs) (create : Option CreateKey) (fingerprint : Fingerprint) :
    Option Outcome × Jobs :=
  match create with
  | none => (none, j)
  | some key =>
    match j.create key with
    | none => (none, j)
    | some r =>
      match r.fingerprint with
      | some previous =>
        (some (if r.cancelled then .cancelled
          else if previous ≠ fingerprint then .failed .conflict
          else .createReplay r.said), j)
      | none =>
        if r.cancelled then (some .cancelled, j)
        else (none, j.setCreate key fun r => { r with fingerprint := some fingerprint })

end Jobs

namespace System

def new (self : TaskId) (tokens : PieToken) (tasks : TaskId) : System :=
  ⟨.new, ⟨self, []⟩, [], [], tokens, tasks, false⟩

/-! ## Requests -/

/-- A grant that was delivered and not revoked. -/
def usable (s : System) (entry : PieToken) (task : TaskId) : Bool :=
  s.grants.any fun g => g.entry = entry && g.task = task && g.delivered && !g.revoked

/-- `approved` stands for the policy of the grant and for the caller being alive. -/
def admits (s : System) (ask : Ask) (approved : Bool) : Bool :=
  s.usable ask.entry ask.caller && approved && ask.id ≠ 0 &&
    (ask.op = .build || ask.input.isNone)

/-- A BUILD that was admitted is queued, also when it repeats an earlier one. -/
def dispatchBuild (s : System) (ask : Ask) (room : Room) : System × List Event :=
  match s.jobs.admitCreate room ask.key ask with
  | (.error fail, jobs) =>
    ({ s with jobs }, [.answered .build ask.key (.fromResult (.error fail))])
  | (.ok .cancelled, jobs) =>
      ({ s with jobs }, [.answered .build ask.key (jobs.createReply ask.key)])
  | (.ok _, jobs) =>
    match ask.input with
    | none => ({ s with jobs }, [.answered .build ask.key (.fromResult (.error .bad))])
    | some input =>
      let request : Request :=
        ⟨input, ask.caller, ask.owner, ask.subject, some ask.back, some ask.key⟩
      ({ s with jobs := (jobs.enqueue room request).2 }, [])

/-- One admitted request. -/
def dispatch (s : System) (ask : Ask) (room : Room) : Option (System × List Event) :=
  match ask.op with
  | .inspect => some (s, [.answered .inspect ask.key (s.jobs.createReply ask.key)])
  | .cancel =>
    (s.jobs.cancelCreate room s.control ask.key).map fun (said, jobs, control) =>
      ({ s with jobs, control }, [.answered .cancel ask.key said])
  | .build => some (s.dispatchBuild ask room)

/-! ## Constructions -/

def consume (s : System) (id : JobId) (outcome : Outcome) (create : Option CreateKey) : System :=
  { s with jobs := (s.jobs.consumeConstruct id outcome create).2 }

/-- An instance was built: its launch is kept when the completion is the job's own. -/
def launched (s : System) (id : JobId) (create : Option CreateKey) (launch : Launch)
    (control : Control) : System :=
  let done := s.jobs.consumeConstruct id (.construct launch.reference) create
  let jobs := if done.1 = some launch.reference
    then { done.2 with launches := done.2.launches ++ [launch] } else done.2
  { s with jobs, control, tasks := s.tasks + 1 }

def constructRequest (s : System) (make : Make) (id : JobId) (request : Request) :
    System × List Event :=
  match make.snapshot with
  | .error fail => (s.consume id (.failed fail) request.create, [])
  | .ok fingerprint =>
    match s.jobs.recognise request.create fingerprint with
    | (some outcome, _) => (s.consume id outcome request.create, [])
    | (none, jobs) =>
      let s := { s with jobs }
      if !make.launches then (s.consume id (.failed .full) request.create, [])
      else match constructOne s.control s.tasks make id request with
        | (.ok launch, control) =>
          (s.launched id request.create launch control, (request.create.map Event.built).toList)
        | (.error fail, control) =>
          ({ s with control }.consume id (.failed fail) request.create, [])

def constructEach (makes : JobId → Make) : System → List (JobId × Request) → System × List Event
  | s, [] => (s, [])
  | s, (id, request) :: rest =>
    let one := s.constructRequest (makes id) id request
    let more := constructEach makes one.1 rest
    (more.1, one.2 ++ more.2)

/-- The queued constructions. -/
def construct (s : System) (makes : JobId → Make) : System × List Event :=
  constructEach makes { s with jobs := s.jobs.takeConstructBatch.2 } s.jobs.takeConstructBatch.1

/-! ## Grants -/

/-- The grant of one policy to a task.  The kernel may fail to open an entry, to deliver it and to
take it back. -/
def grant (s : System) (task : TaskId) (policy : Nat) (unsealed delivered released : Bool) :
    System :=
  match s.grants.findIdx? fun g => g.task = task && g.policy = policy with
  | some spot =>
    match s.grants[spot]? with
    | none => s
    | some g =>
      if g.delivered || g.revoked then s
      else if delivered then
        { s with grants := s.grants.set spot { g with delivered := true } }
      else if released then { s with grants := s.grants.eraseIdx spot }
      else s
  | none =>
    if 256 ≤ s.grants.length || !unsealed then s
    else
      let s := { s with tokens := s.tokens + 1 }
      let g : Grant := ⟨s.tokens - 1, task, policy, delivered, false⟩
      if delivered || !released then { s with grants := s.grants ++ [g] } else s

/-- One turn of the retirement of a task: its first grant is revoked, its scope is retired, and the
grant goes once nothing of the scope is pending. -/
def retire (s : System) (task : TaskId) (released : Bool) (room : Room) : System :=
  match s.grants.findIdx? fun g => g.task = task with
  | none => s
  | some spot =>
    match s.grants[spot]? with
    | none => s
    | some g =>
      if !g.revoked && !released then s
      else
        match s.jobs.retireCreateScope room ⟨g.entry, g.task⟩ with
        | (.ok _, jobs) => { s with jobs, grants := s.grants.eraseIdx spot }
        | (.error _, jobs) =>
          { s with jobs, grants := s.grants.set spot { g with revoked := true } }

end System

/-! ## Steps and runs -/

/-- What can happen to the service. -/
inductive Action
  | dispatch (ask : Ask) (approved : Bool) (room : Room)
  | construct (settling : Bool) (makes : JobId → Make)
  | completed
  | grant (task : TaskId) (policy : Nat) (unsealed delivered released : Bool)
  | retire (task : TaskId) (released : Bool) (room : Room)
  | phase (room : Bool) (reference : InstanceRef) (key : HookKey)
  | completeCreatePrepare (id : JobId) (reference : InstanceRef)
  | completePhase (id : JobId)
  | lifecycle (room : Bool)
  | command (room : Bool)
  | selectLifecycle
  | takeCommands (limit : Nat)
  /-- What is in flight goes back to the queue. -/
  | requeue (w : Work)
  /-- What is in flight is done; its completion is queued. -/
  | complete (w : Work)
  | take (id : JobId)
  /-- Control reaps, claims, activates and drops instances. -/
  | control (instances : List Instance)
  /-- Tokens and tasks the kernel gives to others. -/
  | elsewhere (tokens : PieToken) (tasks : TaskId)

/-- What Control never changes of an instance. -/
def Instance.tag (i : Instance) : InstanceRef × TaskId × TaskId := (i.reference, i.owner, i.task)

namespace System

/-- The rest of the frame. -/
def other (s : System) : Action → Option System
  | .completed => (s.jobs.completed s.control).map fun jobs => { s with jobs }
  | .grant task policy unsealed delivered released =>
    some (s.grant task policy unsealed delivered released)
  | .retire task released room => some (s.retire task released room)
  | .phase room reference key => some { s with jobs := s.jobs.phase room reference key }
  | .completeCreatePrepare id reference =>
    some { s with jobs := (s.jobs.completeCreatePrepare id reference).2 }
  | .completePhase id => some { s with jobs := s.jobs.completePhase id }
  | .lifecycle room => some { s with jobs := s.jobs.submit room .lifecycle }
  | .command room => some { s with jobs := s.jobs.submit room .command }
  | .selectLifecycle => s.jobs.selectLifecycle.map fun (w, jobs) =>
    { s with jobs, flight := s.flight ++ [w] }
  | .takeCommands limit =>
    let taken := s.jobs.takeCommands limit
    some { s with jobs := taken.2, flight := s.flight ++ taken.1 }
  | .requeue w =>
    if w ∈ s.flight then some { s with jobs := s.jobs.push w, flight := s.flight.erase w } else none
  | .complete w =>
    if w ∈ s.flight then
      some { s with jobs := s.jobs.push (.completed w.id .other), flight := s.flight.erase w }
    else none
  | .take id => (s.jobs.take id).map fun (_, jobs) => { s with jobs }
  | .control instances =>
    if (instances.map Instance.tag).Sublist (s.control.instances.map Instance.tag) then
      some { s with control := { s.control with instances } }
    else none
  | .elsewhere tokens tasks =>
    some { s with tokens := max s.tokens tokens, tasks := max s.tasks tasks }
  | .dispatch .. => none
  | .construct .. => none

/-- One step; `none` when the frame is elsewhere or the program ends with a panic or a fault. -/
def step (s : System) : Action → Option (System × List Event)
  | .dispatch ask approved room =>
    if s.admits ask approved then { s with serving := true }.dispatch ask room else some (s, [])
  | .construct settling makes =>
    some ({ s with jobs := s.jobs.settle settling, serving := false }.construct makes)
  | action => if s.serving then none else (s.other action).map fun s => (s, [])

end System

/-- The runs of the program from its start, with their events, whose steps all meet a condition on
the state before and the action. -/
inductive Runs (meets : System → Action → Prop) : System → List Event → Prop
  | new (self : TaskId) (tokens : PieToken) (tasks : TaskId) :
      Runs meets (.new self tokens tasks) []
  | step {s s' : System} {es es' : List Event} {a : Action} :
    Runs meets s es → meets s a → s.step a = some (s', es') → Runs meets s' (es ++ es')

/-- A state of some run. -/
def Reached (s : System) : Prop := ∃ es, Runs (fun _ _ => True) s es

/-- Carry out actions one after the other. -/
def replay (s : System) : List Action → Option (System × List Event)
  | [] => some (s, [])
  | a :: rest =>
    match s.step a with
    | none => none
    | some (s', es) => (replay s' rest).map fun (s'', es') => (s'', es ++ es')

theorem runs_replay {s s' : System} {es es' : List Event} {actions : List Action}
    (hr : Runs (fun _ _ => True) s es) (h : replay s actions = some (s', es')) :
    Runs (fun _ _ => True) s' (es ++ es') := by
  induction actions generalizing s es es' with
  | nil =>
    obtain ⟨rfl, rfl⟩ : s = s' ∧ [] = es' := by simpa [replay] using h
    rwa [List.append_nil]
  | cons a rest ih =>
    unfold replay at h
    split at h
    · cases h
    next one es1 hstep =>
    obtain ⟨⟨s2, es2⟩, hrest, he⟩ := Option.map_eq_some_iff.1 h
    obtain ⟨rfl, rfl⟩ : s2 = s' ∧ es1 ++ es2 = es' := by simpa using he
    rw [← List.append_assoc]
    exact ih (.step hr trivial hstep) hrest

end Sqware.Assembly
