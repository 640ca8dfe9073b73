import Mathlib.Algebra.Group.Nat.Defs
import Sqware.Lib.Keyed

/-!
# The jobs of the assembly

A construction is asked for under a key: the entry it came through, the caller and a number.
`Jobs` keeps a record per key, the queue of work, the launches that came of it, the largest number
of every scope (entry and caller) and the scopes that were retired while a construction was pending.

Whether memory can be had, what an image holds and whether the loader succeeds come with each call.
-/

namespace Sqware.Assembly

abbrev TaskId : Type := Nat
abbrev PieToken : Type := Nat
abbrev TeamId : Type := Nat
abbrev JobId : Type := Nat
abbrev Subject : Type := Nat
/-- The digest of an image's bytes. -/
abbrev Fingerprint : Type := Nat

inductive Fail
  | unknown
  | badImage
  | full
  | notReady
  | bad
  | denied
  | conflict
  deriving DecidableEq, Repr

def Fail.code : Fail → Nat
  | .unknown => 1
  | .badImage => 2
  | .full => 3
  | .notReady => 4
  | .bad => 5
  | .denied => 6
  | .conflict => 7

inductive CreateState
  | unseen
  | pending
  | completed
  | failed
  | cancelled
  | closed
  deriving DecidableEq, Repr

structure Built where
  task : TaskId
  team : TeamId
  deriving DecidableEq, Repr

structure Said where
  status : Nat
  state : CreateState
  team : TeamId
  task : TaskId
  startup : PieToken
  deriving DecidableEq, Repr

def Said.fromResult : Except Fail Built → Said
  | .ok built => ⟨0, .completed, built.team, built.task, 0⟩
  | .error fail => ⟨fail.code, .failed, 0, 0, 0⟩

/-- An answer that carries a state and nothing else. -/
def Said.plain (state : CreateState) : Said := ⟨0, state, 0, 0, 0⟩

def cancelledSaid : Said := .plain .cancelled

/-! ## Requests -/

structure Scope where
  entry : PieToken
  caller : TaskId
  deriving DecidableEq, Repr

structure CreateKey where
  entry : PieToken
  caller : TaskId
  id : Nat
  deriving DecidableEq, Repr

def CreateKey.scope (key : CreateKey) : Scope := ⟨key.entry, key.caller⟩

structure Parameters where
  stack : Nat
  count : Nat
  args : List Nat
  deriving DecidableEq, Repr

inductive Input
  | unit (name : String) (parameters : Parameters)
  | image (image : PieToken) (offset len : Nat) (parameters : Parameters)
  deriving DecidableEq, Repr

def Input.parameters : Input → Parameters
  | .unit _ parameters => parameters
  | .image _ _ _ parameters => parameters

/-- The token an image came with is not compared. -/
def sameInput : Input → Input → Bool
  | .unit name parameters, .unit name' parameters' => name = name' && parameters = parameters'
  | .image _ offset len parameters, .image _ offset' len' parameters' =>
    offset = offset' && len = len' && parameters = parameters'
  | _, _ => false

def retainedInput (name : Bool) : Input → Except Fail Input
  | .image _ offset len parameters => .ok (.image 0 offset len parameters)
  | .unit text parameters => if name then .ok (.unit text parameters) else .error .full

inductive Op
  | build
  | inspect
  | cancel
  deriving DecidableEq, Repr

/-- A request with the entry it was received on and its sender. -/
structure Ask where
  op : Op
  entry : PieToken
  caller : TaskId
  id : Nat
  input : Option Input
  owner : TaskId
  subject : Subject
  back : PieToken
  deriving DecidableEq, Repr

def Ask.key (ask : Ask) : CreateKey := ⟨ask.entry, ask.caller, ask.id⟩

/-- What is queued for a request. -/
structure Request where
  input : Input
  caller : TaskId
  owner : TaskId
  subject : Subject
  back : Option PieToken
  create : Option CreateKey
  deriving DecidableEq, Repr

/-! ## The queue, the launches and the records -/

structure InstanceRef where
  job : JobId
  task : TaskId
  deriving DecidableEq, Repr

inductive Outcome
  | construct (reference : InstanceRef)
  | createReplay (said : Said)
  | cancelled
  | failed (fail : Fail)
  | other
  deriving DecidableEq, Repr

/-- The instance an outcome names. -/
def Outcome.reference : Outcome → Option InstanceRef
  | .construct reference => some reference
  | _ => none

inductive HookKey
  | prepare
  | retire
  deriving DecidableEq, Repr

inductive Work
  | construct (id : JobId) (request : Request)
  | lifecycle (id : JobId)
  | phase (id : JobId) (reference : InstanceRef) (key : HookKey)
  | command (id : JobId)
  | completed (id : JobId) (outcome : Outcome)
  deriving DecidableEq, Repr

namespace Work

def id : Work → JobId
  | .construct id _ => id
  | .lifecycle id => id
  | .phase id _ _ => id
  | .command id => id
  | .completed id _ => id

def completedId : Work → Option JobId
  | .completed id _ => some id
  | _ => none

def construct? : Work → Option (JobId × Request)
  | .construct id request => some (id, request)
  | _ => none

/-- The construction with this job number and key. -/
def constructs (job : Option JobId) (key : CreateKey) : Work → Bool
  | .construct id request => some id = job && request.create = some key
  | _ => false

def isLifecycle : Work → Bool
  | .lifecycle _ => true
  | _ => false

def isCommand : Work → Bool
  | .command _ => true
  | _ => false

def isPhase (id : JobId) : Work → Bool
  | .phase id' _ _ => id' = id
  | _ => false

/-- The phase of an instance. -/
def phases (reference : InstanceRef) (key : HookKey) : Work → Bool
  | .phase _ reference' key' => reference' = reference && key' = key
  | _ => false

/-- The key of the construction queued under this number. -/
def createOf (id : JobId) : Work → Option CreateKey
  | .construct queued request => if queued = id then request.create else none
  | _ => none

end Work

structure Launch where
  reference : InstanceRef
  task : TaskId
  create : Option CreateKey
  back : Option PieToken
  startup : PieToken
  deriving DecidableEq, Repr

structure CreateRecord where
  key : CreateKey
  construct : Option JobId
  prepare : Option JobId
  prepared : Bool
  owner : TaskId
  subject : Option Subject
  input : Option Input
  fingerprint : Option Fingerprint
  said : Said
  cancelled : Bool
  deriving DecidableEq, Repr

def CreateRecord.scope (r : CreateRecord) : Scope := r.key.scope

def CreateRecord.pending (r : CreateRecord) : Bool := r.said.state = .pending

structure CreateWatermark where
  scope : Scope
  highest : Nat
  deriving DecidableEq, Repr

structure Jobs where
  work : List Work
  next : Nat
  launches : List Launch
  creates : List CreateRecord
  watermarks : List CreateWatermark
  closed : List Scope
  deriving DecidableEq, Repr

/-- Whether the memory asked for along the way can be had. -/
structure Room where
  work : Bool
  job : Bool
  creates : Bool
  watermarks : Bool
  scopes : Bool
  name : Bool
  deriving DecidableEq, Repr

inductive CreateAdmission
  | new
  | duplicate
  | cancelled
  deriving DecidableEq, Repr

namespace Jobs

def new : Jobs := ⟨[], 1, [], [], [], []⟩

def create (j : Jobs) (key : CreateKey) : Option CreateRecord :=
  Keyed.get CreateRecord.key j.creates key

def watermark (j : Jobs) (scope : Scope) : Option CreateWatermark :=
  Keyed.get CreateWatermark.scope j.watermarks scope

/-- Change the record of a key, if there is one. -/
def setCreate (j : Jobs) (key : CreateKey) (f : CreateRecord → CreateRecord) : Jobs :=
  { j with creates := Keyed.update CreateRecord.key key f j.creates }

def setSaid (j : Jobs) (key : CreateKey) (said : Said) : Jobs :=
  j.setCreate key fun r => { r with said }

def push (j : Jobs) (w : Work) : Jobs := { j with work := j.work ++ [w] }

/-! ## The queue -/

/-- Job numbers are 64 bits wide and are never given twice. -/
def reserveJob (j : Jobs) (limit : Nat) (room : Bool) : Option (JobId × Jobs) :=
  if limit ≤ j.work.length || !room then none
  else if j.next = 0 then none
  else if j.next + 1 < 2 ^ 64 then some (j.next, { j with next := j.next + 1 })
  else none

def take (j : Jobs) (id : JobId) : Option (Work × Jobs) :=
  match j.work.findIdx? (·.completedId = some id) with
  | none => none
  | some spot => j.work[spot]?.map fun w => (w, { j with work := j.work.eraseIdx spot })

/-- At most `rounds` entries are turned from the front of the queue to its back. -/
def popMatching (p : Work → Bool) : Nat → List Work → Option (Work × List Work)
  | 0, _ => none
  | _ + 1, [] => none
  | rounds + 1, w :: work => if p w then some (w, work) else popMatching p rounds (work ++ [w])

def selectLifecycle (j : Jobs) : Option (Work × Jobs) :=
  (popMatching Work.isLifecycle j.work.length j.work).map fun (w, work) => (w, { j with work })

/-- At most `limit` commands, in a turn of the whole queue. -/
def takeCommandsFrom (limit : Nat) : Nat → List Work → List Work → List Work × List Work
  | 0, work, taken => (taken, work)
  | _ + 1, [], taken => (taken, [])
  | count + 1, w :: work, taken =>
    if limit ≤ taken.length then (taken, w :: work)
    else if w.isCommand then takeCommandsFrom limit count work (taken ++ [w])
    else takeCommandsFrom limit count (work ++ [w]) taken

def takeCommands (j : Jobs) (limit : Nat) : List Work × Jobs :=
  let turned := takeCommandsFrom limit j.work.length j.work []
  (turned.1, { j with work := turned.2 })

/-- A lifecycle or a command is queued under a number of its own. -/
def submit (j : Jobs) (room : Bool) (w : JobId → Work) : Jobs :=
  match j.reserveJob 272 room with
  | none => j
  | some (id, j) => j.push (w id)

def phase (j : Jobs) (room : Bool) (reference : InstanceRef) (key : HookKey) : Jobs :=
  if j.work.any (Work.phases reference key) then j
  else match j.reserveJob 272 room with
    | none => j
    | some (id, j) =>
      let j := j.push (.phase id reference key)
      match key, (j.launches.find? (·.reference = reference)).bind (·.create) with
      | .prepare, some create => j.setCreate create fun r => { r with prepare := some id }
      | _, _ => j

def completeCreatePrepare (j : Jobs) (id : JobId) (reference : InstanceRef) : Bool × Jobs :=
  match (j.launches.find? (·.reference = reference)).bind (·.create) with
  | none => (true, j)
  | some key =>
    match j.create key with
    | none => (false, j)
    | some record =>
      if record.prepare = some id then
        (true, j.setCreate key fun r => { r with prepared := true })
      else (false, j)

def completePhase (j : Jobs) (id : JobId) : Jobs :=
  match j.work.findIdx? (Work.isPhase id) with
  | none => j
  | some spot => { j with work := j.work.eraseIdx spot }.push (.completed id .other)

/-- A full turn of the queue takes every construction out, in order. -/
def takeConstructBatch (j : Jobs) : List (JobId × Request) × Jobs :=
  (j.work.filterMap Work.construct?,
    { j with work := j.work.filter fun w => w.construct?.isNone })

def refuse (j : Jobs) (create : Option CreateKey) (fail : Fail) : Jobs :=
  match create with
  | some key => j.setSaid key (.fromResult (.error fail))
  | none => j

/-- The queue takes it. -/
def enqueue (j : Jobs) (room : Room) (request : Request) : Except Fail JobId × Jobs :=
  if 272 ≤ j.work.length || !room.work then (.error .full, j.refuse request.create .full)
  else match j.reserveJob 272 room.job with
    | none => (.error .full, j.refuse request.create .full)
    | some (id, j) =>
      let j := j.push (.construct id request)
      match j.work.findSome? (Work.createOf id) with
      | some key => (.ok id, j.setCreate key fun r => { r with construct := some id })
      | none => (.ok id, j)

/-! ## The records -/

def pendingIn (creates : List CreateRecord) (scope : Scope) : Bool :=
  creates.any fun r => r.scope = scope && r.pending

/-- The retired scopes one after the other: one with nothing pending goes, and its records and its
watermark with it. -/
def sweepFrom : List Scope → List CreateRecord → List CreateWatermark →
    List Scope × List CreateRecord × List CreateWatermark
  | [], creates, watermarks => ([], creates, watermarks)
  | scope :: rest, creates, watermarks =>
    if pendingIn creates scope then
      let swept := sweepFrom rest creates watermarks
      (scope :: swept.1, swept.2)
    else
      sweepFrom rest (creates.filter (·.scope ≠ scope)) (watermarks.filter (·.scope ≠ scope))

def sweepClosedCreateScopes (j : Jobs) : Jobs :=
  let swept := sweepFrom j.closed j.creates j.watermarks
  { j with closed := swept.1, creates := swept.2.1, watermarks := swept.2.2 }

/-- Numbers are dropped 64 behind the key's, unless their construction is pending. -/
def pruneCreates (j : Jobs) (key : CreateKey) : Jobs :=
  { j with creates := j.creates.filter fun r =>
      r.scope ≠ key.scope || key.id - 64 < r.key.id || r.pending }

/-- Why no record can be made for the key. -/
def refuses (j : Jobs) (room : Room) (key : CreateKey) : Option Fail :=
  let mark := j.watermark key.scope
  if mark.any (key.id ≤ ·.highest) then some .conflict
  else if 256 ≤ j.creates.length || !room.creates then some .full
  else if mark.isNone && (256 ≤ j.watermarks.length || !room.watermarks) then some .full
  else none

/-- The watermark moves to the record's number and the record is kept. -/
def enter (j : Jobs) (r : CreateRecord) : Jobs :=
  { j with
    watermarks := match j.watermark r.scope with
      | some _ => Keyed.update CreateWatermark.scope r.scope
          (fun m => { m with highest := r.key.id })
          j.watermarks
      | none => j.watermarks ++ [⟨r.scope, r.key.id⟩]
    creates := j.creates ++ [r] }

/-- The record of a request that was admitted. -/
def admitted (key : CreateKey) (ask : Ask) (input : Input) : CreateRecord :=
  ⟨key, none, none, false, ask.owner, some ask.subject, some input, none, .plain .pending, false⟩

/-- The record of a key that was cancelled before it was seen. -/
def unseen (key : CreateKey) : CreateRecord :=
  ⟨key, none, none, false, key.caller, none, none, none, cancelledSaid, true⟩

def sameRequest (r : CreateRecord) (ask : Ask) : Bool :=
  r.owner = ask.owner && r.subject = some ask.subject &&
    match r.input, ask.input with
    | some old, some new => sameInput old new
    | _, _ => false

/-- A BUILD request against the records. -/
def admitCreate (j : Jobs) (room : Room) (key : CreateKey) (ask : Ask) :
    Except Fail CreateAdmission × Jobs :=
  if key.scope ∈ j.closed then (.error .conflict, j)
  else match j.create key with
    | some r =>
      if r.cancelled then (.ok .cancelled, j)
      else if sameRequest r ask then (.ok .duplicate, j)
      else (.error .conflict, j)
    | none =>
      let j := j.pruneCreates key
      match j.refuses room key, ask.input with
      | some fail, _ => (.error fail, j)
      | none, none => (.error .bad, j)
      | none, some input =>
        match retainedInput room.name input with
        | .error fail => (.error fail, j)
        | .ok input => (.ok .new, j.enter (admitted key ask input))

def createReply (j : Jobs) (key : CreateKey) : Said :=
  match j.create key with
  | some r => r.said
  | none =>
    if j.watermarks.any fun m => m.scope = key.scope && key.id ≤ m.highest then
      .fromResult (.error .conflict)
    else .plain .unseen

/-- The entry is taken from its caller. -/
def retireCreateScope (j : Jobs) (room : Room) (scope : Scope) : Except Fail Unit × Jobs :=
  if pendingIn j.creates scope && scope ∉ j.closed && (256 ≤ j.closed.length || !room.scopes) then
    (.error .full, j)
  else
    let closed :=
      if pendingIn j.creates scope && scope ∉ j.closed then j.closed ++ [scope] else j.closed
    let j := { j with closed }.sweepClosedCreateScopes
    (if scope ∈ j.closed then .error .notReady else .ok (), j)

/-! ## The end of a construction -/

/-- A failure is said to a record that is pending and was not cancelled. -/
def failing (fail : Fail) (r : CreateRecord) : CreateRecord :=
  if !r.cancelled && r.pending then { r with said := .fromResult (.error fail) } else r

/-- What an outcome says to the record of the key. -/
def conclude (j : Jobs) (key : Option CreateKey) : Outcome → Jobs
  | .cancelled => match key with
    | some key => j.setSaid key cancelledSaid
    | none => j
  | .failed fail => match key with
    | some key => j.setCreate key (failing fail)
    | none => j
  | _ => j

/-- The job is completed, the completion is taken from the queue again, and the retired scopes are
swept. -/
def consumeConstruct (j : Jobs) (id : JobId) (outcome : Outcome) (key : Option CreateKey) :
    Option InstanceRef × Jobs :=
  let j := j.push (.completed id outcome)
  match j.take id with
  | some (.completed _ outcome, j) =>
    (outcome.reference, (j.conclude key outcome).sweepClosedCreateScopes)
  | _ => (none, j)

def settleEach (j : Jobs) : List (JobId × Request) → Jobs
  | [] => j
  | (id, request) :: rest =>
    let cancelled := request.create.any fun key =>
      j.creates.any fun r => r.key = key && r.cancelled
    settleEach (j.consumeConstruct id (if cancelled then .cancelled else .failed .notReady)
      request.create).2 rest

def settle (j : Jobs) (settling : Bool) : Jobs :=
  if settling then j.takeConstructBatch.2.settleEach j.takeConstructBatch.1 else j

end Jobs

/-! ## Instances -/

inductive Receipt
  | owner (team : TeamId)
  | returned (team : TeamId)
  | consumed
  | reported
  deriving DecidableEq, Repr

def Receipt.team : Receipt → Option TeamId
  | .owner team => some team
  | .returned team => some team
  | .consumed => none
  | .reported => none

inductive State
  | neverStarted
  | starting
  | ready
  | stopping
  | dead
  | debarked
  deriving DecidableEq, Repr

structure Instance where
  reference : InstanceRef
  owner : TaskId
  task : TaskId
  receipt : Receipt
  state : State
  deriving DecidableEq, Repr

namespace Instance

def team (i : Instance) : Option TeamId := if i.state = .dead then none else i.receipt.team

def stop (i : Instance) : Instance := if i.state = .dead then i else { i with state := .stopping }

/-- A dead instance whose team was reported, or consumed and owned by the system itself. -/
def spare (self : TaskId) (i : Instance) : Bool :=
  i.state = .dead && (i.receipt = .reported || (i.receipt = .consumed && i.owner = self))

end Instance

structure Control where
  self : TaskId
  instances : List Instance
  deriving DecidableEq, Repr

namespace Control

def find (c : Control) (task : TaskId) : Option Instance := Keyed.get Instance.task c.instances task

def stopInstance (c : Control) (task : TaskId) : Control :=
  { c with instances := Keyed.update Instance.task task Instance.stop c.instances }

/-- The result of an instance; a debarked one without a team is a fault. -/
def instanceResult (c : Control) (task : TaskId) : Option (Option (Except Fail Built)) :=
  match c.find task with
  | none => some (some (.error .notReady))
  | some item =>
    match item.state with
    | .starting => some none
    | .debarked => item.team.map fun team => some (.ok ⟨item.task, team⟩)
    | _ => some (some (.error .notReady))

def reserveInstance (c : Control) (room : Bool) : Except Fail Unit × Control :=
  if 256 ≤ c.instances.length then
    match c.instances.findIdx? (Instance.spare c.self) with
    | some spot =>
      (if room then .ok () else .error .full, { c with instances := c.instances.eraseIdx spot })
    | none => (.error .full, c)
  else (if room then .ok () else .error .full, c)

def registerInstance (c : Control) (job : JobId) (owner : TaskId) (built : Built) : Control :=
  { c with instances := c.instances ++
      [⟨⟨job, built.task⟩, owner, built.task, .owner built.team, .starting⟩] }

end Control

/-- What the world answers while a request is constructed: the bytes of the image, memory for the
launch, for its retirement list and for the instance, and the loader. -/
structure Make where
  snapshot : Except Fail Fingerprint
  launches : Bool
  retirement : Bool
  instances : Bool
  loaded : Except Fail TeamId

def maxArgs : Nat := 64

/-- The loader gives the next task of the kernel. -/
def constructOne (c : Control) (tasks : TaskId) (make : Make) (id : JobId) (request : Request) :
    Except Fail Launch × Control :=
  if !make.retirement then (.error .full, c)
  else match c.reserveInstance make.instances with
    | (.error fail, c) => (.error fail, c)
    | (.ok _, c) =>
      if maxArgs < request.input.parameters.count then (.error .bad, c)
      else match make.loaded with
        | .error fail => (.error fail, c)
        | .ok team =>
          (.ok ⟨⟨id, tasks⟩, tasks, request.create, request.back, 0⟩,
            c.registerInstance id request.owner ⟨tasks, team⟩)

namespace Jobs

def cancelling (r : CreateRecord) : CreateRecord := { r with cancelled := true }

/-- Cancel the construction of a key.  The last case but one searches the queue and goes on with the
place it found there, also where it reads the answer from the records. -/
def cancelCreate (j : Jobs) (room : Room) (c : Control) (key : CreateKey) :
    Option (Said × Jobs × Control) :=
  match j.create key with
  | none =>
    let j := j.pruneCreates key
    match j.refuses room key with
    | some fail => some (.fromResult (.error fail), j, c)
    | none => some (cancelledSaid, j.enter (unseen key), c)
  | some record =>
    let j := j.setCreate key cancelling
    match j.launches.find? (·.create = some key) with
    | some launch =>
      let said := { record.said with state := .pending }
      some (said, j.setSaid key said, c.stopInstance launch.task)
    | none =>
      match j.work.findIdx? (Work.constructs record.construct key) with
      | some spot =>
        match j.work[spot]? with
        | some (.construct id _) =>
          let j := ({ j with work := j.work.eraseIdx spot }.consumeConstruct id .cancelled
              (some key)).2
          j.creates[spot]?.map fun r => (r.said, j, c)
        | _ => none
      | none => some (cancelledSaid, j.setSaid key cancelledSaid, c)

/-! ## What the instances came to -/

/-- The record of a launch whose instance is gone. -/
def bury (creates : List CreateRecord) (launch : Launch) : List CreateRecord :=
  match launch.create with
  | some key => Keyed.update CreateRecord.key key
      (fun r => if r.cancelled then { r with said := cancelledSaid } else r) creates
  | none => creates

def report (creates : List CreateRecord) (launch : Launch) (said : Said) : List CreateRecord :=
  match launch.create with
  | some key => Keyed.update CreateRecord.key key
      (fun r => if r.cancelled then r else { r with said }) creates
  | none => creates

/-- A construction that is being prepared is not reported yet. -/
def preparing (creates : List CreateRecord) (launch : Launch) : Bool :=
  launch.create.any fun key =>
    (Keyed.get CreateRecord.key creates key).any fun r => r.prepare.isSome && !r.prepared

/-- The answer for an instance that is ready, or failed. -/
def resultSaid (launch : Launch) : Except Fail Built → Said
  | .ok built => { Said.fromResult (.ok built) with startup := launch.startup }
  | .error fail => .fromResult (.error fail)

/-- The launches in turn; a fault of the control ends the program. -/
def completedFrom (c : Control) : List Launch → List CreateRecord →
    Option (List Launch × List CreateRecord)
  | [], creates => some ([], creates)
  | launch :: rest, creates =>
    if (c.find launch.task).all fun i => i.state = .dead && i.team.isNone then
      completedFrom c rest (bury creates launch)
    else
      let wait := (completedFrom c rest creates).map fun done => (launch :: done.1, done.2)
      match launch.back, c.instanceResult launch.task with
      | none, _ => wait
      | some _, none => none
      | some _, some none => wait
      | some _, some (some result) =>
        if result.isOk && preparing creates launch then wait
        else
          (completedFrom c rest (report creates launch (resultSaid launch result))).map fun done =>
            ({ launch with back := none } :: done.1, done.2)

/-- What the instances came to. -/
def completed (j : Jobs) (c : Control) : Option Jobs :=
  (completedFrom c j.launches j.creates).map fun done =>
    { j with launches := done.1, creates := done.2 }.sweepClosedCreateScopes

end Jobs

end Sqware.Assembly
