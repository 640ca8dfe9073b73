import Mathlib.Data.List.Sort
import Sqware.Pend.Operations

/-!
# Walks over the edges

`cull` and `forget` need the locks of tasks they only learn by walking the edges.  `collect` reads
one node at a time, under that task's lock alone, and records the version of each ledger when it
first reads it.  The walk ends in one section that locks all these ledgers and first asks whether
what was read still stands: every version is the recorded one or, for `cull`, the relations still
fit together.  Otherwise the walk starts over, eight times in all.

A walk is a process (`Phase`); each `step` is one locked section of it, and sections of others may
come in between.
-/

namespace Sqware.Ledger

def retries : Nat := 8

/-! ## Collecting -/

/-- `parent` is set while the task of the root's parent is still to be observed. -/
structure Collect where
  tasks : List (TaskId × Nat)
  nodes : List (TaskId × Token)
  cursor : Nat
  parent : Option TaskId

def Collect.start (t : TaskId) (token : Token) : Collect := ⟨[], [(t, token)], 0, none⟩

def Collect.finished (c : Collect) : Bool := c.parent.isNone && c.nodes.length ≤ c.cursor

def observe (room : Bool) (tasks : List (TaskId × Nat)) (t : TaskId) (version : Nat) :
    Except PieFail (List (TaskId × Nat)) :=
  if tasks.any (·.1 = t) then .ok tasks
  else if room then .ok (tasks ++ [(t, version)])
  else .error .oom

/-- The children of a pie that `collect` goes on to. -/
def World.children (w : World) (p : Pend) (token : Token) : List (TaskId × Token) :=
  ((Multi.run Edge.parent p.heirs token).filter fun e => w.upgrade e.task).map
    fun e => (e.task, e.token)

/-- One section of `collect`.  A task the walk holds keeps its ledger, so the answers where there
is none are not met. -/
def Collect.step (f : Facts) (recursive : Bool) (w : World) (c : Collect) :
    Except PieFail Collect :=
  match c.parent, c.nodes[c.cursor]? with
  | some lord, _ =>
    match w.pends lord with
    | none => .error .busy
    | some p =>
      (observe (f.room 0) c.tasks lord p.version).map fun tasks =>
        { c with tasks := tasks, parent := none, cursor := c.cursor + 1 }
  | none, none => .ok c
  | none, some (t, token) =>
    match w.pends t with
    | none => .error .busy
    | some p =>
      match observe (f.room 0) c.tasks t p.version, w.locate t token with
      | .error e, _ => .error e
      | .ok _, none => .error .busy
      | .ok tasks, some pie =>
        let parent := if c.cursor = 0 then pie.lord.filter w.upgrade else none
        let children := if c.cursor = 0 || recursive then w.children p token else []
        if !children.isEmpty && !f.room 1 then .error .oom
        else .ok
          { tasks := tasks
            nodes := c.nodes ++ children
            cursor := if parent.isSome then c.cursor else c.cursor + 1
            parent := parent }

/-! ## The process -/

/-- What is walked for: the root, whether the walk goes below its children, and a caller whose
ledger is observed last. -/
structure Call where
  task : TaskId
  token : Token
  recursive : Bool
  caller : Option TaskId

/-- `locate n` is about to make one of `n` attempts. -/
inductive Phase (β : Type)
  | locate (n : Nat)
  | collect (n : Nat) (c : Collect)
  | observe (n : Nat) (c : Collect)
  | commit (n : Nat) (tasks : List (TaskId × Nat)) (nodes : List (TaskId × Token))
  | done (r : Except PieFail β)

def sortTasks (tasks : List (TaskId × Nat)) : List (TaskId × Nat) :=
  tasks.insertionSort fun a b => a.1 ≤ b.1

def observeCaller (f : Facts) (w : World) (caller : Option TaskId) (tasks : List (TaskId × Nat)) :
    Except PieFail (List (TaskId × Nat)) :=
  match caller with
  | none => .ok tasks
  | some t =>
    match w.pends t with
    | none => .error .busy
    | some p => observe (f.room 0) tasks t p.version

/-- The last section of a walk: the facts, the ledgers, and the tasks and nodes collected.  The
outer error is that of taking the locks, the inner one that of what ran under them. -/
abbrev Finish (β : Type) :=
  Facts → World → List (TaskId × Nat) → List (TaskId × Token) →
    Option (Except PieFail (Except PieFail β) × World)

/-- One section of a walk; `none` is a panic of the last one. -/
def Phase.step {β : Type} (call : Call) (finish : Finish β) (f : Facts) (w : World) :
    Phase β → Option (World × Phase β)
  | .locate 0 => some (w, .done (.error .busy))
  | .locate (n + 1) =>
    if (w.locate call.task call.token).isNone then some (w, .done (.error .denied))
    else if !f.room 0 then some (w, .done (.error .oom))
    else some (w, .collect n (.start call.task call.token))
  | .collect n c =>
    if c.finished then some (w, .observe n c)
    else match c.step f call.recursive w with
      | .error .busy => some (w, .locate n)
      | .error e => some (w, .done (.error e))
      | .ok c' => some (w, .collect n c')
  | .observe n c =>
    match observeCaller f w call.caller c.tasks with
    | .error e => some (w, .done (.error e))
    | .ok tasks =>
      -- only `cull` reserves room for its results here
      if call.recursive && !f.room 1 then some (w, .done (.error .oom))
      else some (w, .commit n (sortTasks tasks) c.nodes)
  | .commit n tasks nodes =>
    (finish f w tasks nodes).map fun
      | (.error .busy, w') => (w', .locate n)
      | (.error e, w') => (w', .done (.error e))
      | (.ok r, w') => (w', .done r)
  | .done r => some (w, .done r)

/-! ## Culling -/

def World.edges (w : World) (t : TaskId) : List Edge := ((w.pends t).map (·.heirs)).getD []

def versionsMatch (w : World) (tasks : List (TaskId × Nat)) : Bool :=
  tasks.all fun x => (w.pends x.1).any fun p => sameVersion p.version x.2

/-- `with_tasks_checked`: `run` is taken only where what was collected is still valid. -/
def withTasksChecked {β : Type} (f : Facts) (w : World) (tasks : List (TaskId × Nat))
    (validate : Bool) (run : Option (Except PieFail β × World)) :
    Option (Except PieFail (Except PieFail β) × World) :=
  if !f.room 0 then some (.error .oom, w)
  else if !(versionsMatch w tasks || validate) then some (.error .busy, w)
  else run.map fun x => (.ok x.1, x.2)

def relationsMatch (w : World) (tasks : List (TaskId × Nat)) (nodes : List (TaskId × Token)) :
    Bool :=
  nodes.zipIdx.all fun x =>
    let (t, token) := x.1
    match w.locate t token with
    | none => false
    | some pie =>
      (match pie.sire, pie.lord.filter w.upgrade with
        | some parent, some lord =>
          (if x.2 = 0 then tasks.any (·.1 = lord) else nodes.any (· = (lord, parent))) &&
            (w.edges lord).any (· = ⟨parent, t, token⟩)
        | some _, none => false
        | none, _ => x.2 = 0) &&
      (Multi.run Edge.parent (w.edges t) token).all fun e =>
        !w.upgrade e.task || nodes.tail.any (· = (e.task, e.token))

/-- A caller may only cull a child of a pie it holds. -/
def authorized (w : World) (caller : Option TaskId) (root : Pie) : Bool :=
  match caller with
  | none => true
  | some caller =>
    match w.origin root with
    | none => false
    | some (parent, lord) => lord = caller && (w.locate caller parent).isSome

def withdrawable (f : Facts) (closing : Bool) (root : Pie) : Except PieFail Unit :=
  if !root.mail.isPole then .ok ()
  else if !closing && !f.acquires root.mail then .error .busy
  else if !closing && f.reserved root.mail != 0 then .error .busy
  else f.beginWithdraw root.mail

def takeAll : List (TaskId × Token) → World → List Pie × World
  | [], w => ([], w)
  | (t, token) :: l, w =>
    match w.take t token with
    | none => takeAll l w
    | some (pie, w') => (pie :: (takeAll l w').1, (takeAll l w').2)

/-- What `cull` does under the locks: what it removes and whom it notifies. -/
def cullRun (call : Call) (closing : Bool) (f : Facts) (w : World) (tasks : List (TaskId × Nat))
    (nodes : List (TaskId × Token)) : Except PieFail (List Pie × List TaskId) × World :=
  match w.locate call.task call.token with
  | none => (.error .denied, w)
  | some root =>
    if !authorized w call.caller root then (.error .denied, w)
    else match withdrawable f closing root with
      | .error e => (.error e, w)
      | .ok () =>
        let taken := takeAll nodes.reverse w
        (.ok (taken.1, tasks.map (·.1)), taken.2)

def cullLocked (call : Call) (closing : Bool) : Finish (List Pie × List TaskId) :=
  fun f w tasks nodes =>
    withTasksChecked f w tasks (relationsMatch w tasks nodes)
      (some (cullRun call closing f w tasks nodes))

/-- A root without children and mappings is taken at once; `none` leaves it to `cull`. -/
def reap (f : Facts) (w : World) (t : TaskId) (token : Token) :
    Except PieFail (Option Pie) × World :=
  match w.locate t token with
  | none => (.ok none, w)
  | some pie =>
    if pie.sire.isSome || pie.heir.isSome then (.ok none, w)
    else if (w.edges t).any (·.parent = token) then (.ok none, w)
    else if pie.mail.isPole && !f.acquires pie.mail then (.error .busy, w)
    else if pie.mail.isPole && f.reserved pie.mail != 0 then (.error .busy, w)
    else if pie.mail.isPole && f.hasMaps pie.mail then (.ok none, w)
    else match (if pie.mail.isPole then f.beginWithdraw pie.mail else .ok ()), w.take t token with
      | .error e, _ => (.error e, w)
      | .ok (), none => (.error .denied, w)
      | .ok (), some (taken, w') => (.ok (some taken), w')

/-! ## Forgetting -/

/-- Give the children a new parent, one after the other; `none` where one is not held. -/
def reparent (lord : TaskId) (parent : Token) : List (TaskId × Token) → World → Option World
  | [], w => some w
  | (t, token) :: l, w =>
    if (w.locate t token).isNone then none
    else reparent lord parent l
      (((w.modifyPie t token fun q => q.parent parent lord).insertHeir
        lord parent t token).changed t)

/-- Whether the new parent may take the children over. -/
def replaceable (f : Facts) (w : World) (pie replacement : Pie) (children : List (TaskId × Token)) :
    Bool :=
  !f.alive pie.mail ||
    (replacement.alive f && children.all fun x =>
      (w.locate x.1 x.2).any fun child => replacement.permission.contains child.permission)

/-- What `forget` does under the locks: the pie it removes. -/
def forgetRun (call : Call) (f : Facts) (w : World) (nodes : List (TaskId × Token)) :
    Option (Except PieFail Pie × World) :=
  match w.locate call.task call.token with
  | none => some (.error .denied, w)
  | some pie =>
    if pie.permission.contains .only then some (.error .denied, w)
    else match w.origin pie with
      | none => some (.error .denied, w)
      | some (parent, lord) =>
        match w.locate lord parent with
        | none => some (.error .denied, w)
        | some replacement =>
          if !f.live lord || replacement.mail ≠ pie.mail then some (.error .denied, w)
          else if !replaceable f w pie replacement nodes.tail then some (.error .denied, w)
          else if !f.room 1 then some (.error .oom, w)
          else match (if pie.mail.isPole then f.retargetBranch pie.mail else .ok ()) with
            | .error e => some (.error e, w)
            | .ok () =>
              (reparent lord parent nodes.tail w).bind fun w' =>
                (w'.take call.task call.token).map fun x => (.ok x.1, x.2)

def forgetLocked (call : Call) : Finish Pie := fun f w tasks nodes =>
  withTasksChecked f w tasks false (forgetRun call f w nodes)

end Sqware.Ledger
