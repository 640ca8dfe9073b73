import Mathlib.Data.BitVec
import Sqware.Lib.Keyed
import Sqware.Lib.Lists
import Sqware.Operator.Tree

/-!
# Grants

A grant lets a holder act through an entrance on what lies below an anchor, inside a scope.  It is
made by the holder of another grant through that one's entrance, and must not reach further.  The
records keep no order: one that is closed is replaced by the last.
-/

namespace Sqware.Operator

def LIMIT : Nat := 256

abbrev Ops : Type := BitVec 16

namespace Ops

def PART : Ops := 1 <<< 0
def UNPART : Ops := 1 <<< 1
def BIND : Ops := 1 <<< 2
def REPLACE : Ops := 1 <<< 3
def UNBIND : Ops := 1 <<< 4
def INSPECT : Ops := 1 <<< 5
def GRANT : Ops := 1 <<< 6
def REVOKE : Ops := 1 <<< 7
def FIND : Ops := 1 <<< 8
def CANCEL : Ops := 1 <<< 9
def ALL : Ops := (1 <<< 10) - 1

def contains (a b : Ops) : Bool := a &&& b = b

def isValid (a : Ops) : Bool := a &&& ~~~ALL = 0

theorem contains_trans {a b c : Ops} (h : a.contains b = true) (h' : b.contains c = true) :
    a.contains c = true := by
  simp only [contains, decide_eq_true_eq] at *
  calc a &&& c = a &&& (b &&& c) := by rw [h']
    _ = (a &&& b) &&& c := by rw [BitVec.and_assoc]
    _ = c := by rw [h, h']

end Ops

structure GrantSpec where
  id : Nat
  holder : TaskId
  anchor : Entry
  scope : Scope
  ops : Ops
  permit : Option Permit
  source : Option TaskId
  sourceMark : Option Nat
  deriving DecidableEq

inductive GrantState
  | unseen | pending | granted | revoking | closed
  deriving DecidableEq, Repr

inductive AuthorityError
  | denied | conflict | stale | full | unknown
  deriving DecidableEq, Repr

/-- How a grant is named by its issuer. -/
structure GrantRef where
  via : PieToken
  caller : TaskId
  id : Nat
  deriving DecidableEq, Repr

structure Record where
  key : GrantKey
  issuer : TaskId
  via : PieToken
  parent : Option GrantKey
  spec : GrantSpec
  state : GrantState
  entrance : Option PieToken
  remote : Option PieToken
  attached : Bool
  detached : Bool
  shut : Bool
  released : Bool
  deriving DecidableEq

def Record.ref (r : Record) : GrantRef := ⟨r.via, r.issuer, r.spec.id⟩

structure Watermark where
  via : PieToken
  caller : TaskId
  highWater : Nat
  deriving DecidableEq, Repr

structure Authority where
  root : TaskId
  operator : TaskId
  records : List Record
  watermarks : List Watermark
  nextKey : Nat
  deriving DecidableEq

structure GrantSubmission where
  caller : TaskId
  via : PieToken
  parent : Option Nat
  spec : GrantSpec

def grantScopeNarrows (parent child : GrantSpec) (relative : Text) : Bool :=
  if relative = [] then parent.anchor = child.anchor ∧ parent.scope.narrows child.scope
  else parent.scope.narrowsAt relative child.scope

namespace Authority

def new (root operator : TaskId) : Authority := ⟨root, operator, [], [], 1⟩

variable (a : Authority)

def byKey (key : GrantKey) : Option Record := Keyed.get Record.key a.records key

def byRef (key : GrantRef) : Option Record := Keyed.get Record.ref a.records key

def updateRef (key : GrantRef) (f : Record → Record) : Authority :=
  { a with records := Keyed.update Record.ref key f a.records }

def updateKey (key : GrantKey) (f : Record → Record) : Authority :=
  { a with records := Keyed.update Record.key key f a.records }

/-! ## Asking -/

/-- The way up of `ancestors_live`, with so many rounds left. -/
def ancestorsLoop : Nat → Option GrantKey → Bool
  | _, none => true
  | 0, some _ => false
  | n + 1, some parent =>
    match a.records.find? fun r => r.key = parent ∧ r.state = .granted with
    | none => false
    | some r => ancestorsLoop n r.parent

def ancestorsLive (key : GrantKey) : Bool :=
  a.ancestorsLoop a.records.length ((a.byKey key).bind (·.parent))

def live (key : GrantKey) : Bool :=
  (a.records.any fun r => r.key = key ∧ r.state = .granted) && a.ancestorsLive key

/-- The record behind an entrance that is held by the caller. -/
def heldAt (entrance : PieToken) (caller : TaskId) : Option Record :=
  a.records.find? fun r => r.entrance = some entrance ∧ r.spec.holder = caller ∧ r.state = .granted

def grantAt (entrance : PieToken) (caller : TaskId) : Option Record :=
  (a.heldAt entrance caller).filter fun r => a.ancestorsLive r.key

def byId (key : GrantKey) (caller : TaskId) : Option Record :=
  (a.records.find? fun r => r.key = key ∧ r.state = .granted ∧ r.spec.holder = caller).filter
    fun _ => a.ancestorsLive key

def mark (via : PieToken) (caller : TaskId) : Option Nat :=
  (a.watermarks.find? fun w => w.via = via ∧ w.caller = caller).map (·.highWater)

def inspect (key : GrantRef) : GrantState :=
  match a.byRef key with
  | some r => r.state
  | none => if key.id ≤ (a.mark key.via key.caller).getD 0 then .closed else .unseen

/-! ## Granting -/

def raise (via : PieToken) (caller : TaskId) (high : Nat) : List Watermark → List Watermark
  | [] => [⟨via, caller, high⟩]
  | w :: l =>
    if w.via = via ∧ w.caller = caller then { w with highWater := high } :: l
    else w :: raise via caller high l

def bootstrapRoot (room : Bool) (system : TaskId) (spec : GrantSpec) (entrance : PieToken) :
    Except AuthorityError Unit × Authority :=
  if system ≠ a.root ∨ spec.id ≠ 0 ∨ spec.holder ≠ system ∨ spec.anchor.operator ≠ a.operator ∨
      spec.anchor.target ≠ .root ∨ spec.ops ≠ Ops.ALL ∨ spec.scope ≠ .subtree ∨
      spec.permit.isSome ∨ spec.source.isSome ∨ spec.sourceMark.isSome then (.error .denied, a)
  else
    match a.records.find? (·.spec.id = 0) with
    | some old =>
      if old.issuer = system ∧ old.spec = spec ∧ old.entrance = some entrance then (.ok (), a)
      else (.error .conflict, a)
    | none =>
      if a.records ≠ [] then (.error .conflict, a)
      else if room = false then (.error .full, a)
      else
        (.ok (), { a with
          records := a.records ++ [⟨0, system, entrance, none, spec, .granted, some entrance, none,
            false, false, false, false⟩] })

/-- Does a grant of the parent's stay inside it? -/
def fits (parent spec : GrantSpec) (relative : Text) : Bool :=
  parent.ops.contains Ops.GRANT ∧ parent.anchor.operator = spec.anchor.operator ∧
    (parent.permit.all fun p => spec.permit = some p) ∧
    (parent.source.all fun s => spec.source = some s) ∧
    (parent.sourceMark.all fun m => spec.sourceMark = some m) ∧
    parent.ops.contains spec.ops ∧ grantScopeNarrows parent spec relative

/-- The record of a new grant; the watermark is raised before the key is drawn. -/
def issue (request : GrantSubmission) (parent : GrantKey) :
    Except AuthorityError (GrantState × GrantKey) × Authority :=
  let a := { a with watermarks := raise request.via request.caller request.spec.id a.watermarks }
  match checkedAdd a.nextKey 1 with
  | none => (.error .full, a)
  | some next =>
    (.ok (.pending, a.nextKey), { a with
      nextKey := next
      records := a.records ++ [⟨a.nextKey, request.caller, request.via, some parent, request.spec,
        .pending, none, none, false, false, false, false⟩] })

def grant (room : Bool) (request : GrantSubmission) (relative : Text) :
    Except AuthorityError (GrantState × GrantKey) × Authority :=
  match a.heldAt request.via request.caller with
  | none => (.error .denied, a)
  | some parent =>
    if request.parent ≠ some parent.spec.id ∨ a.ancestorsLive parent.key = false then
      (.error .denied, a)
    else
      match a.byRef ⟨request.via, request.caller, request.spec.id⟩ with
      | some old =>
        if old.spec = request.spec ∧ old.parent = some parent.key then (.ok (old.state, old.key), a)
        else (.error .conflict, a)
      | none =>
        if (a.mark request.via request.caller).any (request.spec.id ≤ ·) then (.error .stale, a)
        else if LIMIT ≤ a.records.length then (.error .full, a)
        else if request.spec.ops.isValid = false ∨ request.spec.holder = a.root ∨
            request.spec.anchor.target = .root then (.error .denied, a)
        else if fits parent.spec request.spec relative = false then (.error .denied, a)
        else if room = false then (.error .full, a)
        else if (a.mark request.via request.caller).isNone ∧ LIMIT ≤ a.watermarks.length then
          (.error .full, a)
        else a.issue request parent.key

def setEntrance (key : GrantRef) (entrance : PieToken) : Except AuthorityError Unit × Authority :=
  match a.byRef key with
  | none => (.error .unknown, a)
  | some r =>
    if r.state ≠ .pending then (.error .denied, a)
    else if r.entrance.any (· ≠ entrance) then (.error .conflict, a)
    else (.ok (), a.updateRef key fun r => { r with entrance := some entrance })

def attached (key : GrantKey) : Except AuthorityError Unit × Authority :=
  match a.byKey key with
  | none => (.error .unknown, a)
  | some r =>
    if r.state ≠ .pending ∨ r.entrance.isNone then (.error .denied, a)
    else (.ok (), a.updateKey key fun r => { r with attached := true })

def delivered (key : GrantRef) (remote : PieToken) : Except AuthorityError Unit × Authority :=
  match a.byRef key with
  | none => (.error .unknown, a)
  | some r =>
    if r.state = .granted then
      (if r.remote = some remote then .ok () else .error .conflict, a)
    else if r.state ≠ .pending then (.error .denied, a)
    else (.ok (), a.updateRef key fun r => { r with remote := some remote, state := .granted })

/-! ## Revoking -/

def revoke (room : Bool) (key : GrantRef) : Except AuthorityError GrantState × Authority :=
  match a.byRef key with
  | some r =>
    if r.key = 0 then (.error .denied, a)
    else if r.state = .closed then (.ok .closed, a)
    else (.ok .revoking, a.updateRef key fun r => { r with state := .revoking })
  | none =>
    if (a.mark key.via key.caller).any (key.id ≤ ·) then (.ok .closed, a)
    else if (a.mark key.via key.caller).isNone ∧
        (LIMIT ≤ a.watermarks.length ∨ room = false) then (.error .full, a)
    else
      (.ok .closed, { a with watermarks := raise key.via key.caller key.id a.watermarks })

/-- The way up of `revoke_plan`, with so many rounds left. -/
def descendsLoop (root : GrantKey) : Nat → Option GrantKey → Bool
  | _, none => false
  | 0, some _ => false
  | n + 1, some current =>
    if current = root then true else descendsLoop root n ((a.byKey current).bind (·.parent))

def descends (root : GrantKey) (r : Record) : Bool :=
  r.key = root || a.descendsLoop root a.records.length r.parent

/-- One grant to close. -/
structure Closing where
  key : GrantKey
  ref : GrantRef
  entrance : Option PieToken
  deriving DecidableEq

def revokePlan (room : Bool) (key : GrantRef) :
    Except AuthorityError (List Closing) × Authority :=
  match a.byRef key with
  | none => (.ok [], a)
  | some root =>
    if room = false then (.error .full, a)
    else
      let plan := (a.records.filter fun r => a.descends root.key r ∧ r.state ≠ .closed).map
        fun r => Closing.mk r.key r.ref r.entrance
      (.ok plan.reverse, { a with
        records := a.records.map fun r =>
          if plan.any (·.ref = r.ref) then { r with state := .revoking } else r })

def closed (key : GrantRef) : Except AuthorityError Unit × Authority :=
  match a.records.findIdx? (·.ref = key), a.byRef key with
  | some i, some r =>
    if r.state ≠ .revoking ∧ r.state ≠ .closed then (.error .denied, a)
    else if a.records.any fun c => c.parent = some r.key ∧
      c.state ≠ .closed then (.error .denied, a)
    else
      (.ok (), { a with
        records := Lists.swapRemove a.records i
        watermarks :=
          match r.entrance with
          | none => a.watermarks
          | some entrance => a.watermarks.filter (·.via ≠ entrance) })
  | _, _ => (.error .unknown, a)

/-- `attached`, `detached`, `sealed` and `released`. -/
def cleanupProgress (key : GrantKey) : Option (Bool × Bool × Bool × Bool) :=
  (a.byKey key).map fun r => (r.attached, r.detached, r.shut, r.released)

def cleanupStep (key : GrantKey) (step : Nat) : Except AuthorityError Unit × Authority :=
  match a.byKey key with
  | none => (.error .unknown, a)
  | some r =>
    if r.state ≠ .revoking then (.error .denied, a)
    else
      match step with
      | 0 => (.ok (), a.updateKey key fun r => { r with detached := true })
      | 1 =>
        if r.detached then (.ok (), a.updateKey key fun r => { r with shut := true })
        else (.error .denied, a)
      | 2 =>
        if r.shut then (.ok (), a.updateKey key fun r => { r with released := true })
        else (.error .denied, a)
      | _ => (.error .denied, a)

end Authority

end Sqware.Operator
