import Sqware.Operator.Authority

/-!
# Operations

Requests that make something carry a number.  For each number there is a record with the request
and its result, up to so many; the oldest that is finished makes place.  What was forgotten is
remembered by a watermark for each entrance and caller.
-/

namespace Sqware.Operator

def OPERATIONS : Nat := 256

inductive OpCode
  | part | bind
  deriving DecidableEq, Repr

/-- How an operation is named by its caller. -/
structure OperationRef where
  via : PieToken
  caller : TaskId
  id : Nat
  deriving DecidableEq, Repr

structure OperationRequest where
  ref : OperationRef
  op : OpCode
  anchor : Entry
  name : Text
  resourceId : Nat
  permit : Permit
  view : Nat
  deriving DecidableEq

inductive OperationResult
  | part (entry : Entry) (created : Bool)
  | bind (binding : Binding) (created : Bool)
  | failed (fail : Fail)
  deriving DecidableEq, Repr

inductive OperationState
  | unseen | pending | applied | closed | failed
  deriving DecidableEq, Repr

structure OperationRecord where
  ref : OperationRef
  request : Option OperationRequest
  result : Option OperationResult
  closed : Bool
  deriving DecidableEq

def OperationRecord.finished (r : OperationRecord) : Bool := r.closed || r.result.isSome

structure Ledger where
  operations : List OperationRecord
  watermarks : List Watermark
  deriving DecidableEq

namespace Ledger

def new : Ledger := ⟨[], []⟩

variable (l : Ledger)

def record (ref : OperationRef) : Option OperationRecord :=
  Keyed.get OperationRecord.ref l.operations ref

def mark (via : PieToken) (caller : TaskId) : Option Nat :=
  (l.watermarks.find? fun w => w.via = via ∧ w.caller = caller).map (·.highWater)

/-- The records with place for one more; none if all are at work or there is no memory. -/
def vacate (room : Bool) : Option (List OperationRecord) :=
  if OPERATIONS ≤ l.operations.length then
    (l.operations.findIdx? OperationRecord.finished).map l.operations.eraseIdx
  else if room then some l.operations else none

/-- A new record and a watermark that covers it. -/
def enter (room : Bool) (record : OperationRecord) (high : Nat) : Option Ledger :=
  match l.vacate room with
  | none => none
  | some operations =>
    if (l.mark record.ref.via record.ref.caller).isNone ∧
        (OPERATIONS ≤ l.watermarks.length ∨ room = false) then none
    else some
      ⟨operations ++ [record],
        Authority.raise record.ref.via record.ref.caller high l.watermarks⟩

/-- The result of an operation that was carried out, or nothing if it is to be now. -/
def beginOperation (room : Bool) (request : OperationRequest) :
    Except Fail (Option OperationResult) × Ledger :=
  if request.ref.id = 0 then (.error .denied, l)
  else
    match l.record request.ref with
    | some r =>
      if r.closed = false ∧ r.request = some request then (.ok r.result, l)
      else (.error .denied, l)
    | none =>
      if (l.mark request.ref.via request.ref.caller).any (request.ref.id ≤ ·) then
        (.error .denied, l)
      else
        match l.enter room ⟨request.ref, some request, none, false⟩ request.ref.id with
        | none => (.error .full, l)
        | some l => (.ok none, l)

def finishOperation (request : OperationRequest) (result : OperationResult) :
    Except Fail Unit × Ledger :=
  match Keyed.get OperationRecord.request l.operations (some request) with
  | none => (.error .unknown, l)
  | some _ =>
    (.ok (), { l with
      operations := Keyed.update OperationRecord.request (some request)
        (fun r => { r with result := some result }) l.operations })

def operationState (ref : OperationRef) : OperationState :=
  match l.record ref with
  | some r =>
    if r.closed then .closed
    else
      match r.result with
      | some (.failed _) => .failed
      | some _ => .applied
      | none => .pending
  | none => if ref.id ≤ (l.mark ref.via ref.caller).getD 0 then .closed else .unseen

def forgetOperations (via : PieToken) : Ledger :=
  ⟨l.operations.filter (·.ref.via ≠ via), l.watermarks.filter (·.via ≠ via)⟩

def cancelOperation (room : Bool) (ref : OperationRef) : Except Fail OperationState × Ledger :=
  match l.operationState ref with
  | .pending => (.error .dead, l)
  | .unseen =>
    match l.enter room ⟨ref, none, none, true⟩
      (max ((l.mark ref.via ref.caller).getD 0) ref.id) with
    | none => (.error .full, l)
    | some l => (.ok .closed, l)
  | state => (.ok state, l)

end Ledger

end Sqware.Operator
