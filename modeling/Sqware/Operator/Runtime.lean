import Sqware.Operator.Operations

/-!
# Requests to the operator

A request comes in through an entrance; the grant behind the entrance must allow it.  What the
kernel answers while a request is handled is its `Host`.
-/

namespace Sqware.Operator

/-- What the kernel answers: about the tree, memory for the records of grants and of operations,
and how each of its calls ends.  A token a request brings along must be good for the caller; then
its owner and mark are known.  Whether a permit holds for the caller is asked elsewhere. -/
structure Host where
  kernel : Kernel
  room : Bool
  hole : Option PieToken
  ship : Option PieToken
  attach : Bool
  detach : PieToken → Bool
  shut : PieToken → Bool
  release : PieToken → Bool
  active : PieToken → Bool
  reserve : Bool
  imported : Option (Option (TaskId × Nat))
  letGo : Bool
  permitted : Permit → Bool

inductive Request
  | part (id : Nat) (anchor : Where) (name : Text)
  | bind (id : Nat) (anchor : Where) (name : Text) (resource : PieToken) (resourceId : Nat)
      (permit : Permit) (view : Nat)
  | replace (anchor : EntryId) (expected : Nat) (resource : PieToken) (resourceId : Nat)
      (permit : Permit) (view : Nat)
  | unpart (anchor : Where)
  | unbind (anchor : EntryId) (expected : Nat)
  | read (anchor : EntryId) (expected : Permit)
  | cancel (anchor : Where) (id : Nat)
  | grant (parent : Nat) (spec : GrantSpec)
  | inspect (anchor : Where) (id : Nat)
  | revoke (anchor : Where) (id : Nat)

inductive Answer
  | fail (fail : Fail)
  | part (entry : Entry) (created : Bool)
  | bind (binding : Binding) (created : Bool)
  | done
  | token (token : PieToken)
  | operation (state : OperationState)
  | grant (state : GrantState)
  deriving DecidableEq

def operationResponse : OperationResult → Answer
  | .part entry created => .part entry created
  | .bind binding created => .bind binding created
  | .failed fail => .fail fail

/-- The operator; `carried` says which operations were carried out, for no one to read. -/
structure OperatorState where
  tree : Tree
  authority : Authority
  ledger : Ledger
  carried : List (OperationRequest × OperationResult)

/-- Who asks, and through which entrance and grant. -/
structure Call where
  via : PieToken
  key : GrantKey
  id : Nat
  caller : TaskId

/-- The name below a base, as `authorize` spells it. -/
def named (base name : Text) : Text :=
  if name = [] then base else if base = [] then name else base ++ '/' :: name

/-- Does a grant allow an operation at a name below an entry? -/
def permits (t : Tree) (live : GrantKey → Bool) (spec : GrantSpec) (anchor : Entry) (op : Ops)
    (name : Text) : Bool :=
  spec.ops.contains op &&
    (t.relativeTo live spec.anchor anchor).any fun base =>
      !(op = Ops.UNPART && named base name = []) && spec.scope.allows (named base name)

namespace OperatorState

def new (system actor : TaskId) : OperatorState :=
  ⟨.new actor, .new system actor, .new, []⟩

variable (h : Host) (o : OperatorState)

def live : GrantKey → Bool := o.authority.live

def authorize (key : GrantKey) (caller : TaskId) (anchor : Entry) (op : Ops) (name : Text) : Bool :=
  (o.authority.byId key caller).any fun r => permits o.tree o.live r.spec anchor op name

def bootstrapRoot (caller : TaskId) (entrance : PieToken) :
    Except AuthorityError Unit × OperatorState :=
  let (r, a) := o.authority.bootstrapRoot h.room caller
    ⟨0, caller, ⟨o.tree.actor, .root⟩, .subtree, Ops.ALL, none, none, none⟩ entrance
  (r, { o with authority := a })

/-- `Operator::grant`: the authority's, with the way from anchor to anchor. -/
def issue (request : GrantSubmission) :
    Except AuthorityError (GrantState × GrantKey) × OperatorState :=
  match o.authority.grantAt request.via request.caller with
  | none => (.error .denied, o)
  | some parent =>
    if request.parent ≠ some parent.spec.id then (.error .denied, o)
    else
      match o.tree.relativeTo o.live parent.spec.anchor request.spec.anchor with
      | none => (.error .denied, o)
      | some relative =>
        let (r, a) := o.authority.grant h.room request relative
        (r, { o with authority := a })

/-! ## Operations -/

/-- Records the result of an operation. -/
def finish (request : OperationRequest) (result : OperationResult) : Answer × OperatorState :=
  match o.ledger.finishOperation request result with
  | (.error _, l) => (.fail .dead, { o with ledger := l })
  | (.ok (), l) => (operationResponse result, { o with ledger := l })

/-- The operation of a PART or BIND: what the tree does, unless it has been done. -/
def operate (request : OperationRequest)
    (act : Tree → (GrantKey → Bool) → OperationResult × Tree) : Answer × OperatorState :=
  match o.ledger.beginOperation h.room request with
  | (.error f, l) => (.fail f, { o with ledger := l })
  | (.ok (some result), l) => (operationResponse result, { o with ledger := l })
  | (.ok none, l) =>
    let (result, t) := act o.tree o.live
    finish { o with tree := t, ledger := l, carried := o.carried ++ [(request, result)] } request
      result

def partResult : Except Fail (Entry × Bool × Option Change) → OperationResult
  | .ok (entry, created, _) => .part entry created
  | .error f => .failed f

def bindResult : Except Fail (Binding × Option Change) → OperationResult
  | .ok (binding, change) => .bind binding change.isSome
  | .error f => .failed f

/-- What a PART does to the tree. -/
def partAct (c : Call) (anchor : Entry) (name : Text) (t : Tree) (live : GrantKey → Bool) :
    OperationResult × Tree :=
  let (r, t) := t.partEntry live h.kernel ⟨anchor, name, some c.key⟩
  (partResult r, t)

def part (c : Call) (id : Nat) (anchor : Entry) (name : Text) : Answer × OperatorState :=
  o.operate h ⟨⟨c.via, c.caller, id⟩, .part, anchor, name, 0, .pub, 0⟩ (partAct h c anchor name)

/-- Is the token good for the grant's restrictions? -/
def sourced (spec : GrantSpec) (permit : Permit) (owner : TaskId) (mark : Nat) : Bool :=
  spec.permit.all (permit = ·) && spec.source.all (· = owner) && spec.sourceMark.all (· = mark)

/-- The answer after the token that came along was let go of. -/
def settle (answer : Answer) : Answer := if h.letGo then answer else .fail .dead

-- the token is kept only if a tile was made of it
def keeps : Answer → Bool
  | .bind _ true => true
  | _ => false

/-- What a BIND does to the tree. -/
def bindAct (c : Call) (anchor : Entry) (name : Text) (resource : PieToken) (resourceId : Nat)
    (permit : Permit) (view : Nat) (t : Tree) (live : GrantKey → Bool) : OperationResult × Tree :=
  let (r, t) := t.bindAt live h.kernel
    ⟨anchor, name, resource, resourceId, permit, c.caller, c.key, view⟩
  (bindResult r, t)

def bind (c : Call) (id : Nat) (anchor : Entry) (name : Text) (resource : PieToken)
    (resourceId : Nat) (permit : Permit) (view : Nat) : Answer × OperatorState :=
  if h.reserve = false then (.fail .full, o)
  else if resourceId = 0 then (.fail .denied, o)
  else
    match h.imported, o.authority.byId c.key c.caller with
    | none, _ => (.fail .denied, o)
    | some _, none => (.fail .denied, o)
    | some none, some _ => (.fail .dead, o)
    | some (some (owner, mark)), some r =>
      if sourced r.spec permit owner mark = false then (.fail .denied, o)
      else
        let request : OperationRequest :=
          ⟨⟨c.via, c.caller, id⟩, .bind, anchor, name, resourceId, permit, view⟩
        let fresh := o.ledger.beginOperation h.room request
        let (answer, o) := o.operate h request
          (bindAct h c anchor name resource resourceId permit view)
        (if fresh.1 = .ok none ∧ keeps answer then answer else settle h answer, o)

/-! ## Revoking -/

/-- One after the other, until one fails. -/
def andThen (r : Except Fail Unit × OperatorState)
    (f : OperatorState → Except Fail Unit × OperatorState) : Except Fail Unit × OperatorState :=
  match r with
  | (.error e, o) => (.error e, o)
  | (.ok (), o) => f o

/-- A step of the clean-up of an entrance, unless it has been taken. -/
def stage (taken effect : Bool) (key : GrantKey) (step : Nat) : Except Fail Unit × OperatorState :=
  if taken then (.ok (), o)
  else if effect = false then (.error .dead, o)
  else
    match o.authority.cleanupStep key step with
    | (.error _, a) => (.error .dead, { o with authority := a })
    | (.ok (), a) => (.ok (), { o with authority := a })

def cleanupEntrance (key : GrantKey) : Option PieToken → Except Fail Unit × OperatorState
  | none => (.ok (), o)
  | some token =>
    match o.authority.cleanupProgress key with
    | none => (.error .dead, o)
    | some (attached, detached, shut, released) =>
      andThen (o.stage detached (!attached || h.detach token) key 0) fun o =>
        andThen (o.stage shut (h.shut token) key 1) fun o =>
          o.stage released (h.release token) key 2

def cleanupNodes (key : GrantKey) : Except Fail Unit × OperatorState :=
  match o.tree.cleanupAuthority h.kernel key with
  | (.error _, t) => (.error .dead, { o with tree := t })
  | (.ok (), t) => (.ok (), { o with tree := t })

def forget (via : PieToken) : OperatorState := { o with ledger := o.ledger.forgetOperations via }

def grantClosed (ref : GrantRef) : Except Fail Unit × OperatorState :=
  match o.authority.closed ref with
  | (.error _, a) => (.error .dead, { o with authority := a })
  | (.ok (), a) => (.ok (), { o with authority := a })

/-- One round of the loop of `revoke`. -/
def closeGrant (c : Authority.Closing) : Except Fail Unit × OperatorState :=
  andThen (o.cleanupEntrance h c.key c.entrance) fun o =>
    andThen (o.cleanupNodes h c.key) fun o => (o.forget c.ref.via).grantClosed c.ref

def closeAll : List Authority.Closing → OperatorState → Except Fail Unit × OperatorState
  | [], o => (.ok (), o)
  | c :: plan, o => andThen (o.closeGrant h c) (closeAll plan)

def entranceOf (ref : GrantRef) : Option PieToken := (o.authority.byRef ref).bind (·.entrance)

def grantActive (ref : GrantRef) : Bool := (o.entranceOf ref).any h.active

def grantState (ref : GrantRef) : Answer :=
  let state := o.authority.inspect ref
  if state = .granted ∧ ref.id ≠ 0 ∧ o.grantActive h ref = false then .fail .dead
  else .grant state

def revoke (c : Call) (id : Nat) : Answer × OperatorState :=
  let ref : GrantRef := ⟨c.via, c.caller, id⟩
  match o.authority.revoke h.room ref with
  | (.error _, a) => (.fail .denied, { o with authority := a })
  | (.ok .closed, a) =>
    (grantState h { o with authority := a } ref, { o with authority := a })
  | (.ok _, a) =>
    match a.revokePlan h.room ref with
    | (.error _, a) => (.fail .full, { o with authority := a })
    | (.ok plan, a) =>
      match closeAll h plan { o with authority := a } with
      | (.error f, o) => (.fail f, o)
      | (.ok (), o) => (o.grantState h ref, o)

/-! ## Granting -/

/-- A grant that got no entrance is taken back. -/
def abandon (ref : GrantRef) : OperatorState :=
  { o with authority := ((o.authority.revoke h.room ref).2.closed ref).2 }

/-- A grant that was not delivered is revoked. -/
def undo (c : Call) (id : Nat) : Answer × OperatorState := (.fail .denied, (o.revoke h c id).2)

def attachEntrance (key : GrantKey) : Except Fail Unit × OperatorState :=
  if (o.authority.cleanupProgress key).any (·.1) then (.ok (), o)
  else if h.attach = false then (.error .denied, o)
  else
    match o.authority.attached key with
    | (.error _, a) => (.error .denied, { o with authority := a })
    | (.ok (), a) => (.ok (), { o with authority := a })

def deliver (c : Call) (id : Nat) (key : GrantKey) : Answer × OperatorState :=
  match h.ship with
  | none => o.undo h c id
  | some remote =>
    match o.attachEntrance h key with
    | (.error _, o) => o.undo h c id
    | (.ok (), o) =>
      match o.authority.delivered ⟨c.via, c.caller, id⟩ remote with
      | (.error _, a) => undo h { o with authority := a } c id
      | (.ok (), a) => (.token remote, { o with authority := a })

/-- A pending grant gets its entrance and goes out to the holder. -/
def equip (c : Call) (id : Nat) (key : GrantKey) : Answer × OperatorState :=
  let ref : GrantRef := ⟨c.via, c.caller, id⟩
  match o.entranceOf ref with
  | some _ => o.deliver h c id key
  | none =>
    match h.hole with
    | none => (.fail .full, o.abandon h ref)
    | some token =>
      match o.authority.setEntrance ref token with
      | (.error _, a) => (.fail .denied, abandon h { o with authority := a } ref)
      | (.ok (), a) => deliver h { o with authority := a } c id key

def remoteOf (key : GrantKey) : Option PieToken :=
  (o.authority.records.find? fun r => r.key = key ∧ r.state = .granted).bind (·.remote)

/-- Does the grant stay inside the asker's own?  The authority asks once more. -/
def within (parent spec : GrantSpec) (relative : Text) : Bool :=
  parent.ops.contains Ops.GRANT && parent.ops.contains spec.ops &&
    (if spec.anchor = parent.anchor then parent.scope.narrows spec.scope
      else parent.scope.narrowsAt relative spec.scope) &&
    parent.permit.all (spec.permit = some ·) && parent.source.all (spec.source = some ·) &&
    parent.sourceMark.all (spec.sourceMark = some ·)

def grant (c : Call) (parent : Nat) (spec : GrantSpec) : Answer × OperatorState :=
  if parent ≠ c.id ∨ spec.ops.isValid = false then (.fail .denied, o)
  else
    match o.authority.byId c.key c.caller with
    | none => (.fail .denied, o)
    | some r =>
      match o.tree.relativeTo o.live r.spec.anchor spec.anchor with
      | none => (.fail .denied, o)
      | some relative =>
        if within r.spec spec relative = false then (.fail .denied, o)
        else
          match o.issue h ⟨c.caller, c.via, some c.id, spec⟩ with
          | (.error _, o) => (.fail .denied, o)
          | (.ok (.granted, key), o) =>
            let ref : GrantRef := ⟨c.via, c.caller, spec.id⟩
            if o.grantActive h ref = false then (.fail .dead, o)
            else
              match o.remoteOf key with
              | none => (.fail .dead, o)
              | some remote => (.token remote, o)
          | (.ok (.pending, key), o) => o.equip h c spec.id key
          | (.ok _, o) => (.fail .denied, o)

/-! ## Requests -/

/-- A target that is not there is unknown to who may remove. -/
def missing (c : Call) (op : Ops) (anchor : Entry) : Bool :=
  (o.authority.byId c.key c.caller).any (·.spec.ops.contains op) &&
    (o.tree.relativeTo o.live ⟨o.tree.actor, .root⟩ anchor).isNone

def guarded (c : Call) (anchor : Entry) (op : Ops) (name : Text)
    (act : Answer × OperatorState) : Answer × OperatorState :=
  if o.authorize c.key c.caller anchor op name then act else (.fail .denied, o)

def removal : Except Fail (Option Change) × Tree → Answer × OperatorState
  | (.error f, t) => (.fail f, { o with tree := t })
  | (.ok _, t) => (.done, { o with tree := t })

def replace (c : Call) (anchor : EntryId) (expected : Nat) (resource : PieToken) (resourceId : Nat)
    (permit : Permit) (view : Nat) : Answer × OperatorState :=
  if h.reserve = false then (.fail .full, o)
  else if resourceId = 0 then (settle h (.fail .denied), o)
  else
    match h.imported, o.authority.byId c.key c.caller with
    | none, _ => (settle h (.fail .denied), o)
    | some _, none => (settle h (.fail .denied), o)
    | some none, some _ => (settle h (.fail .dead), o)
    | some (some (owner, mark)), some r =>
      if sourced r.spec permit owner mark = false then (settle h (.fail .denied), o)
      else
        match o.tree.replaceBinding o.live h.kernel
            ⟨⟨⟨o.tree.actor, .node anchor⟩, expected⟩, resource,
              resourceId, permit, c.caller, c.key,
              view⟩ with
        | (.error f, t) => (settle h (.fail f), { o with tree := t })
        | (.ok (binding, change), t) =>
          -- nothing changed: the token that came along is not needed
          (if change.isSome then .bind binding true else settle h (.bind binding false),
            { o with tree := t })

def permitOf (id : EntryId) : Permit :=
  match (o.tree.slot id).map Slot.node with
  | some (.tile _ permit _) => permit
  | _ => .pub

def permitAllows (permit : Permit) : Bool := permit = .pub || h.permitted permit

def read (c : Call) (anchor : EntryId) (expected : Permit) : Answer × OperatorState :=
  match o.tree.binding o.live anchor with
  | .error _ => (.fail .unknown, o)
  | .ok _ =>
    let permit := o.permitOf anchor
    if o.authorize c.key c.caller ⟨o.tree.actor, .node anchor⟩ Ops.FIND [] = false ∨
        permit ≠ expected ∨ permitAllows h permit = false then (.fail .denied, o)
    else
      match o.tree.find o.live h.kernel anchor with
      | (.error f, t) => (.fail f, { o with tree := t })
      | (.ok _, t) =>
        match h.ship with
        | none => (.fail .dead, { o with tree := t })
        | some remote => (.token remote, { o with tree := t })

def cancel (c : Call) (id : Nat) : Answer × OperatorState :=
  match o.ledger.cancelOperation h.room ⟨c.via, c.caller, id⟩ with
  | (.error f, l) => (.fail f, { o with ledger := l })
  | (.ok state, l) => (.operation state, { o with ledger := l })

def execute (c : Call) : Request → Answer × OperatorState
  | .part id anchor name =>
    if id = 0 ∨ validName name = false then (.fail .denied, o)
    else o.guarded c ⟨o.tree.actor, anchor⟩ Ops.PART name
      (o.part h c id ⟨o.tree.actor, anchor⟩ name)
  | .bind id anchor name resource resourceId permit view =>
    if id = 0 ∨ validName name = false then (.fail .denied, o)
    else o.guarded c ⟨o.tree.actor, anchor⟩ Ops.BIND name
      (o.bind h c id ⟨o.tree.actor, anchor⟩ name resource resourceId permit view)
  | .replace anchor expected resource resourceId permit view =>
    o.guarded c ⟨o.tree.actor, .node anchor⟩ Ops.REPLACE []
      (o.replace h c anchor expected resource resourceId permit view)
  | .unpart anchor =>
    if o.missing c Ops.UNPART ⟨o.tree.actor, anchor⟩ then (.fail .unknown, o)
    else o.guarded c ⟨o.tree.actor, anchor⟩ Ops.UNPART []
      (o.removal (o.tree.unpart o.live h.kernel ⟨o.tree.actor, anchor⟩))
  | .unbind anchor expected =>
    if o.missing c Ops.UNBIND ⟨o.tree.actor, .node anchor⟩ then (.fail .unknown, o)
    else o.guarded c ⟨o.tree.actor, .node anchor⟩ Ops.UNBIND []
      (o.removal (o.tree.unbindBinding o.live h.kernel ⟨⟨o.tree.actor, .node anchor⟩, expected⟩))
  | .read anchor expected =>
    o.guarded c ⟨o.tree.actor, .node anchor⟩ Ops.FIND [] (o.read h c anchor expected)
  | .cancel anchor id =>
    if id = 0 then (.fail .denied, o)
    else o.guarded c ⟨o.tree.actor, anchor⟩ Ops.CANCEL [] (o.cancel h c id)
  | .grant parent spec => o.grant h c parent
      { spec with anchor := ⟨o.tree.actor, spec.anchor.target⟩ }
  | .inspect anchor id =>
    o.guarded c ⟨o.tree.actor, anchor⟩ Ops.INSPECT [] (o.grantState h ⟨c.via, c.caller, id⟩, o)
  | .revoke anchor id =>
    o.guarded c ⟨o.tree.actor, anchor⟩ Ops.REVOKE [] (o.revoke h c id)

/-- A request that came in through an entrance. -/
def handle (via : PieToken) (caller : TaskId) (request : Request) : Answer × OperatorState :=
  match o.authority.grantAt via caller with
  | none => (.fail .denied, o)
  | some r => o.execute h ⟨via, r.key, r.spec.id, caller⟩ request

end OperatorState

end Sqware.Operator
