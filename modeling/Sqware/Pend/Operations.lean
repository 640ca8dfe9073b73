import Sqware.Pend.Ledger

/-!
# The operations on ledgers

An operation runs under the `pend` locks of the tasks it touches and the commit lock, so each
function here is one locked section.  `cull` and `forget`, which first walk the edges, are in
`Sqware.Pend.Walk`.
-/

namespace Sqware.Ledger

/-! ## What a section reads outside the ledgers -/

/-- `room n` is whether the `n`-th allocation of the section succeeds; the other fields are the
answers of the tasks and resources a section asks. -/
structure Facts where
  room : Nat → Bool := fun _ => true
  live : TaskId → Bool := fun _ => true
  alive : Mail → Bool := fun _ => true
  acquires : Mail → Bool := fun _ => true
  reserved : Mail → Nat := fun _ => 0
  hasCells : Mail → Bool := fun _ => false
  hasMaps : Mail → Bool := fun _ => false
  newGrant : Mail → Except PieFail Unit := fun _ => .ok ()
  checkPublish : Mail → Window → Except PieFail Unit := fun _ _ => .ok ()
  beginWithdraw : Mail → Except PieFail Unit := fun _ => .ok ()
  retargetBranch : Mail → Except PieFail Unit := fun _ => .ok ()
  construction : Nat → Except PieFail Unit := fun _ => .ok ()
  narrow : Mail → Except PieFail Unit := fun _ => .ok ()

def Pie.alive (f : Facts) (pie : Pie) : Bool := f.alive pie.mail && !pie.permission.isEmpty

/-- `Pie::narrow`. -/
def Pie.narrow (f : Facts) (pie : Pie) (subset : Permission) : Except PieFail Pie :=
  if !pie.alive f then .error .dead
  else if !narrows pie.permission subset then .error .denied
  else (pie.grant.narrow subset).map fun g => { pie with grant := g }

/-! ## Building and recording pies -/

/-- `Pie::try_new_window`; the answer is `none` where the identities are exhausted, and an identity
is used up also where the grant cannot be registered. -/
def tryNewWindow (f : Facts) (w : World) (mail : Mail) (mark : Mark) (permission : Permission)
    (sire : Option Token) (window : Option Window) : Option (Except PieFail Pie × World) :=
  (checkedAdd w.nextToken 1).map fun next =>
    ((f.newGrant mail).map fun _ =>
      ⟨w.nextToken, ⟨permission, window⟩, mark, sire, none, none, mail⟩,
      { w with nextToken := next })

def insert (f : Facts) (w : World) (t : TaskId) (pie : Pie) : Except PieFail Unit × World :=
  if !f.live t then (.error .dead, w)
  else if !f.room 0 then (.error .oom, w)
  else (.ok (), (w.push t pie).changed t)

/-! ## Publishing -/

def effectiveWindow (pie : Pie) (requested : Option Window) : Except PieFail (Option Window) :=
  match requested, pie.mail.source with
  | none, _ => .ok pie.grant.window
  | some _, none => .error .denied
  | some inner, some source =>
    let outer := pie.grant.window.getD source
    match checkedAdd outer.offset outer.count, checkedAdd inner.offset inner.count with
    | some outerEnd, some innerEnd =>
      if outer.offset ≤ inner.offset ∧ innerEnd ≤ outerEnd then .ok (some inner)
      else .error .denied
    | _, _ => .error .denied

/-- The checks of `publish` on the source pie, with the window of the new one. -/
def publishable (f : Facts) (pie : Pie) (subset : Permission) (requested : Option Window) :
    Except PieFail (Option Window) :=
  if pie.mail.isPole && !f.acquires pie.mail then .error .busy
  else if pie.mail.isPole && f.reserved pie.mail != 0 then .error .handedOver
  else if !pie.alive f then .error .dead
  else if !pie.allows .vest || !narrows pie.permission subset then .error .denied
  else if pie.heir.isSome then .error .handedOver
  else if pie.mail.isTole && f.hasCells pie.mail then .error .denied
  else match effectiveWindow pie requested with
    | .error e => .error e
    | .ok window =>
      match pie.mail.source with
      | none => .ok window
      | some source => (f.checkPublish pie.mail (window.getD source)).map fun _ => window

/-- The writes of `publish`. -/
def World.vest (w : World) (caller : TaskId) (pie : Pie) (dst : TaskId) (granted : Pie) : World :=
  let w₁ := w.insertHeir caller pie.token dst granted.token
  let w₂ := if pie.permission.contains .only then
      w₁.modifyPie caller pie.token fun q => q.setHeir (some ⟨dst, granted.token⟩)
    else w₁
  let w₃ := (w₂.push dst granted).changed caller
  if caller = dst then w₃ else w₃.changed dst

def publish (f : Facts) (w : World) (caller : TaskId) (src : Token) (dst : TaskId)
    (subset : Permission) (mark : Mark) (requested : Option Window) :
    Option (Except PieFail Token × World) :=
  if !w.upgrade dst then some (.error .denied, w)
  else if !f.live caller || !f.live dst then some (.error .dead, w)
  else match w.locate caller src with
    | none => some (.error .denied, w)
    | some pie =>
      match publishable f pie subset requested with
      | .error e => some (.error e, w)
      | .ok window =>
        let mark := if mark = Mark.none then pie.mark else mark
        (tryNewWindow f w pie.mail mark subset (some pie.token) window).map fun
          | (.error e, w) => (.error e, w)
          | (.ok granted, w) =>
            if !f.room 0 || !f.room 1 then (.error .oom, w)
            else (.ok granted.token, w.vest caller pie dst (granted.parent src caller))

def accord (f : Facts) (w : World) (caller : TaskId) (src : Token) (dst : TaskId)
    (subset : Permission) (mark : Mark) : Option (Except PieFail Token × World) :=
  publish f w caller src dst subset mark none

def derive (f : Facts) (w : World) (caller : TaskId) (src : Token) (subset : Permission)
    (mark : Mark) (window : Option Window) : Option (Except PieFail Token × World) :=
  publish f w caller src caller subset mark window

def clearHeir (w : World) (t : TaskId) (token : Token) (expected : Heir) : Bool × World :=
  let edge := (w.pends t).bind fun p =>
    p.heirs.find? fun e => e.parent = token ∧ e.token = expected.token
  -- the edge's child still holds the pie: `locate` finds nothing where the child is gone
  if edge.any fun e => (w.locate e.task expected.token).isSome then (false, w)
  else match w.clearHeirLocked t token expected with
    | (true, w') => (true, w'.removeHeir t token expected.token)
    | (false, w') => (false, w')

/-! ## Narrowing -/

def reduce (f : Facts) (w : World) (t : TaskId) (token : Token) (subset : Permission) :
    Except PieFail Unit × World :=
  match w.locate t token with
  | none => (.error .denied, w)
  | some pie =>
    if !pie.alive f then (.error .dead, w)
    else if !narrows pie.permission subset then (.error .denied, w)
    else
      let ready : Except PieFail Unit :=
        if !pie.mail.isPole then .ok ()
        else if !subset.contains .fetch then .error .denied
        else if !f.acquires pie.mail then .error .busy
        else match
            (if f.reserved pie.mail = 0 then .ok () else f.construction (f.reserved pie.mail)) with
          | .error e => .error e
          | .ok () => f.narrow pie.mail
      match ready, pie.narrow f subset with
      | .error e, _ => (.error e, w)
      | .ok (), .error e => (.error e, w)
      | .ok (), .ok narrowed => (.ok (), (w.modifyPie t token fun _ => narrowed).changed t)

end Sqware.Ledger
