import Sqware.Pend.Ledger

/-!
# Source authorizations

One record stands for a source of pages and for everything that uses it: the branches (pies) of its
Pole, the mappings bound to it, references that retain a part of it, publications in flight, and
the parts that were split off as resources of their own.  Such a part is a slot here (`Derivation`)
and a record of its own, which names its parent and the slot's geometry (`lineage`).

A slot goes when its child is finished.  `reapDerivations` looks for such children from the
parent; `settle` starts at a child that may just have finished and goes up its lineage.

Every section below holds the commit lock, but for `enterPublish`.  That one asks for a live
authority under the gate of the record, and authority only ends in sections that hold the lock, so
the two readings of `finished` see one state.

`window` is the window of each pie's Grant, which never changes; `none` is the whole source.
-/

namespace Sqware.Source

open Ledger (Token TaskId PieFail Permission Window)

abbrev RecordId := Nat

/-! ## Records -/

/-- An `Arc<Geometry>`: a page window and the identity of the allocation. -/
structure Geometry where
  id : Nat
  window : Window
deriving DecidableEq

/-- Sums saturate, so windows that overflow count as overlapping. -/
def Geometry.overlaps (g : Geometry) (other : Window) : Bool :=
  let stop := saturatingAdd g.window.offset g.window.count
  let otherStop := saturatingAdd other.offset other.count
  g.window.offset < otherStop && other.offset < stop

/-- A part that was split off. -/
structure Derivation where
  token : Token
  geometry : Geometry
  child : RecordId
deriving DecidableEq

/-- A branch of the Pole; an empty permission is an invalidated Grant. -/
structure Authority where
  token : Token
  permission : Permission
deriving DecidableEq

/-- `Private`, or the Pole took the source over under a token. -/
inductive Phase
  | priv
  | root (token : Token)
deriving DecidableEq

/-- The Pole of a source: it answers, it was sealed, or nobody holds it any more. -/
inductive Pole
  | live | sealed | gone
deriving DecidableEq

/-- `inflight` has the keys of publications that are under way, those of transfers with the window
they hold. -/
structure Authorization where
  pages : Nat
  pos : 0 < pages
  bound : pages < usizeSize
  phase : Phase := .priv
  pole : Pole := .live
  authorities : List Authority := []
  revoked : Bool := false
  inflight : List (Nat × Option Geometry) := []
  bindings : List Nat := []
  derivations : List Derivation := []
  retentions : List (Geometry × TaskId) := []
  lineage : Option (RecordId × Geometry) := none

def privatePermission : Permission := ⟨7#32⟩

/-- Whether a permission covers an access. -/
def covers (p : Permission) (write : Bool) : Bool :=
  p.contains .fetch && (!write || p.contains .store)

namespace Authorization

variable (r : Authorization)

def whole : Window := ⟨0, r.pages, r.pos⟩

/-- The permission of a branch's Grant. -/
def grant (token : Token) : Option Permission :=
  (Keyed.get Authority.token r.authorities token).bind fun a =>
    if a.permission.isEmpty then none else some a.permission

def permissionUngated : Option Permission :=
  match r.phase with
  | .priv => some privatePermission
  | .root token => r.grant token

def branchPermits (branch : Option Token) (write : Bool) : Bool :=
  let alive := match r.phase with
    | .priv => true
    | .root _ => r.pole = .live
  let permission := match branch with
    | some token => r.grant token
    | none => r.permissionUngated
  alive && permission.any (covers · write)

/-- `PoleMeta::authorizing`, and the private phase. -/
def holdsAuthority : Bool :=
  match r.phase with
  | .priv => true
  | .root _ => r.pole = .live && r.authorities.any fun a => !a.permission.isEmpty

def finished : Bool :=
  r.bindings.isEmpty && r.derivations.isEmpty && r.retentions.isEmpty && r.inflight.isEmpty &&
    !r.holdsAuthority

/-- Some slot overlaps. -/
def used (window : Window) : Bool := r.derivations.any fun x => x.geometry.overlaps window

/-- A retention other than `own`, or a window in flight, overlaps. -/
def claimed (window : Window) (own : Option Nat) : Bool :=
  (r.retentions.any fun x => own ≠ some x.1.id && x.1.overlaps window) ||
    r.inflight.any fun x => x.2.any (·.overlaps window)

end Authorization

/-- The records there are, and the counters of record and geometry identities. -/
structure World where
  records : RecordId → Option Authorization := fun _ => none
  nextRecord : RecordId := 0
  nextGeometry : Nat := 0

namespace World

variable (w : World)

def modify (i : RecordId) (f : Authorization → Authorization) : World :=
  { w with records := fun j => if j = i then (w.records j).map f else w.records j }

/-! ## Slots that end -/

/-- A child that cannot be reached any more is not known to be done. -/
def derivationDone (x : Derivation) : Bool := (w.records x.child).any (·.finished)

def reapDerivations (i : RecordId) : World :=
  w.modify i fun r => { r with derivations := r.derivations.filter fun x => !w.derivationDone x }

def releaseDerivation (i : RecordId) (g : Geometry) : World :=
  w.modify i fun r => { r with derivations := r.derivations.filter fun x => x.geometry.id ≠ g.id }

/-- The loop of `settle`, with a bound on the generations it goes up. -/
def settleLoop : Nat → World → RecordId → World
  | 0, w, _ => w
  | n + 1, w, i =>
    match w.records i with
    | none => w
    | some r =>
      if !r.finished then w
      else match r.lineage with
        | none => w
        | some (parent, geometry) => settleLoop n (w.releaseDerivation parent geometry) parent

/-- A parent is older than its child, so there are no more generations than records. -/
def settle (i : RecordId) : World := settleLoop (i + 1) w i

/-! ## Admission -/

def checkUse (i : RecordId) (window : Window) : Except PieFail Unit × World :=
  let w' := w.reapDerivations i
  (if (w'.records i).any (·.used window) then .error .busy else .ok (), w')

def checkPublish (i : RecordId) (window : Window) (own : Option Nat) :
    Except PieFail Unit × World :=
  match w.checkUse i window with
  | (.error e, w') => (.error e, w')
  | (.ok (), w') =>
    (if (w'.records i).any (·.claimed window own) then .error .busy else .ok (), w')

/-! ## Registration -/

def enterFlight (room : Bool) (i : RecordId) (key : Nat) (window : Option Geometry)
    (branch : Option Token) (write : Bool) : Except PieFail Unit × World :=
  if (w.records i).any fun r => !r.revoked && r.branchPermits branch write then
    if !room then (.error .oom, w)
    else (.ok (), w.modify i fun r => { r with inflight := r.inflight ++ [(key, window)] })
  else (.error .denied, w)

/-- Settle a record where what was taken from it left `empty`. -/
def settleIf (i : RecordId) (empty : Authorization → Bool) : World :=
  if (w.records i).any empty then w.settle i else w

def leavePublish (i : RecordId) (key : Nat) : World :=
  (w.modify i fun r => { r with inflight := r.inflight.filter (·.1 ≠ key) }).settleIf i
    (·.inflight.isEmpty)

def registerBinding (i : RecordId) (b : Nat) : World :=
  w.modify i fun r => { r with bindings := r.bindings ++ [b] }

def releaseBinding (i : RecordId) (b : Nat) : World :=
  (w.modify i fun r => { r with bindings := r.bindings.filter (· ≠ b) }).settleIf i
    (·.bindings.isEmpty)

/-- A retention under a new geometry. -/
def registerRetention (i : RecordId) (window : Window) (holder : TaskId) : World :=
  { w.modify i fun r =>
      { r with retentions := r.retentions ++ [(⟨w.nextGeometry, window⟩, holder)] }
    with nextGeometry := w.nextGeometry + 1 }

def releaseRetention (i : RecordId) (id : Nat) : World :=
  (w.modify i fun r => { r with retentions := r.retentions.filter (·.1.id ≠ id) }).settle i

def registerGrant (i : RecordId) (token : Token) (permission : Permission) : World :=
  w.modify i fun r => { r with authorities := r.authorities ++ [⟨token, permission⟩] }

def releaseGrant (i : RecordId) (token : Token) : World :=
  (w.modify i fun r => { r with authorities := r.authorities.filter (·.token ≠ token) }).settleIf i
    (·.authorities.isEmpty)

/-- The Grant of a branch gets another permission; the empty one invalidates it. -/
def setGrant (i : RecordId) (token : Token) (permission : Permission) : World :=
  w.modify i fun r => { r with
    authorities := Keyed.update Authority.token token
      (fun a => { a with permission }) r.authorities }

end World

/-! ## Sections -/

/-- `room n` is whether the `n`-th allocation of the section succeeds, `live` whether the task is;
the other fields are the answers of the ledgers, the address space and the pages it asks. -/
structure Facts where
  live : Bool := true
  room : Nat → Bool := fun _ => true
  refuses : Option PieFail := none
  reusable : Bool := false
  placed : Bool := true
  settled : Bool := true
  resides : Option PieFail := none

/-- The checks of `derive_pole` ahead of its section: `seen` is the permission of the branch as it
was read then, `ranged` whether the Pole was still there.  The answer is the child's permission. -/
def derivable (window : Token → Option Window) (r : Authorization) (branch : Token)
    (seen : Option Permission) (ranged retains shared : Bool) (request : Window) :
    Except PieFail Permission :=
  match seen with
  | none => .error .dead
  | some permission =>
    if !permission.contains ⟨Permission.fetch.bits ||| Permission.vest.bits⟩ then .error .denied
    else if retains then .error .denied
    else if !ranged then .error .denied
    else
      let outer := (window branch).getD r.whole
      match checkedAdd outer.offset outer.count, checkedAdd request.offset request.count with
      | some outerEnd, some requestEnd =>
        if request.offset < outer.offset || outerEnd < requestEnd then .error .denied
        else if r.pages < requestEnd then .error .denied
        else if request.offset = 0 && request.count = r.pages then .error .denied
        else if permission.contains .only == shared then .error .denied
        else .ok ⟨permission.bits &&& 15#32⟩
      | _, _ => .error .notAligned

/-- The part becomes a record in its root phase, and a slot of its parent. -/
def World.split (w : World) (parent : RecordId) (branch token : Token) (permission : Permission)
    (request : Window) (h : request.count * pageSize < usizeSize) : World :=
  let geometry : Geometry := ⟨w.nextGeometry, request⟩
  let child : Authorization :=
    { pages := request.count
      pos := request.pos
      bound := (Nat.le_mul_of_pos_right _ (by decide)).trans_lt h
      phase := .root token
      authorities := [⟨token, permission⟩]
      lineage := some (parent, geometry) }
  let w₁ := w.modify parent fun r =>
    { r with derivations := r.derivations ++ [⟨branch, geometry, w.nextRecord⟩] }
  { records := fun j => if j = w.nextRecord then some child else w₁.records j
    nextRecord := w.nextRecord + 1
    nextGeometry := w.nextGeometry + 1 }

def derivePole (window : Token → Option Window) (f : Facts) (w : World) (parent : RecordId)
    (branch : Token) (seen : Option Permission) (ranged retains shared : Bool) (request : Window)
    (token : Token) : Except PieFail Token × World :=
  match w.records parent with
  | none => (.error .denied, w)
  | some r =>
    match derivable window r branch seen ranged retains shared request with
    | .error e => (.error e, w)
    | .ok permission =>
      if h : request.count * pageSize < usizeSize then
        if !f.live || (r.grant branch).isNone || r.revoked || r.phase = .priv || r.pole ≠ .live then
          (.error .denied, w)
        else match w.checkPublish parent request none with
          | (.error e, w') => (.error e, w')
          | (.ok (), w') =>
            if !f.room 0 || !f.room 1 then (.error .oom, w')
            else (.ok token, w'.split parent branch token permission request h)
      else (.error .notAligned, w)

/-- The part of `publish` that concerns the source, after the refusals of the ledgers. -/
def accord (window : Token → Option Window) (f : Facts) (w : World) (i : RecordId)
    (src token : Token) (subset : Permission) : Except PieFail Token × World :=
  match w.records i with
  | none => (.error .denied, w)
  | some r =>
    match f.refuses with
    | some e => (.error e, w)
    | none =>
      if r.pole ≠ .live || (r.grant src).isNone then (.error .dead, w)
      else match w.checkPublish i ((window token).getD r.whole) none with
        | (.error e, w') => (.error e, w')
        | (.ok (), w') =>
          if !f.room 0 then (.error .oom, w')
          -- the new pie is dropped again where a ledger has no room for it
          else if !f.room 1 then
            (.error .oom, (w'.registerGrant i token subset).releaseGrant i token)
          else (.ok token, w'.registerGrant i token subset)

/-- `open`; the binding of a mapping that failed is retired once its address is settled. -/
def openPole (window : Token → Option Window) (f : Facts) (w : World) (i : RecordId) (token : Token)
    (write : Bool) (binding : Nat) : Except PieFail Unit × World :=
  match w.records i with
  | none => (.error .denied, w)
  | some r =>
    if r.pole ≠ .live then (.error .dead, w)
    else match r.grant token with
      | none => (.error .dead, w)
      | some permission =>
        if !covers permission write then (.error .denied, w)
        else match w.checkPublish i ((window token).getD r.whole) none with
          | (.error e, w') => (.error e, w')
          | (.ok (), w') =>
            if f.reusable then (.ok (), w')
            else if !f.room 0 || !f.room 1 then (.error .oom, w')
            else
              let w₁ := w'.registerBinding i binding
              if f.placed then (.ok (), w₁)
              else (.error .denied, if f.settled then w₁.releaseBinding i binding else w₁)

/-- `Acquire` on a source there is, with a retention where `holder` is given. -/
def acquire (f : Facts) (w : World) (i : RecordId) (request : Window) (holder : Option TaskId) :
    Except PieFail Unit × World :=
  match w.checkUse i request with
  | (.error e, w') => (.error e, w')
  | (.ok (), w') =>
    match holder with
    | none => if !f.room 0 then (.error .oom, w') else (.ok (), w')
    | some task =>
      match f.resides with
      | some e => (.error e, w')
      | none =>
        let w₁ := w'.registerRetention i request task
        -- the retention goes with the reference that could not be recorded
        if !f.room 0 then (.error .oom, w₁.releaseRetention i w'.nextGeometry) else (.ok (), w₁)

/-- The last section of `attach`; the mapping is bound to the source before it. -/
def attachCommit (f : Facts) (w : World) (i : RecordId) (branch : Option Token) (write : Bool)
    (request : Window) (own : Option Nat) : Except PieFail Unit × World :=
  if !f.live || !(w.records i).any fun r => !r.revoked && r.branchPermits branch write then
    (.error .denied, w)
  else match w.checkPublish i request own with
    | (.error e, w') => (.error e, w')
    | (.ok (), w') => (if f.placed then .ok () else .error .denied, w')

/-- One end of a transfer: the source, the page's window and the retention of the reference. -/
structure End where
  source : RecordId
  geometry : Geometry
  own : Option Nat

/-- The section of `transfer` that admits both ends. -/
def transferAdmit (f : Facts) (w : World) (key : Nat) (a b : End) : Except PieFail Unit × World :=
  match w.checkPublish a.source a.geometry.window a.own with
  | (.error e, w₁) => (.error e, w₁)
  | (.ok (), w₁) =>
    match w₁.checkPublish b.source b.geometry.window b.own with
    | (.error e, w₂) => (.error e, w₂)
    | (.ok (), w₂) =>
      match w₂.enterFlight (f.room 0) a.source key (some a.geometry) none false with
      | (.error e, w₃) => (.error e, w₃)
      | (.ok (), w₃) =>
        match w₃.enterFlight (f.room 1) b.source key (some b.geometry) none false with
        | (.error e, w₄) => (.error e, w₄.leavePublish a.source key)
        | (.ok (), w₄) => (.ok (), w₄)

end Sqware.Source
