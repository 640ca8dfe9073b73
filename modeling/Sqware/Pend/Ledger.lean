import Sqware.Lib.Keyed
import Sqware.Lib.Multi
import Sqware.Machine.Word

/-!
# Capability ledgers

Every task has a ledger (`Pend`) of the pies it holds and of the edges to the pies it vested in
others: an edge names the parent's token, the task of the child and the child's token, and the
edges are sorted by parent.  The child names its parent by `sire` and `lord`.  A `Weak<Task>` is
the task's identity; it upgrades while the task has a ledger.

`version` counts the changes of a ledger.  The machine keeps it in a word that wraps, so two
observations compare as words (`sameVersion`).
-/

namespace Sqware.Ledger

abbrev TaskId := Nat

abbrev Token := Nat

abbrev Mark := Nat

def Mark.none : Mark := 0

inductive PieFail
  | denied | dead | oom | notAligned | handedOver | busy
deriving DecidableEq

/-! ## Grants -/

/-- `env::Permission`. -/
structure Permission where
  bits : BitVec 32
deriving DecidableEq

namespace Permission

def fetch : Permission := ⟨1#32⟩
def store : Permission := ⟨2#32⟩
def vest : Permission := ⟨4#32⟩
def only : Permission := ⟨8#32⟩

def contains (p q : Permission) : Bool := p.bits &&& q.bits == q.bits

def isEmpty (p : Permission) : Bool := p.bits == 0#32

end Permission

inductive Need
  | fetch | store | vest

def Need.allowedBy (need : Need) (p : Permission) : Bool :=
  p.contains <| match need with
    | .fetch => .fetch
    | .store => .store
    | .vest => .vest

def formOk (src subset : Permission) : Bool := src.contains .only == subset.contains .only

def narrows (src subset : Permission) : Bool :=
  !subset.isEmpty && src.contains subset && formOk src subset

/-- A page offset from the start of a source and a page count, which is never zero. -/
structure Window where
  offset : Nat
  count : Nat
  pos : 0 < count
deriving DecidableEq

def Window.Within (inner outer : Window) : Prop :=
  outer.offset ≤ inner.offset ∧ inner.offset + inner.count ≤ outer.offset + outer.count

theorem Window.Within.refl (a : Window) : a.Within a := ⟨le_rfl, le_rfl⟩

theorem Window.Within.trans {a b c : Window} (h : a.Within b) (h' : b.Within c) : a.Within c :=
  ⟨h'.1.trans h.1, h.2.trans h'.2⟩

structure Grant where
  permission : Permission
  window : Option Window
deriving DecidableEq

/-- `Grant::narrow`; the exchange loop ends at the first load nobody raced. -/
def Grant.narrow (g : Grant) (subset : Permission) : Except PieFail Grant :=
  if g.permission.isEmpty then .error .dead
  else if narrows g.permission subset then
    .ok { g with permission := ⟨g.permission.bits &&& subset.bits⟩ }
  else .error .denied

def Grant.invalidate (g : Grant) : Grant := { g with permission := ⟨0#32⟩ }

/-! ## Pies -/

/-- The resource a pie refers to; a Pole carries the number of pages of its source. -/
inductive Mail
  | hole (id : Nat)
  | pole (id pageCount : Nat) (pos : 0 < pageCount)
  | nole (id : Nat)
  | tole (id : Nat)
deriving DecidableEq

/-- The whole source of a Pole. -/
def Mail.source : Mail → Option Window
  | .pole _ n h => some ⟨0, n, h⟩
  | _ => none

def Mail.isPole (m : Mail) : Bool := m.source.isSome

def Mail.isTole : Mail → Bool
  | .tole _ => true
  | _ => false

structure Heir where
  task : TaskId
  token : Token
deriving DecidableEq

structure Pie where
  token : Token
  grant : Grant
  mark : Mark
  sire : Option Token
  lord : Option TaskId
  heir : Option Heir
  mail : Mail
deriving DecidableEq

def Pie.permission (pie : Pie) : Permission := pie.grant.permission

def Pie.allows (pie : Pie) (need : Need) : Bool := need.allowedBy pie.permission

def Pie.invalidate (pie : Pie) : Pie := { pie with grant := pie.grant.invalidate }

def Pie.parent (pie : Pie) (token : Token) (task : TaskId) : Pie :=
  { pie with sire := some token, lord := some task }

def Pie.setHeir (pie : Pie) (heir : Option Heir) : Pie := { pie with heir := heir }

/-! ## Ledgers -/

/-- An entry of `heirs`. -/
structure Edge where
  parent : Token
  task : TaskId
  token : Token
deriving DecidableEq

structure Pend where
  version : Nat := 0
  pies : List Pie := []
  heirs : List Edge := []

/-- The ledgers of the tasks there are, the counters of task and Pie identities, and the root pies
that were built and are not in a ledger yet. -/
@[ext]
structure World where
  pends : TaskId → Option Pend := fun _ => none
  nextTask : TaskId := 1
  nextToken : Token := 1
  loose : List Pie := []

def sameVersion (v v' : Nat) : Bool := v % usizeSize == v' % usizeSize

namespace World

variable (w : World)

/-- Whether a `Weak<Task>` upgrades. -/
def upgrade (t : TaskId) : Bool := (w.pends t).isSome

def locate (t : TaskId) (token : Token) : Option Pie :=
  (w.pends t).bind fun p => Keyed.get Pie.token p.pies token

def modify (t : TaskId) (f : Pend → Pend) : World :=
  { w with pends := fun u => if u = t then (w.pends u).map f else w.pends u }

def changed (t : TaskId) : World := w.modify t fun p => { p with version := p.version + 1 }

/-- Change the pie under a token in place. -/
def modifyPie (t : TaskId) (token : Token) (f : Pie → Pie) : World :=
  w.modify t fun p => { p with pies := Keyed.update Pie.token token f p.pies }

def push (t : TaskId) (pie : Pie) : World :=
  w.modify t fun p => { p with pies := p.pies ++ [pie] }

def removePie (t : TaskId) (token : Token) : World :=
  w.modify t fun p => { p with pies := Keyed.erase Pie.token p.pies token }

def insertHeir (t : TaskId) (parent : Token) (child : TaskId) (token : Token) : World :=
  w.modify t fun p => { p with heirs := Multi.insert Edge.parent p.heirs ⟨parent, child, token⟩ }

def removeHeir (t : TaskId) (parent token : Token) : World :=
  w.modify t fun p =>
    { p with heirs := Multi.remove Edge.parent p.heirs parent fun e => e.token = token }

/-- Drop the edges of a parent. -/
def dropHeirs (t : TaskId) (parent : Token) : World :=
  w.modify t fun p => { p with heirs := p.heirs.filter (·.parent ≠ parent) }

/-- `sire` and the upgrade of `lord`. -/
def origin (pie : Pie) : Option (Token × TaskId) :=
  match pie.sire, pie.lord with
  | some parent, some lord => if w.upgrade lord then some (parent, lord) else none
  | _, _ => none

def clearHeirLocked (t : TaskId) (token : Token) (expected : Heir) : Bool × World :=
  match w.locate t token with
  | none => (false, w)
  | some pie =>
    if pie.heir = some expected then
      (true, (w.modifyPie t token fun q => q.setHeir none).changed t)
    else (false, w)

def take (t : TaskId) (token : Token) : Option (Pie × World) :=
  match w.locate t token with
  | none => none
  | some pie =>
    let w₁ := w.removePie t token
    let w₂ := match w₁.origin pie with
      | some (parent, lord) =>
        ((w₁.removeHeir lord parent token).clearHeirLocked lord parent ⟨t, token⟩).2.changed lord
      | none => w₁
    some (pie.invalidate, (w₂.dropHeirs t token).changed t)

end World

end Sqware.Ledger
