import Sqware.Flat.Source

/-!
# Page transfers

A transfer claims both ends in one critical section: the source slot goes from `Resident` to
`Moving` and keeps its frame, the target slot becomes `Reserved`.  The guard then either commits
(the source becomes a tombstone, the target gets the frame) or is dropped (both ends go back).

The world holds all sources, the custody of every frame and the guards alive.  When both ends
lie in one source the code takes one lock and works on one state; here the target's operations
then read what the source's operations left.  `none` is a panic.
-/

namespace Sqware.Flats

open Table

inductive TransferError
  | outOfMemory | outOfRange | sourceEmpty | destinationOccupied | notTransferable | busy
  deriving DecidableEq, Repr

/-- A window of a source. -/
structure FlatRange where
  flat : Nat
  index : Nat
  count : Nat
  deriving DecidableEq, Repr

/-- A page of a source. -/
structure Seat where
  flat : Nat
  page : Nat
  deriving DecidableEq, Repr

structure Transaction where
  source : Seat
  target : Seat
  id : Nat
  deriving DecidableEq, Repr

structure World where
  flats : List Flat := []
  custody : Nat → Custody := fun _ => .sole
  nextFrame : Nat := 0
  nextTransaction : Nat := 1
  transactions : List Transaction := []

/-! ## Checks -/

def owns (range : FlatRange) (page : Nat) : Bool :=
  range.index ≤ page ∧ page - range.index < range.count

def plainOrigin (fl : Flat) : Except TransferError Unit :=
  if fl.transferable then .ok () else .error .notTransferable

def sourceReady (fl : Flat) (page : Nat) : Except TransferError Unit := do
  plainOrigin fl
  if fl.isPinned page 1 then .error .busy
  else
    match fl.source with
    | .borrowed _ _ => .error .notTransferable
    | .managed slots =>
      match seat slots page with
      | none => .error .sourceEmpty
      | some (.resident _) => .ok ()
      | some .missing => .error .sourceEmpty
      | some (.moving _ _) | some (.reserved _ _) => .error .busy

/-- Whether the target page is a tombstone; a fresh page has no slot. -/
def targetReady (fl : Flat) (page : Nat) : Except TransferError Bool := do
  plainOrigin fl
  if fl.isPinned page 1 then .error .busy
  else
    match fl.source with
    | .borrowed _ _ => .error .notTransferable
    | .managed slots =>
      match seat slots page with
      | none => .ok false
      | some (.resident _) => .error .destinationOccupied
      | some .missing => .ok true
      | some (.moving _ _) | some (.reserved _ _) => .error .busy

def reserve (fl : Flat) (room : Bool) (page : Nat) : Except TransferError Unit :=
  match fl.source with
  | .borrowed _ _ => .error .notTransferable
  | .managed slots =>
    if (spot slots page).2 then .ok () else if room then .ok () else .error .outOfMemory

/-! ## Slots -/

/-- Rewrites the slot of a page that has one. -/
def Flat.write (fl : Flat) (slots : List (Nat × Slot)) (page : Nat) (slot : Slot) : Flat :=
  { fl with source := .managed (slots.set (spot slots page).1 (page, slot)) }

/-- The source and the custodies as they are left, also where the claim fails. -/
def claimSource (custody : Nat → Custody) (fl : Flat) (page id : Nat) :
    Option (Except TransferError Unit × Flat × (Nat → Custody)) :=
  match fl.source with
  | .borrowed _ _ => none
  | .managed slots =>
    match seat slots page with
    | some (.resident frame) =>
      match (custody frame).enter with
      | some state =>
        some (.ok (), fl.write slots page (.moving frame id), Function.update custody frame state)
      | none =>
        some (.error (if custody frame = .aliased then .notTransferable else .busy), fl, custody)
    | _ => none

def claimTarget (fl : Flat) (page id : Nat) (wasMissing : Bool) : Option Flat :=
  match fl.source with
  | .borrowed _ _ => none
  | .managed slots =>
    match seat slots page with
    | some .missing =>
      if wasMissing then some (fl.write slots page (.reserved id wasMissing)) else none
    | some _ => none
    | none =>
      if wasMissing then none
      else
        let slots := slots.insertIdx (spot slots page).1 (page, .reserved id false)
        some { fl with source := .managed slots }

/-- The frame that the source slot of a transaction holds. -/
def carried (fl : Flat) (page id : Nat) : Option Nat :=
  match fl.source with
  | .borrowed _ _ => none
  | .managed slots =>
    match seat slots page with
    | some (.moving frame transaction) => if transaction = id then some frame else none
    | _ => none

/-- Leaves a new slot in the place of the `Moving` one. -/
def leaveSource (fl : Flat) (page : Nat) (slot : Slot) : Option Flat :=
  match fl.source with
  | .borrowed _ _ => none
  | .managed slots => some (fl.write slots page slot)

def settleSource (fl : Flat) (page id : Nat) : Option (Flat × Nat) :=
  (carried fl page id).bind fun frame =>
    (leaveSource fl page .missing).map fun fl => (fl, frame)

def settleTarget (custody : Nat → Custody) (fl : Flat) (page id frame : Nat) :
    Option (Flat × (Nat → Custody)) :=
  match fl.source with
  | .borrowed _ _ => none
  | .managed slots =>
    match seat slots page with
    | some (.reserved transaction _) =>
      if transaction = id then
        (custody frame).leave.map fun state =>
          (fl.write slots page (.resident frame), Function.update custody frame state)
      else none
    | _ => none

def rollbackSource (custody : Nat → Custody) (fl : Flat) (page id : Nat) :
    Option (Flat × (Nat → Custody)) :=
  (carried fl page id).bind fun frame =>
    (custody frame).leave.bind fun state =>
      (leaveSource fl page (.resident frame)).map fun fl =>
        (fl, Function.update custody frame state)

def rollbackTarget (fl : Flat) (page id : Nat) : Option Flat :=
  match fl.source with
  | .borrowed _ _ => none
  | .managed slots =>
    match seat slots page with
    | some (.reserved transaction wasMissing) =>
      if transaction = id then
        if wasMissing then some (fl.write slots page .missing)
        else some { fl with source := .managed (slots.eraseIdx (spot slots page).1) }
      else none
    | _ => none

/-! ## Transactions -/

namespace World

/-- Both ends as one critical section leaves them. -/
def put (w : World) (source target : Nat) (from' to' : Flat) : World :=
  { w with flats := (w.flats.set source from').set target to' }

/-- The state of the target once the source's operation has left `from'`. -/
def targetAfter (w : World) (source target : Nat) (from' : Flat) : Option Flat :=
  if source = target then some from' else w.flats[target]?

/-- The critical section of `claim`, under a transaction number, and the world that it leaves
where it ends, be it half way.  The checks and `prepare` write nothing. -/
def claimSlots (w : World) (source target : Seat) (id : Nat) (room : Bool)
    (prepare : Except TransferError Unit) : Option (Except TransferError Unit × World) :=
  match w.flats[source.flat]?, w.flats[target.flat]? with
  | some fromFlat, some toFlat =>
    match (do
      sourceReady fromFlat source.page
      let wasMissing ← targetReady toFlat target.page
      reserve toFlat room target.page
      prepare
      pure wasMissing) with
    | .error e => some (.error e, w)
    | .ok wasMissing =>
      (claimSource w.custody fromFlat source.page id).bind fun (r, fromFlat, custody) =>
        let w := { w with flats := w.flats.set source.flat fromFlat, custody }
        match r with
        | .error e => some (.error e, w)
        | .ok () =>
          (w.flats[target.flat]?).bind fun toFlat =>
            (claimTarget toFlat target.page id wasMissing).map fun toFlat =>
              (.ok (), { w with
                flats := w.flats.set target.flat toFlat
                transactions := ⟨source, target, id⟩ :: w.transactions })
  | _, _ => none

/-- `Transaction::claim`; the number it drew is spent also where it fails. -/
def claim (w : World) (source : FlatRange) (sourcePage : Nat) (target : FlatRange)
    (targetPage : Nat) (room : Bool) (prepare : Except TransferError Unit) :
    Option (Except TransferError Unit × World) :=
  if !(owns source sourcePage && owns target targetPage) then none
  else if source.flat = target.flat ∧ sourcePage = targetPage then
    some (.error .destinationOccupied, w)
  else
    match nextId w.nextTransaction with
    | none => some (.error .outOfMemory, w)
    | some (id, nextTransaction) =>
      claimSlots { w with nextTransaction } ⟨source.flat, sourcePage⟩ ⟨target.flat, targetPage⟩ id
        room prepare

def carrier (w : World) (t : Transaction) : Option Nat :=
  (w.flats[t.source.flat]?).bind fun fl => carried fl t.source.page t.id

def commit (w : World) (t : Transaction) : Option World :=
  (w.flats[t.source.flat]?).bind fun fromFlat =>
    (settleSource fromFlat t.source.page t.id).bind fun (fromFlat, frame) =>
      (w.targetAfter t.source.flat t.target.flat fromFlat).bind fun toFlat =>
        (settleTarget w.custody toFlat t.target.page t.id frame).map fun (toFlat, custody) =>
          { w.put t.source.flat t.target.flat fromFlat toFlat with
            custody
            transactions := w.transactions.erase t }

/-- The drop of a guard that did not commit. -/
def rollback (w : World) (t : Transaction) : Option World :=
  (w.flats[t.source.flat]?).bind fun fromFlat =>
    (rollbackSource w.custody fromFlat t.source.page t.id).bind fun (fromFlat, custody) =>
      (w.targetAfter t.source.flat t.target.flat fromFlat).bind fun toFlat =>
        (rollbackTarget toFlat t.target.page t.id).map fun toFlat =>
          { w.put t.source.flat t.target.flat fromFlat toFlat with
            custody
            transactions := w.transactions.erase t }

end World

end Sqware.Flats
