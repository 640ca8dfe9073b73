import Sqware.Lib.Table
import Sqware.Machine.Word

/-!
# Physical page sources

A `Flat` is a source of logical pages: either RAM whose page slots are materialized on demand,
or a borrowed physical region.  A page without a slot is fresh.  `Resident` holds a carrier
frame, `Missing` is the tombstone of a carrier that moved away, `Moving` and `Reserved` are the
two ends of a transfer under way.

Frames are named by numbers that are never reused; the custody of a frame is one atomic cell
that `from_frames` and transfers compete for.
-/

namespace Sqware.Flats

open Table

inductive FlatError
  | outOfMemory | notAligned | outOfRange | missing | busy
  deriving DecidableEq, Repr

inductive Custody
  | sole | aliased | inTransit
  deriving DecidableEq, Repr

inductive Slot
  | resident (frame : Nat)
  | missing
  | moving (frame transaction : Nat)
  | reserved (transaction : Nat) (wasMissing : Bool)
  deriving DecidableEq, Repr

/-- A transfer holds or reserves the slot. -/
def Slot.busy : Slot → Bool
  | .moving _ _ | .reserved _ _ => true
  | .resident _ | .missing => false

structure ResidencyEntry where
  id : Nat
  index : Nat
  count : Nat
  deriving DecidableEq, Repr

inductive FlatSource
  | managed (slots : List (Nat × Slot))
  | borrowed (start size : Nat)
  deriving DecidableEq, Repr

structure Flat where
  pageCount : Nat
  source : FlatSource
  residencies : List ResidencyEntry := []
  nextResidency : Nat := 1
  transferable : Bool
  deriving DecidableEq, Repr

/-- `Custody::register`: the custody after it, or `Busy` while a transfer has the frame. -/
def Custody.register : Custody → Except FlatError Custody
  | .sole | .aliased => .ok .aliased
  | .inTransit => .error .busy

/-- `Custody::enter`, the only way into a transfer. -/
def Custody.enter : Custody → Option Custody
  | .sole => some .inTransit
  | .aliased | .inTransit => none

/-- `Custody::leave`; the assertion fails from any other state. -/
def Custody.leave : Custody → Option Custody
  | .inTransit => some .sole
  | .sole | .aliased => none

/-- The slot of a page, read at its spot. -/
def seat (slots : List (Nat × Slot)) (page : Nat) : Option Slot :=
  if (spot slots page).2 then slots[(spot slots page).1]?.map (·.2) else none

/-- The page numbers that `from_frames` accepts: in range and strictly increasing. -/
def framesOk (pageCount : Nat) : Option Nat → List (Nat × Nat) → Bool
  | _, [] => true
  | previous, (page, _) :: rest =>
    !(pageCount ≤ page ∨ previous.any (page ≤ ·)) && framesOk pageCount (some page) rest

namespace Flat

def acquire (pageCount : Nat) : Flat := { pageCount, source := .managed [], transferable := true }

/-- The source that `from_frames` builds before it registers the custody of the frames. -/
def fromFrames (pageCount : Nat) (frames : List (Nat × Nat)) : Except FlatError Flat :=
  if framesOk pageCount none frames then
    .ok { pageCount, source := .managed (frames.map fun (page, frame) => (page, .resident frame)),
          transferable := false }
  else .error .outOfRange

def fromRegion (start size : Nat) : Except FlatError Flat :=
  if size / pageSize = 0 then .error .outOfRange
  else .ok { pageCount := size / pageSize, source := .borrowed start size, transferable := false }

def isPinned (fl : Flat) (index count : Nat) : Bool :=
  fl.residencies.any fun entry => entry.index < index + count ∧ index < entry.index + entry.count

/-- Some page of the window is held by a transfer. -/
def busy (fl : Flat) (index count : Nat) : Bool :=
  match fl.source with
  | .borrowed _ _ => false
  | .managed slots =>
    ((slots.take (point slots (index + count))).drop (point slots index)).any (·.2.busy)

def reside (fl : Flat) (room : Bool) (index count : Nat) : Except FlatError (Flat × Nat) :=
  if fl.busy index count then .error .busy
  else
    match checkedAdd fl.nextResidency 1 with
    | none => .error .outOfMemory
    | some next =>
      if room then
        .ok ({ fl with
          residencies := fl.residencies ++ [⟨fl.nextResidency, index, count⟩]
          nextResidency := next }, fl.nextResidency)
      else .error .outOfMemory

/-- `none` where the code panics: a residency is released once, by the handle that took it. -/
def releaseResidency (fl : Flat) (id : Nat) : Option Flat :=
  match fl.residencies.findIdx? (·.id = id) with
  | none => none
  | some at' => some { fl with residencies := fl.residencies.eraseIdx at' }

/-- The loop of `materialize_range` over the pages left: the slots and the next frame as it
leaves them, also where it fails half way.  `room` says at which pages memory is found. -/
def materializeFrom (room : Nat → Bool) :
    Nat → Nat → Nat → List (Nat × Slot) → Nat → Except FlatError Unit × List (Nat × Slot) × Nat
  | 0, _, _, slots, next => (.ok (), slots, next)
  | left + 1, page, at', slots, next =>
    match slots[at']?.filter (·.1 = page) with
    | some (_, .missing) => (.error .missing, slots, next)
    | some (_, .moving _ _) | some (_, .reserved _ _) => (.error .busy, slots, next)
    | some (_, .resident _) => materializeFrom room left (page + 1) (at' + 1) slots next
    | none =>
      if room page then
        materializeFrom room left (page + 1) (at' + 1)
          (slots.insertIdx at' (page, .resident next)) (next + 1)
      else (.error .outOfMemory, slots, next)

def materializeRange (fl : Flat) (room : Nat → Bool) (next index count : Nat) :
    Except FlatError Unit × Flat × Nat :=
  match checkedAdd index count with
  | none => (.error .outOfRange, fl, next)
  | some last =>
    if fl.pageCount < last then (.error .outOfRange, fl, next)
    else
      match fl.source with
      | .borrowed _ _ => (.ok (), fl, next)
      | .managed slots =>
        match materializeFrom room count index (point slots index) slots next with
        | (result, slots, next) => (result, { fl with source := .managed slots }, next)

end Flat

end Sqware.Flats
