import Sqware.Machine.Word

/-!
# The rack

A ring of `CAP` slots on pages that two sides share.  The writer puts message number `w + 1` into
slot `w`, its payload first, then its length, its number, and last the write cursor.  The reader
takes the slot of the number it wants: if the number there is a later one it goes on from that, and
after it has copied the payload it stores the read cursor.  When all slots are taken the writer
drops the new message or writes over the oldest slot, by its mode.

The four stores of `push` and the three steps of `pop` have names of their own, so that they can
also be run one by one.
-/

namespace Sqware.Rack

abbrev Bytes := List UInt8

def CAP : Nat := 16

/-- Bytes of payload in a slot. -/
def SLOT : Nat := 448

inductive Mode
  | oldest | newest
  deriving DecidableEq, Repr

structure Slot where
  seq : Nat
  len : Nat
  data : Bytes

def Slot.payload (s : Slot) : Bytes := s.data.take (min s.len SLOT)

structure Ring where
  write : Nat := 0
  read : Nat := 0
  dropped : Nat := 0
  lost : Nat := 0
  slots : Nat → Slot := fun _ => ⟨0, 0, List.replicate SLOT 0⟩

namespace Ring

variable (ring : Ring)

def slot (i : Nat) : Slot := ring.slots (i % CAP)

def setSlot (i : Nat) (s : Slot) : Ring :=
  { ring with slots := Function.update ring.slots (i % CAP) s }

/-! ## The writer -/

/-- Loads the cursors and decides what a full ring means. -/
def admits (mode : Mode) : Bool × Ring :=
  if CAP ≤ wrappingSub ring.write ring.read then
    match mode with
    | .oldest => (true, { ring with lost := wrappingAdd ring.lost 1 })
    | .newest => (false, { ring with dropped := wrappingAdd ring.dropped 1 })
  else (true, ring)

def copyIn (w : Nat) (bytes : Bytes) : Ring :=
  ring.setSlot w { ring.slot w with data := bytes ++ (ring.slot w).data.drop bytes.length }

def storeLen (w len : Nat) : Ring := ring.setSlot w { ring.slot w with len }

def storeSeq (w : Nat) : Ring := ring.setSlot w { ring.slot w with seq := wrappingAdd w 1 }

def publish (seq : Nat) : Ring := { ring with write := seq }

def push (mode : Mode) (bytes : Bytes) : Bool × Ring :=
  let w := ring.write
  match ring.admits mode with
  | (false, ring) => (false, ring)
  | (true, ring) =>
    if SLOT < bytes.length then (false, ring)
    else
      (true, (((ring.copyIn w bytes).storeLen w bytes.length).storeSeq w).publish (wrappingAdd w 1))

variable {ring}

theorem slot_setSlot_self {i j : Nat} (h : j % CAP = i % CAP) (s : Slot) :
    (ring.setSlot i s).slot j = s := by
  unfold setSlot slot
  rw [h]
  exact Function.update_self ..

theorem slot_setSlot_of_ne {i j : Nat} (h : j % CAP ≠ i % CAP) (s : Slot) :
    (ring.setSlot i s).slot j = ring.slot j :=
  Function.update_of_ne h ..

theorem setSlot_setSlot (i : Nat) (s t : Slot) :
    (ring.setSlot i s).setSlot i t = ring.setSlot i t := by
  unfold setSlot
  rw [Function.update_idem]

end Ring

/-! ## The reader -/

structure Reader where
  next : Nat := 1
  skipped : Nat := 0

/-- Stores the number just taken, then moves on. -/
def advance (ring : Ring) (rd : Reader) : Ring × Reader :=
  ({ ring with read := rd.next }, { rd with next := wrappingAdd rd.next 1 })

/-- What the number in a slot says: this message, a later one, or nothing yet. -/
inductive Look
  | found | ahead (rd : Reader) | empty

def look (ring : Ring) (rd : Reader) : Look :=
  let seq := (ring.slot (rd.next - 1)).seq
  if seq = rd.next then .found
  else if rd.next < seq then
    .ahead { next := seq, skipped := saturatingAdd rd.skipped (seq - rd.next) }
  else .empty

/-- The loop of `pop`; an error is a payload that does not fit in `room`. -/
def popLoop (ring : Ring) (room : Nat) :
    Nat → Reader → Except Nat (Option Bytes) × Ring × Reader
  | 0, rd => (.ok none, ring, rd)
  | k + 1, rd =>
    match look ring rd with
    | .found =>
      let src := (ring.slot (rd.next - 1)).payload
      if room < src.length then (.error src.length, advance ring rd)
      else (.ok (some src), advance ring rd)
    | .ahead rd => popLoop ring room k rd
    | .empty => (.ok none, ring, rd)

def pop (ring : Ring) (rd : Reader) (room : Nat) : Except Nat (Option Bytes) × Ring × Reader :=
  if ring.write < rd.next then (.ok none, ring, rd) else popLoop ring room CAP rd

end Sqware.Rack
