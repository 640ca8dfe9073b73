import Mathlib.Data.List.Sort
import Sqware.Lib.Buddy
import Sqware.Lib.Links
import Sqware.Machine.Word

/-!
# The physical frame allocator

`FrameInner` keeps one doubly linked list of free blocks for each power of two.  The links live
in the free frames themselves, so the state carries the memory of the frames; `pagemeta` gives
the power of the free block that starts at a frame.  Link addresses are written as frame
indices: `frame_addr` and `frame_index` are inverse on the frames of the allocator.

`none` is a panic (an index out of bounds) or a walk that does not end.
-/

namespace Sqware.Frame

open Links Buddy

inductive InitError
  | noFreeFrames | outOfMemory
  deriving DecidableEq, Repr

structure FrameInner where
  freelist : List (Option Nat)
  pagemeta : List (Option Nat)
  memory : Memory

/-- A range of physical bytes. -/
structure Region where
  base : Nat
  size : Nat
  deriving DecidableEq, Repr

namespace FrameInner

/-! ## Links -/

def clearHead (s : FrameInner) (index : Nat) : Option FrameInner :=
  if index < s.pagemeta.length then some { s with pagemeta := s.pagemeta.set index none } else none

def pullLink (s : FrameInner) (power : Nat) : Option (FrameInner × Option Nat) :=
  match s.freelist[power]? with
  | none => none
  | some none => some (s, none)
  | some (some index) =>
    -- a head outside the frames is reported and left alone
    if s.pagemeta.length ≤ index then some (s, none)
    else
      let next := (s.memory index).next
      let s := { s with
        freelist := s.freelist.set power next
        memory := setPrev s.memory next none }
      (s.clearHead index).map fun s => (s, some index)

def pushLink (s : FrameInner) (index power : Nat) : Option FrameInner :=
  match s.freelist[power]? with
  | none => none
  | some head =>
    if index < s.pagemeta.length then
      some {
        freelist := s.freelist.set power (some index)
        pagemeta := s.pagemeta.set index (some power)
        memory := push s.memory index head }
    else none

def removeLink (s : FrameInner) (index power : Nat) : Option FrameInner :=
  let prev := (s.memory index).prev
  let next := (s.memory index).next
  match prev with
  | some _ => some { s with memory := setPrev (setNext s.memory prev next) next prev }
  | none =>
    if power < s.freelist.length then
      some { s with
        freelist := s.freelist.set power next
        memory := setPrev s.memory next prev }
    else none

/-- The walk of `in_freelist`; a list without repetition is no longer than the memory. -/
def inFreelist (s : FrameInner) (index power : Nat) : Option Bool :=
  match s.freelist[power]? with
  | none => none
  | some head => walk s.memory index s.pagemeta.length head

/-! ## Split and merge -/

/-- The halving loop of `split_block`: frees the upper halves down to `power`. -/
def pushBuddies (index power : Nat) : Nat → FrameInner → Option FrameInner
  | 0, s => some s
  | k + 1, s =>
    if power < k + 1 then (s.pushLink (buddy index k) k).bind (pushBuddies index power k)
    else some s

def splitBlock (s : FrameInner) (power : Nat) : Option (FrameInner × Option Nat) :=
  match (s.freelist.drop power).findIdx? Option.isSome with
  | none => some (s, none)
  | some d =>
    match s.pullLink (power + d) with
    | none => none
    | some (s, none) => some (s, none)
    | some (s, some index) =>
      (s.pushBuddies index power (power + d)).map fun s => (s, some index)

/-- The joining loop of `merge_block`; the fuel is what is left of the free list table. -/
def mergeUp : Nat → FrameInner → Nat → Nat → Option (FrameInner × Nat × Nat)
  | 0, s, index, power => some (s, index, power)
  | fuel + 1, s, index, power =>
    if s.pagemeta[buddy index power]? = some (some power) then
      match s.inFreelist (buddy index power) power with
      | none => none
      | some false => some (s, index, power)
      | some true =>
        (s.removeLink (buddy index power) power).bind fun s =>
          (s.clearHead (buddy index power)).bind fun s =>
            mergeUp fuel s (min index (buddy index power)) (power + 1)
    else some (s, index, power)

def mergeBlock (s : FrameInner) (index power : Nat) : Option FrameInner :=
  (s.clearHead index).bind fun s =>
    (mergeUp (s.freelist.length - power) s index power).bind fun (s, index, power) =>
      (s.pushLink index power).bind fun s =>
        -- the last walk only decides whether a warning is printed
        (s.inFreelist index power).map fun _ => s

end FrameInner

/-! ## Initialisation -/

/-- The frames a reserved region touches, cut to the memory. -/
def hole (base edge maxFrame : Nat) (r : Region) : Option (Nat × Nat) :=
  let (hs, he) := (r.base, r.base + r.size)
  if he ≤ base ∨ edge ≤ hs then none
  else
    let first := (max hs base - base) / pageSize
    let last := (min he edge - base + (pageSize - 1)) / pageSize
    some (min first maxFrame, min last maxFrame)

def holes (base edge maxFrame : Nat) (reserved : List Region) : List (Nat × Nat) :=
  (reserved.filterMap (hole base edge maxFrame)).insertionSort
    fun a b => a.1 < b.1 ∨ a.1 = b.1 ∧ a.2 ≤ b.2

def holeContaining (holes : List (Nat × Nat)) (index : Nat) : Option Nat :=
  (holes.find? fun h => h.1 ≤ index ∧ index < h.2).map (·.2)

/-- `usize::trailing_zeros`, by counting at most as many bits as there are. -/
def trailingZeros : Nat → Nat → Nat
  | 0, _ => 0
  | bits + 1, n => if n % 2 = 1 then 0 else trailingZeros bits (n / 2) + 1

/-- `while index + (1 << power) > limit { power -= 1 }` -/
def shrink (index limit : Nat) : Nat → Nat
  | 0 => 0
  | power + 1 => if limit < index + 2 ^ (power + 1) then shrink index limit power else power + 1

/-- The power of the free block that `init` starts at a frame. -/
def blockAt (holes : List (Nat × Nat)) (maxFrame index remaining : Nat) : Nat :=
  let limit := (((holes.map (·.1)).filter (index < ·)).min?).getD maxFrame
  shrink index limit
    (min (min (trailingZeros 64 index) (Nat.log2 remaining)) (Nat.log2 maxFrame + 1 - 1))

/-- The loop of `init`; the fuel bounds the frames still to come. -/
def fill (holes : List (Nat × Nat)) (maxFrame : Nat) :
    Nat → FrameInner → Nat → Nat → Option FrameInner
  | 0, s, _, remaining => if remaining = 0 then some s else none
  | fuel + 1, s, index, remaining =>
    if remaining = 0 then some s
    else
      match holeContaining holes index with
      | some last => fill holes maxFrame fuel s last (remaining - (last - index))
      | none =>
        let power := blockAt holes maxFrame index remaining
        (s.pushLink index power).bind fun s =>
          fill holes maxFrame fuel s (index + 2 ^ power) (remaining - 2 ^ power)

def nextMultipleOf (a m : Nat) : Nat := (a + (m - 1)) / m * m

/-- What `init` reads: the frontier of the bump allocator before and after it allocates its own
tables, the edge of the memory, and the regions the board reserves.  The boot code records only
regions that have a byte and end below the last address. -/
structure Board where
  provisional : Nat
  frontier : Nat
  edge : Nat
  reserved : List Region
  edge_lt : edge < usizeSize
  size_pos : ∀ r ∈ reserved, 0 < r.size
  end_lt : ∀ r ∈ reserved, r.base + r.size < usizeSize

namespace Board

def base (b : Board) : Nat := nextMultipleOf b.frontier pageSize

def maxFrame (b : Board) : Nat := (b.edge - b.base) / pageSize

/-- The frame shares bytes with a reserved region. -/
def Reserved (b : Board) (frame : Nat) : Prop :=
  ∃ r ∈ b.reserved, r.base < b.base + (frame + 1) * pageSize ∧
    b.base + frame * pageSize < r.base + r.size

end Board

/-- `FrameInner::init`, over the memory as it is found. -/
def FrameInner.init (b : Board) (room : Bool) (memory : Memory) :
    Option (Except InitError FrameInner) :=
  if (b.edge - nextMultipleOf b.provisional pageSize) / pageSize = 0 then
    some (.error .noFreeFrames)
  else if !room then some (.error .outOfMemory)
  else if b.maxFrame = 0 then some (.error .noFreeFrames)
  else
    let s : FrameInner := {
      freelist := List.replicate (Nat.log2 b.maxFrame + 1) none
      pagemeta := List.replicate b.maxFrame none
      memory }
    (fill (holes b.base b.edge b.maxFrame b.reserved) b.maxFrame b.maxFrame s 0 b.maxFrame).map .ok

end Sqware.Frame
