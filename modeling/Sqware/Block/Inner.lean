import Sqware.Lib.Stack
import Sqware.Machine.Word

/-!
# The block allocator

Every hart has a pool: for each power of two one stack of free blocks, `freepool`, and one page
that is held back when it is empty, `spare`.  Blocks that another hart frees are fed to the pump of
the hart that owns their page, and the owner sucks them in before its next allocation.  The links
of all stacks lie in the blocks; the tally counts the blocks of a page that are not in its pool.

Pages are named by their number.  `none` is a panic: a page outside of the table, or a walk past
its limit.
-/

namespace Sqware.Block

open Stacks

def MIN_POWER : Nat := 3

def MAX_POWER : Nat := 11

/-- The exponent of the next power of two. -/
def powerOf (size : Nat) : Nat := Nat.log2 (max size (2 ^ MIN_POWER) - 1) + 1

structure Cell where
  owner : Option Nat
  power : Nat
  used : Nat
  deriving DecidableEq, Repr

namespace Cell

def free : Cell := ⟨none, 0, 0⟩

/-- The owner is kept in one byte. -/
def new (owner power : Nat) : Cell := ⟨some (owner % 2 ^ 8), power % 2 ^ 8, 1⟩

def incUsed (c : Cell) : Cell := { c with used := min (c.used + 1) (2 ^ 16 - 1) }

def decUsed (c : Cell) : Cell × Bool := ({ c with used := c.used - 1 }, c.used - 1 == 0)

end Cell

structure Tally where
  first : Nat
  len : Nat
  cells : Nat → Cell

namespace Tally

variable (t : Tally)

def covers (page : Nat) : Bool := t.first ≤ page && page < t.first + t.len

def ownerOf (pa : Nat) : Option Nat :=
  if t.covers (pa / pageSize) then (t.cells (pa / pageSize)).owner else none

def set (page : Nat) (c : Cell) : Tally := { t with cells := Function.update t.cells page c }

def write (page : Nat) (c : Cell) : Option Tally :=
  if t.covers page then some (t.set page c) else none

def incUsed (page : Nat) : Option Tally := t.write page (t.cells page).incUsed

def decUsed (page : Nat) : Option (Tally × Bool) :=
  (t.write page (t.cells page).decUsed.1).map fun t' => (t', (t.cells page).decUsed.2)

end Tally

/-- A hart and a power. -/
abbrev Slot := Nat × Nat

/-- The pools of all harts, the tally and the memory. -/
structure Store where
  tally : Tally
  freepool : Slot → Option Nat
  spare : Slot → Option Nat
  mem : Memory

/-- The pumps, by the heads of their stacks. -/
abbrev Pumps := Slot → Option Nat

namespace Store

variable (s : Store)

/-- Gives an empty page back to the frame allocator. -/
def drain (slot : Slot) (page : Nat) : Option Store :=
  (sift (· / pageSize == page) (2 ^ 16) s.mem (s.freepool slot) none).bind fun (mem, keep) =>
    (s.tally.write page .free).map fun tally =>
      { s with tally, mem, freepool := Function.update s.freepool slot keep }

def push (slot : Slot) (ptr : Nat) : Option Store :=
  let s := { s with
    mem := Function.update s.mem ptr (s.freepool slot)
    freepool := Function.update s.freepool slot (some ptr) }
  let page := ptr / pageSize
  (s.tally.decUsed page).bind fun (tally, empty) =>
    let s := { s with tally }
    if empty then
      if s.spare slot = none then some { s with spare := Function.update s.spare slot (some page) }
      else s.drain slot page
    else some s

/-- A fresh page, cut into blocks; the first is handed out. -/
def prime (slot : Slot) (page : Nat) : Option (Nat × Store) :=
  (s.tally.write page (.new slot.1 slot.2)).map fun tally =>
    let base := page * pageSize
    let last := pageSize / 2 ^ slot.2 - 1
    let mem := Function.update (row s.mem (2 ^ slot.2) base last) (base + last * 2 ^ slot.2) none
    (base, { s with
      tally
      freepool := Function.update s.freepool slot (mem base)
      mem := Function.update mem base none })

/-- The part of `pull` under the lock of the pool; `frame` is the frame allocator's answer. -/
def take (slot : Slot) (frame : Option Nat) : Option (Option Nat × Store) :=
  match s.freepool slot with
  | some head =>
    let page := head / pageSize
    (s.tally.incUsed page).map fun tally =>
      (some head, { s with
        tally
        spare := if s.spare slot = some page then Function.update s.spare slot none else s.spare
        freepool := Function.update s.freepool slot (s.mem head) })
  | none =>
    match frame with
    | none => some (none, s)
    | some page => (s.prime slot page).map fun (ptr, s) => (some ptr, s)

/-- The walk of `suck` along a stack taken from a pump. -/
def suckLoop (slot : Slot) : Nat → Store → Option Nat → Option Store
  | _, s, none => some s
  | 0, _, some _ => none
  | fuel + 1, s, some node => (s.push slot node).bind fun s' => suckLoop slot fuel s' (s.mem node)

/-- The walk of `clear` over the table. -/
def clear (hart : Nat) : Option Store :=
  ((List.range' s.tally.first s.tally.len).foldlM (fun s page =>
      if (s.tally.cells page).owner = some hart ∧ (s.tally.cells page).used = 0 then
        s.drain (hart, (s.tally.cells page).power) page
      else some s) s).map fun s =>
    { s with spare := fun slot => if slot.1 = hart then none else s.spare slot }

end Store

structure Heap where
  store : Store
  pump : Pumps

namespace Heap

variable (heap : Heap)

def feed (slot : Slot) (ptr : Nat) : Heap :=
  { store := { heap.store with mem := Function.update heap.store.mem ptr (heap.pump slot) }
    pump := Function.update heap.pump slot (some ptr) }

def suckOne (slot : Slot) : Option Heap :=
  (heap.store.suckLoop slot (2 ^ 14) (heap.pump slot)).map fun store =>
    { store, pump := Function.update heap.pump slot none }

def suck (hart : Nat) : Option Heap :=
  (List.range' MIN_POWER (MAX_POWER + 1 - MIN_POWER)).foldlM (fun heap power =>
    heap.suckOne (hart, power)) heap

def pull (slot : Slot) (frame : Option Nat) : Option (Option Nat × Heap) :=
  (heap.suck slot.1).bind fun heap =>
    (heap.store.take slot frame).map fun (ptr, store) => (ptr, { heap with store })

def allocate (me : Nat) (layout : Layout) (frame : Option Nat) :
    Option (Except AllocError Nat × Heap) :=
  let power := powerOf layout.size
  if MAX_POWER < power ∨ 2 ^ power < layout.align then some (.error ⟨⟩, heap)
  else
    (heap.pull (me, power) frame).map fun
      | (none, heap) => (.error ⟨⟩, heap)
      | (some ptr, heap) => (.ok ptr, heap)

def deallocate (me ptr size : Nat) : Option Heap :=
  match heap.store.tally.ownerOf ptr with
  | none => some heap
  | some home =>
    if home = me then
      (heap.store.push (home, powerOf size) ptr).map fun store => { heap with store }
    else some (heap.feed (home, powerOf size) ptr)

def flush (harts : Nat) : Option Heap :=
  (List.range harts).foldlM (fun heap hart =>
    (heap.suck hart).bind fun heap =>
      (heap.store.clear hart).map fun store => { heap with store }) heap

end Heap

end Sqware.Block
