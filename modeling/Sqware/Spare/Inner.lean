import Sqware.Lib.Links
import Sqware.Machine.Word

/-!
# The spare heap

`SpareInner` keeps one doubly linked list of its free blocks, sorted by address.  The header of a
block, free or not, lies in the heap itself: `links` and `sizes` are its fields by block address.
An allocation takes the first block that is large enough and splits off what is left when a header
fits there; a block that comes back is joined with the free blocks next to it.

`none` is a panic (a size below a header) or a walk that does not end.
-/

namespace Sqware.Spare

open Links

def HEADER : Nat := 32

def MAX_ALIGN : Nat := 16

structure SpareInner where
  base : Nat
  edge : Nat
  head : Option Nat
  links : Memory
  sizes : Nat → Nat

namespace SpareInner

variable (s : SpareInner)

/-- `Blk::write`. -/
def write (addr size : Nat) : SpareInner :=
  { s with
    links := Function.update s.links addr ⟨none, none⟩
    sizes := Function.update s.sizes addr size }

/-- One block over memory that may hold anything. -/
def new (base edge : Nat) (links : Memory) (sizes : Nat → Nat) : SpareInner :=
  write { base, edge, head := some base, links, sizes } base (edge - base)

def owns (addr : Nat) : Bool := s.base ≤ addr && addr < s.edge

def payload (blk : Nat) : Option Nat := checkedSub (s.sizes blk) HEADER

def unlink (blk : Nat) : SpareInner :=
  { s with
    head := match (s.links blk).prev with
      | some _ => s.head
      | none => (s.links blk).next
    links := Links.unlink s.links blk }

/-- Puts a block between two of the list. -/
def link (blk : Nat) (prev next : Option Nat) : SpareInner :=
  { s with
    head := match prev with
      | some _ => s.head
      | none => some blk
    links := between s.links blk prev next }

def resize (blk size : Nat) : SpareInner := { s with sizes := Function.update s.sizes blk size }

/-- No more blocks fit in the heap. -/
def fuel : Nat := (s.edge - s.base) / HEADER

def split (blk need : Nat) : Option SpareInner :=
  (s.payload blk).bind fun payload =>
    (checkedSub payload need).map fun left =>
      if HEADER ≤ left then
        let rest := blk + HEADER + need
        let l := (s.write rest left).links blk
        ((s.write rest left).link rest l.prev l.next).resize blk (HEADER + need)
      else s.unlink blk

/-- The walk of `pull` to the first block that is large enough. -/
def firstFit (need : Nat) : Nat → Option Nat → Option (Option Nat)
  | _, none => some none
  | 0, some _ => none
  | fuel + 1, some blk =>
    (s.payload blk).bind fun payload =>
      if need ≤ payload then some (some blk) else firstFit need fuel (s.links blk).next

def pull (need : Nat) : Option (Option Nat × SpareInner) :=
  (s.firstFit need s.fuel s.head).bind fun
    | none => some (none, s)
    | some blk => (s.split blk need).map fun s => (some blk, s)

/-- The walk of `push` to the neighbours of an address. -/
def neighbours (addr : Nat) : Nat → Option Nat → Option Nat → Option (Option Nat × Option Nat)
  | _, prev, none => some (prev, none)
  | 0, _, some _ => none
  | fuel + 1, prev, some n =>
    if addr < n then some (prev, some n) else neighbours addr fuel (some n) (s.links n).next

/-- Joins a block to the one before it, if they touch; the block it is now part of. -/
def joinPrev (prev : Option Nat) (blk : Nat) : SpareInner × Nat :=
  match prev with
  | some p =>
    if p + s.sizes p = blk then ((s.resize p (s.sizes p + s.sizes blk)).unlink blk, p) else (s, blk)
  | none => (s, blk)

def joinNext (blk : Nat) : SpareInner :=
  match (s.links blk).next with
  | some n =>
    if blk + s.sizes blk = n then (s.resize blk (s.sizes blk + s.sizes n)).unlink n else s
  | none => s

def push (blk : Nat) : Option SpareInner :=
  (s.neighbours blk s.fuel none s.head).map fun (prev, cur) =>
    let (s, blk) := (s.link blk prev cur).joinPrev prev blk
    s.joinNext blk

end SpareInner

/-! ## The allocator -/

/-- What `allocate` looks for; sizes of layouts are small enough not to overflow here. -/
def need (layout : Layout) : Nat :=
  (max layout.size 1 + (MAX_ALIGN - 1)) / MAX_ALIGN * MAX_ALIGN

namespace SpareInner

variable (s : SpareInner)

def allocate (layout : Layout) : Option (Except AllocError Nat × SpareInner) :=
  if MAX_ALIGN < layout.align then some (.error ⟨⟩, s)
  else
    (s.pull (need layout)).map fun
      | (none, s) => (.error ⟨⟩, s)
      | (some blk, s) => (.ok (blk + HEADER), s)

def deallocate (ptr : Nat) : Option SpareInner :=
  (checkedSub ptr HEADER).bind fun blk => if s.owns blk then s.push blk else some s

end SpareInner

end Sqware.Spare
