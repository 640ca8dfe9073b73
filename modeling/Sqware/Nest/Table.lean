import Sqware.Lib.Keyed
import Sqware.Lib.Radix
import Sqware.Nest.Occupancy

/-!
# Page tables

The tree of page tables of a Nest, in units of pages: an address is its page number, a page number
is walked by its digits in base 512, and an entry at `level` spans `512 ^ level` pages.  Addresses
are canonical, so the low digits name them.

Mapping is done in two phases.  What can fail is prepared first: `prepareRange` makes the tables a
new range needs, `prepareWith` splits the leaves that a range cuts.  What follows cannot fail.

An operation gets `room`, the number of its allocations that succeed; it ends at the first that
does not.  A branch entry has its table in `children`, where every walk here looks for it; the page
the table itself lies in is left out.
-/

namespace Sqware.Nest

open Radix

/-! ## Entries -/

abbrev PteFlags := BitVec 8

namespace PteFlags

def V : PteFlags := 1#8
def R : PteFlags := 2#8
def W : PteFlags := 4#8
def X : PteFlags := 8#8
def G : PteFlags := 32#8
def A : PteFlags := 64#8
def D : PteFlags := 128#8

/-- The bits that decide what an access may do. -/
def rwx : PteFlags := R ||| W ||| X

def contains (f g : PteFlags) : Bool := f &&& g = g

def intersects (f g : PteFlags) : Bool := f &&& g ≠ 0#8

end PteFlags

structure Entry where
  ppn : Nat := 0
  flags : PteFlags := 0#8
  deriving DecidableEq, Repr

namespace Entry

def isValid (e : Entry) : Bool := PteFlags.contains e.flags .V

def isLeaf (e : Entry) : Bool := PteFlags.intersects e.flags .rwx

def isBranch (e : Entry) : Bool := e.isValid && !e.isLeaf

/-- A branch: `V` alone. -/
def branch : Entry := { flags := .V }

end Entry

/-- A page of entries, and the tables its branches lead to by slot. -/
inductive TableNode
  | mk (entries : Nat → Entry) (children : List (Nat × TableNode))

namespace TableNode

def entries : TableNode → Nat → Entry
  | mk entries _ => entries

def children : TableNode → List (Nat × TableNode)
  | mk _ children => children

/-- A new table. -/
def leaf : TableNode := mk (fun _ => {}) []

/-- Pages under an entry. -/
def span (level : Nat) : Nat := 512 ^ level

def child (node : TableNode) (slot : Nat) : Option TableNode :=
  (Keyed.get Prod.fst node.children slot).map Prod.snd

def setEntry (node : TableNode) (slot : Nat) (e : Entry) : TableNode :=
  mk (fun i => if i = slot then e else node.entries i) node.children

def setChild (node : TableNode) (slot : Nat) (c : TableNode) : TableNode :=
  mk node.entries (Keyed.update Prod.fst slot (fun x => (x.1, c)) node.children)

/-- A table under a slot: its page, room among the children, and the branch. -/
def grow (node : TableNode) (slot : Nat) (c : TableNode) : Nat → Except NestError TableNode × Nat
  | room + 2 => (.ok (mk (node.setEntry slot .branch).entries (node.children ++ [(slot, c)])), room)
  | _ => (.error .outOfMemory, 0)

/-! ## Walks

From a table of a given level; the root of a Nest is at `levels - 1`. -/

def leafRef (p : Nat) : (level : Nat) → TableNode → Except NestError (Entry × Nat)
  | level, node =>
    let slot := digit 512 level p
    let entry := node.entries slot
    if !entry.isValid || entry.isLeaf then .ok (entry, level)
    else match level with
      | 0 => .error .notMapped
      | l + 1 =>
        match node.child slot with
        | none => .error .notMapped
        | some c => leafRef p l c

def walkRef (level : Nat) (node : TableNode) (p : Nat) : Except NestError (Nat × PteFlags) :=
  match leafRef p level node with
  | .error e => .error e
  | .ok (entry, level) =>
    if !entry.isValid || !entry.isLeaf then .error .notMapped
    else if entry.ppn % span level ≠ 0 then .error .notMapped
    else .ok (entry.ppn + p % span level, entry.flags)

/-- `entry_at` with `alloc`: make the tables down to `target`, and read the entry there. -/
def entryAt (target p : Nat) : (level : Nat) → TableNode → (room : Nat) →
    Except NestError Entry × TableNode × Nat
  | level, node, room =>
    let slot := digit 512 level p
    let entry := node.entries slot
    if level = target then (.ok entry, node, room)
    else if entry.isLeaf && entry.isValid then (.error .alreadyMapped, node, room)
    else match level with
      | 0 => (.error .notMapped, node, room)
      | l + 1 =>
        match if entry.isValid then (.ok node, room) else node.grow slot leaf room with
        | (.error e, room) => (.error e, node, room)
        | (.ok node, room) =>
          match node.child slot with
          | none => (.error .notMapped, node, room)
          | some c =>
            match entryAt target p l c room with
            | (answer, c, room) => (answer, node.setChild slot c, room)

/-- `entry_at` without `alloc`, and a write to the entry; `none` where the path is not there, which
the callers take for granted. -/
def modifyAt (target p : Nat) (f : Entry → Entry) : (level : Nat) → TableNode → Option TableNode
  | level, node =>
    let slot := digit 512 level p
    let entry := node.entries slot
    if level = target then some (node.setEntry slot (f entry))
    else if entry.isLeaf || !entry.isValid then none
    else match level with
      | 0 => none
      | l + 1 =>
        match node.child slot with
        | none => none
        | some c => (modifyAt target p f l c).map (node.setChild slot)

/-! ## Splitting leaves -/

/-- The leaf at `level + 1` as a table of leaves. -/
def shatter (e : Entry) (level : Nat) : TableNode :=
  mk (fun i => { ppn := e.ppn + i * span level, flags := e.flags }) []

/-- Split the leaf over `p`, if it is above `target`, down to it. -/
def splitAt (target p : Nat) : (level : Nat) → TableNode → (room : Nat) →
    Except NestError Unit × TableNode × Nat
  | 0, node, room => (.ok (), node, room)
  | l + 1, node, room =>
    if l + 1 ≤ target then (.ok (), node, room)
    else
      let slot := digit 512 (l + 1) p
      let entry := node.entries slot
      if !entry.isValid then (.ok (), node, room)
      else match
          if entry.isLeaf then node.grow slot (shatter entry l) room else (.ok node, room) with
        | (.error e, room) => (.error e, node, room)
        | (.ok node, room) =>
          match node.child slot with
          | none => (.error .notMapped, node, room)
          | some c =>
            match splitAt target p l c room with
            | (answer, c, room) => (answer, node.setChild slot c, room)

/-- Whether a leaf of `level` over the first page (`atStart`) or the last of a range of `size` pages
stays inside the range. -/
def covered (level point size : Nat) (atStart : Bool) : Bool :=
  let offset := point % span level
  if atStart then offset = 0 && span level ≤ size
  else offset + 1 = span level && span level ≤ size

/-- The loop of `prepare_with` at one end of the range; every round takes the leaf over the end one
level down. -/
def prepareEnd (top point size : Nat) (atStart : Bool) : (fuel : Nat) → TableNode → (room : Nat) →
    Except NestError Unit × TableNode × Nat
  | 0, node, room => (.ok (), node, room)
  | n + 1, node, room =>
    match leafRef point top node with
    | .error e => (.error e, node, room)
    | .ok (entry, level) =>
      if !entry.isValid || level = 0 then (.ok (), node, room)
      else if covered level point size atStart then (.ok (), node, room)
      else match splitAt (level - 1) point top node room with
        | (.error e, node, room) => (.error e, node, room)
        | (.ok (), node, room) => prepareEnd top point size atStart n node room

/-- `prepare_geometry`. -/
def prepareWith (top va size : Nat) (node : TableNode) (room : Nat) :
    Except NestError Unit × TableNode × Nat :=
  if size = 0 then (.ok (), node, room)
  else match prepareEnd top va size true (top + 1) node room with
    | (.error e, node, room) => (.error e, node, room)
    | (.ok (), node, room) => prepareEnd top (va + (size - 1)) size false (top + 1) node room

/-! ## Mapping a range -/

/-- The greatest level, at most the given one, at which an entry fits what is left of the range. -/
def chunkLevel (v pa size : Nat) : Nat → Nat
  | 0 => 0
  | t + 1 =>
    if size < span (t + 1) ∨ v % span (t + 1) ≠ 0 ∨ pa % span (t + 1) ≠ 0 then
      chunkLevel v pa size t
    else t + 1

/-- The level a chunk starts from. -/
def maxLevel (top : Nat) : Nat := min 2 top

/-- The inner loop of `prepare_range`: past the tables that are there already. -/
def prepareChunk (top v : Nat) : (target : Nat) → TableNode → (room : Nat) →
    Except NestError Nat × TableNode × Nat
  | target, node, room =>
    match entryAt target v top node room with
    | (.error e, node, room) => (.error e, node, room)
    | (.ok entry, node, room) =>
      if !entry.isValid then (.ok target, node, room)
      else match target with
        | 0 => (.error .alreadyMapped, node, room)
        | t + 1 =>
          if entry.isLeaf then (.error .alreadyMapped, node, room)
          else prepareChunk top v t node room

/-- The loop of `prepare_range`; a round takes at least one page. -/
def prepareLoop (top : Nat) : (fuel v pa size : Nat) → TableNode → (room : Nat) →
    Except NestError Unit × TableNode × Nat
  | 0, _, _, _, node, room => (.ok (), node, room)
  | n + 1, v, pa, size, node, room =>
    if size = 0 then (.ok (), node, room)
    else match prepareChunk top v (chunkLevel v pa size (maxLevel top)) node room with
      | (.error e, node, room) => (.error e, node, room)
      | (.ok target, node, room) =>
        prepareLoop top n (v + span target) (pa + span target) (size - span target) node room

def prepareRange (top va pa size : Nat) (node : TableNode) (room : Nat) :
    Except NestError Unit × TableNode × Nat :=
  if size = 0 then (.error .notAligned, node, room) else prepareLoop top size va pa size node room

/-- Part of a range that one entry maps. -/
structure Chunk where
  level : Nat
  va : Nat
  pa : Nat
  deriving DecidableEq, Repr

/-- The chunks that `map_range_prepared` writes, by alignment alone. -/
def chunks (top : Nat) : (fuel v pa size : Nat) → List Chunk
  | 0, _, _, _ => []
  | n + 1, v, pa, size =>
    if size = 0 then []
    else
      let target := chunkLevel v pa size (maxLevel top)
      ⟨target, v, pa⟩ :: chunks top n (v + span target) (pa + span target) (size - span target)

/-- Write the entries of a list of chunks. -/
def mapChunks (top : Nat) (flags : PteFlags) : List Chunk → TableNode → Option TableNode
  | [], node => some node
  | c :: cs, node =>
    match modifyAt c.level c.va (fun _ => { ppn := c.pa, flags := flags ||| .V }) top node with
    | none => none
    | some node => mapChunks top flags cs node

def mapRange (top va pa size : Nat) (flags : PteFlags) (node : TableNode) : Option TableNode :=
  mapChunks top flags (chunks top size va pa size) node

/-! ## Permissions -/

def setPermissions (top va : Nat) (flags : PteFlags) (node : TableNode) : Option TableNode :=
  modifyAt 0 va (fun e => { e with flags := (e.flags &&& ~~~PteFlags.rwx) ||| flags }) top node

/-! ## Unmapping -/

/-- The loop body of `clear_leaf_range`, given what clears a child. -/
def clearSlot (clearChild : TableNode → TableNode) (node : TableNode) (slot : Nat) : TableNode :=
  let entry := node.entries slot
  if !entry.isValid then node
  else if entry.isLeaf then node.setEntry slot {}
  else match node.child slot with
    | none => node
    | some c => node.setChild slot (clearChild c)

/-- The slots of a table at `base` that a range meets. -/
def metSlots (start stop level base : Nat) : List Nat :=
  let first := (max start base - base) / span level
  let last := (min stop (base + span level * 512) - base - 1) / span level
  List.range' first (last + 1 - first)

def clearSlots (clearChild : Nat → TableNode → TableNode) (node : TableNode) (slots : List Nat) :
    TableNode :=
  slots.foldl (fun node slot => clearSlot (clearChild slot) node slot) node

/-- `clear_leaf_range` on one table, given what clears the child under a slot. -/
def clearTable (start stop level base : Nat) (clearChild : Nat → TableNode → TableNode)
    (node : TableNode) : TableNode :=
  if stop ≤ base ∨ base + span level * 512 ≤ start then node
  else clearSlots clearChild node (metSlots start stop level base)

/-- Clear the leaves in `[start, stop)` below a table that starts at `base`. -/
def clearLeafRange (start stop : Nat) : (level base : Nat) → TableNode → TableNode
  | 0, base, node => clearTable start stop 0 base (fun _ c => c) node
  | l + 1, base, node =>
    clearTable start stop (l + 1) base
      (fun slot c => clearLeafRange start stop l (base + slot * span (l + 1)) c) node

def unmapPrepared (top va size : Nat) (node : TableNode) : TableNode :=
  clearLeafRange va (va + size) top 0 node

/-! ## Empty tables -/

/-- The loop of `prune_empty` over the children, given what prunes one: those it has kept, those it
has not looked at, of which the last takes the place of one that is taken out. -/
def pruneLoop (prune : TableNode → TableNode × Bool × List TableNode) :
    (fuel : Nat) → (kept todo : List (Nat × TableNode)) → (Nat → Entry) →
      (retired : List TableNode) →
    List (Nat × TableNode) × (Nat → Entry) × List TableNode
  | n + 1, kept, (slot, c) :: todo, entries, retired =>
    match prune c with
    | (c, true, below) =>
      pruneLoop prune n kept (todo.getLast?.toList ++ todo.dropLast)
        (fun i => if i = slot then {} else entries i) (retired ++ below ++ [c])
    | (c, false, below) => pruneLoop prune n (kept ++ [(slot, c)]) todo entries (retired ++ below)
  | _, kept, todo, entries, retired => (kept ++ todo, entries, retired)

/-- `prune_empty` on one table, given what prunes a child. -/
def pruneTable (prune : TableNode → TableNode × Bool × List TableNode) (node : TableNode) :
    TableNode × Bool × List TableNode :=
  match pruneLoop prune node.children.length [] node.children node.entries [] with
  | (children, entries, retired) =>
    (mk entries children, (List.range 512).all fun i => !(entries i).isValid, retired)

/-- Take out the tables without a valid entry; the answer is whether this one has none, and the
tables taken out. -/
def pruneEmpty : (level : Nat) → TableNode → TableNode × Bool × List TableNode
  | 0, node => pruneTable (fun c => (c, false, [])) node
  | l + 1, node => pruneTable (pruneEmpty l) node

/-- `reclaim_empty_tables`. -/
def reclaimEmptyTables (top : Nat) (node : TableNode) : TableNode × List TableNode :=
  match pruneEmpty top node with
  | (node, _, retired) => (node, retired)

end TableNode

end Sqware.Nest
