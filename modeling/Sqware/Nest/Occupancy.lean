import Sqware.Lib.Spans
import Sqware.Machine.Word

/-!
# The address occupancy table of a Nest

`Occupancy` is one ordered table of inclusive spans.  A slot carries the generation `id` of the
reservation it belongs to and a retirement `ticket`, `0` while the span is still in use.
Windows only bound where `Lowest` and `Highest` may choose; fixed spans go through the same
overlap check.

Allocation failure is an argument of the operation that allocates (`room`), and the global
counters of generations and of tickets are passed in and out.
-/

namespace Sqware.Nest

open Spans

inductive NestError
  | outOfMemory | alreadyMapped | notAligned | notMapped | noRegion | dramOverlap
  | widenDenied | shootdown | pinned | missing | busy
  deriving DecidableEq, Repr

inductive RegionId
  | normal | kernel | resource | static
  deriving DecidableEq, Repr

inductive PlacementAt
  | lowest | highest
  | exact (start : Nat)
  deriving DecidableEq, Repr

/-- A request for a span; `Placement::new` is the only way to one. -/
structure Placement where
  region : RegionId
  size : Nat
  align : Nat
  at' : PlacementAt
  size_pos : 0 < size
  size_paged : pageSize ∣ size
  align_pow : align.isPowerOfTwo
  exact_aligned : ∀ start, at' = .exact start → pageSize ∣ start ∧ align ∣ start

/-- The check `Placement::new` makes of an `Exact` start. -/
def PlacementAt.Aligned (align : Nat) : PlacementAt → Prop
  | .exact start => pageSize ∣ start ∧ align ∣ start
  | _ => True

instance (align : Nat) : (at' : PlacementAt) → Decidable (at'.Aligned align)
  | .exact start => inferInstanceAs (Decidable (pageSize ∣ start ∧ align ∣ start))
  | .lowest | .highest => inferInstanceAs (Decidable True)

theorem PlacementAt.Aligned.exact {align : Nat} {at' : PlacementAt} (h : at'.Aligned align)
    (start : Nat) (hs : at' = .exact start) : pageSize ∣ start ∧ align ∣ start := by
  subst hs
  exact h

def Placement.new (region : RegionId) (size align : Nat) (at' : PlacementAt) :
    Except NestError Placement :=
  if hs : 0 < size ∧ pageSize ∣ size ∧ align.isPowerOfTwo then
    if ha : at'.Aligned align then
      .ok ⟨region, size, align, at', hs.1, hs.2.1, hs.2.2, ha.exact⟩
    else .error .notAligned
  else .error .notAligned

structure Window where
  id : RegionId
  base : Nat
  last : Nat
  deriving DecidableEq, Repr

structure Slot where
  start : Nat
  last : Nat
  ticket : Nat
  id : Nat
  region : RegionId
  deriving DecidableEq, Repr

instance : Spanned Slot := ⟨Slot.start, Slot.last⟩

@[simp] theorem lo_slot (s : Slot) : lo s = s.start := rfl

@[simp] theorem hi_slot (s : Slot) : hi s = s.last := rfl

/-- The table; of the prepared cleanup nodes only the generations they are for. -/
structure Occupancy where
  windows : List Window := []
  slots : List Slot := []
  cleanups : List Nat := []
  deriving Repr

namespace Occupancy

/-! ## Algorithm -/

def attach (o : Occupancy) (room : Bool) (id : RegionId) (base last : Nat) :
    Except NestError Occupancy :=
  if last < base ∨ id = .static ∨ o.windows.any (·.id = id) then .error .noRegion
  else if room then .ok { o with windows := o.windows ++ [⟨id, base, last⟩] }
  else .error .outOfMemory

def advance (o : Occupancy) (id : RegionId) (base : Nat) : Except NestError Occupancy :=
  match o.windows.findIdx? (·.id = id) with
  | none => .error .noRegion
  | some i =>
    match o.windows[i]? with
    | none => .error .noRegion
    | some window =>
      if base < window.base ∨ window.last < base then .error .noRegion
      else .ok { o with windows := o.windows.set i { window with base } }

def window (o : Occupancy) (id : RegionId) : Except NestError Window :=
  match o.windows.find? (·.id = id) with
  | some window => .ok window
  | none => .error .noRegion

/-- The sweep of `free_spans` from the slot it looks at next and the address it has reached. -/
def sweep (last : Nat) : List Slot → Nat → List (Nat × Nat)
  | [], at' => if at' ≤ last then [(at', last)] else []
  | slot :: slots, at' =>
    if slot.last < at' then sweep last slots at'
    else if last < slot.start then (if at' ≤ last then [(at', last)] else [])
    else
      let gap := if at' < slot.start then [(at', min (slot.start - 1) last)] else []
      match checkedAdd slot.last 1 with
      | some next => gap ++ sweep last slots (max at' next)
      | none => gap

def freeSpans (o : Occupancy) (room : Bool) (window : Window) :
    Except NestError (List (Nat × Nat)) :=
  if room then .ok (sweep window.last o.slots window.base) else .error .outOfMemory

/-- `Lowest`: the first aligned start in a free span that leaves room for the size. -/
def lowestIn (size align : Nat) (span : Nat × Nat) : Option Nat :=
  match checkedNextMultipleOf span.1 align with
  | none => none
  | some at' =>
    match checkedSub span.2 at' with
    | none => none
    | some gap => if size - 1 ≤ gap then some at' else none

/-- `Highest`: the last start in a free span that leaves room for the size. -/
def highestIn (size : Nat) (span : Nat × Nat) : Option Nat :=
  match checkedSub span.2 (size - 1) with
  | none => none
  | some at' => if span.1 ≤ at' then some at' else none

/-- The start that `reserve` picks for a placement. -/
def choose (o : Occupancy) (room : Bool) (p : Placement) : Except NestError Nat :=
  match p.at' with
  | .exact start => .ok start
  | .lowest => do
    let window ← o.window p.region
    let spans ← o.freeSpans room window
    match spans.findSome? (lowestIn p.size p.align) with
    | some at' => .ok at'
    | none => .error .outOfMemory
  | .highest => do
    let window ← o.window p.region
    let spans ← o.freeSpans room window
    match spans.reverse.findSome? (highestIn p.size) with
    | some at' => .ok at'
    | none => .error .outOfMemory

/-- Registers a span between its neighbours; the new counter of generations comes second. -/
def insert (o : Occupancy) (ids : Nat) (room : Bool) (region : RegionId) (start last : Nat) :
    Except NestError (Occupancy × Nat) × Nat :=
  let before := o.slots.takeWhile (·.start < start)
  let after := o.slots.dropWhile (·.start < start)
  if before.getLast?.any (start ≤ ·.last) || after.head?.any (·.start ≤ last) then
    (.error .noRegion, ids)
  else if !room then (.error .outOfMemory, ids)
  else
    match nextId ids with
    | none => (.error .outOfMemory, ids)
    | some (id, ids) =>
      (.ok ({ o with slots := before ++ ⟨start, last, 0, id, region⟩ :: after }, id), ids)

def reserve (o : Occupancy) (ids : Nat) (spansRoom slotRoom : Bool) (p : Placement) :
    Except NestError (Occupancy × Nat × Nat) × Nat :=
  match o.choose spansRoom p with
  | .error e => (.error e, ids)
  | .ok start =>
    match checkedAdd start (p.size - 1) with
    | none => (.error .noRegion, ids)
    | some last =>
      match o.insert ids slotRoom p.region start last with
      | (.error e, ids) => (.error e, ids)
      | (.ok (o, id), ids) => (.ok (o, start, id), ids)

/-- The un-retired slot with these very end points and generation. -/
def Slot.matches (start last id : Nat) (slot : Slot) : Bool :=
  slot.start = start ∧ slot.last = last ∧ slot.ticket = 0 ∧ slot.id = id

def split (o : Occupancy) (ids : Nat) (room : Bool) (start last id leftSize : Nat) :
    Except NestError (Occupancy × Nat × Nat × Nat) × Nat :=
  let size := (last - start + 1) % usizeSize
  if leftSize = 0 ∨ size ≤ leftSize ∨ ¬ pageSize ∣ leftSize ∨ ¬ pageSize ∣ size then
    (.error .notAligned, ids)
  else
    match o.slots.findIdx? (Slot.matches start last id) with
    | none => (.error .noRegion, ids)
    | some at' =>
      if !room then (.error .outOfMemory, ids)
      else
        match nextId ids, o.slots[at']? with
        | some (leftId, ids), some slot =>
          match nextId ids with
          | none => (.error .outOfMemory, ids)
          | some (rightId, ids) =>
            let right := start + leftSize
            let slots := o.slots.set at' ⟨start, right - 1, 0, leftId, slot.region⟩
            let slots := slots.insertIdx (at' + 1) ⟨right, last, 0, rightId, slot.region⟩
            (.ok ({ o with slots }, right, leftId, rightId), ids)
        | _, _ => (.error .outOfMemory, ids)

def release (o : Occupancy) (start last id : Nat) : Occupancy × Bool :=
  match o.slots.findIdx? (Slot.matches start last id) with
  | some at' =>
    ({ o with slots := o.slots.eraseIdx at', cleanups := o.cleanups.filter (· ≠ id) }, true)
  | none => (o, false)

def prepareCleanup (o : Occupancy) (room : Bool) (id : Nat) : Except NestError Occupancy :=
  if id ∈ o.cleanups then .ok o
  else if room then .ok { o with cleanups := o.cleanups ++ [id] }
  else .error .outOfMemory

def takeCleanup (o : Occupancy) (id : Nat) : Occupancy × Bool :=
  if id ∈ o.cleanups then ({ o with cleanups := o.cleanups.erase id }, true) else (o, false)

def hasId (o : Occupancy) (id : Nat) : Bool := o.slots.any (·.id = id)

/-- The loop of `pieces`, from the slot it looks at next and the address it has to reach from. -/
def piecesFrom (last id : Nat) : List Slot → Nat → Except NestError (List (Nat × Nat × Nat))
  | [], _ => .error .noRegion
  | slot :: slots, at' =>
    if slot.last < at' then piecesFrom last id slots at'
    else if last < slot.start then .error .noRegion
    else if slot.id ≠ id ∨ at' < slot.start then .error .noRegion
    else
      let hi := min slot.last last
      if hi = last then .ok [(at', hi, slot.ticket)]
      else do
        let rest ← piecesFrom last id slots (hi + 1)
        .ok ((at', hi, slot.ticket) :: rest)

def pieces (o : Occupancy) (room : Bool) (start last id : Nat) :
    Except NestError (List (Nat × Nat × Nat)) :=
  if room then piecesFrom last id o.slots start else .error .outOfMemory

/-- What the loop of `retire` puts in the place of one slot. -/
def cut (start last id ticket : Nat) (slot : Slot) : List Slot :=
  if slot.ticket ≠ 0 ∨ slot.id ≠ id ∨ slot.last < start ∨ last < slot.start then [slot]
  else
    (if slot.start < start then [{ slot with last := start - 1, ticket := 0 }] else []) ++
    { slot with start := max slot.start start, last := min slot.last last, ticket } ::
    (if last < slot.last then [{ slot with start := last + 1, ticket := 0 }] else [])

/-- Cuts under the ticket that the global counter hands out. -/
def retire (o : Occupancy) (ticket start last id : Nat) : Occupancy :=
  { o with slots := o.slots.flatMap (cut start last id ticket) }

def reclaim (o : Occupancy) (ticket : Nat) : Occupancy :=
  let slots := o.slots.filter (·.ticket ≠ ticket)
  match o.slots.find? (·.ticket = ticket) with
  | some slot =>
    if slots.any (·.id = slot.id) then { o with slots }
    else { o with slots, cleanups := o.cleanups.filter (· ≠ slot.id) }
  | none => { o with slots }

end Occupancy

end Sqware.Nest
