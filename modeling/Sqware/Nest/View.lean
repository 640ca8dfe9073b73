import Sqware.Nest.Table

/-!
# Views

A View is one relation of a Nest: a reserved span, the source it shows, the active ranges with their
permissions, and the pages that were published with the frames behind them.  As in the tables,
everything is in pages, and a range is given by its first and its last page.
-/

namespace Sqware.Nest

/-! ## Permissions -/

abbrev Access := BitVec 3

namespace Access

def read : Access := 1#3
def write : Access := 2#3

def contains (a b : Access) : Bool := a &&& b = b

/-- Some of `RWX`, and no writing without reading. -/
def isLeafSet (a : Access) : Bool := a ≠ 0#3 && !(a.contains write && !a.contains read)

def toPte (a : Access) : PteFlags := a.setWidth 8 <<< 1

end Access

/-- A permission a leaf can have. -/
abbrev LeafAccess := { a : Access // a.isLeafSet = true }

/-! ## Active ranges -/

/-- `ActiveRange::new` is the only way to a range, and what is cut out of one keeps its check. -/
structure ActiveRange where
  start : Nat
  size : Nat
  pos : 0 < size
  ceiling : Access
  current : LeafAccess

namespace ActiveRange

variable (r : ActiveRange)

/-- `end`. -/
def last : Nat := r.start + (r.size - 1)

def contains (p : Nat) : Bool := r.start ≤ p && p ≤ r.last

def overlaps (lo hi : Nat) : Bool := r.start ≤ hi && lo ≤ r.last

/-- Whether ranges in order cover all pages from `from'` to `hi`. -/
def cover : List ActiveRange → (from' hi : Nat) → Bool
  | [], _, _ => false
  | r :: rs, from', hi =>
    if r.last < from' then cover rs from' hi
    else if from' < r.start then false
    else if hi ≤ r.last then true
    else cover rs (r.last + 1) hi

def currentAt (rs : List ActiveRange) (p : Nat) : Option LeafAccess :=
  (rs.find? (·.contains p)).map (·.current)

/-- The part of a range before `lo`, if there is one. -/
def before (lo : Nat) : List ActiveRange :=
  if h : r.start < lo then [{ r with size := lo - r.start, pos := by omega }] else []

/-- The part after `hi`. -/
def after (hi : Nat) : List ActiveRange :=
  if h : hi < r.last then [{ r with start := hi + 1, size := r.last - hi, pos := by omega }] else []

/-- The part in between, with other permissions. -/
def middle (lo hi : Nat) (ceiling : Access) (current : LeafAccess) : ActiveRange :=
  { start := max r.start lo, size := min r.last hi - max r.start lo + 1, pos := by omega,
    ceiling, current }

def splitOne (lo hi : Nat) (access : Option LeafAccess) : List ActiveRange :=
  if !r.overlaps lo hi then [r]
  else r.before lo ++ access.toList.map (r.middle lo hi r.ceiling ·) ++ r.after hi

/-- Take `[lo, hi]` out, or change the permission there. -/
def split (rs : List ActiveRange) (lo hi : Nat) (access : Option LeafAccess) : List ActiveRange :=
  rs.flatMap fun r => r.splitOne lo hi access

def narrowOne (lo hi : Nat) (ceiling : Access) : Except NestError (List ActiveRange) :=
  if !r.overlaps lo hi then .ok [r]
  else if !r.ceiling.contains ceiling then .error .widenDenied
  else if h : (r.current.1 &&& ceiling).isLeafSet = true then
    .ok (r.before lo ++ [r.middle lo hi ceiling ⟨r.current.1 &&& ceiling, h⟩] ++ r.after hi)
  else .error .widenDenied

/-- Lower the ceiling in `[lo, hi]`, and the permission with it. -/
def narrow (lo hi : Nat) (ceiling : Access) : List ActiveRange → Except NestError (List ActiveRange)
  | [] => .ok []
  | r :: rs =>
    match r.narrowOne lo hi ceiling with
    | .error e => .error e
    | .ok part =>
      match narrow lo hi ceiling rs with
      | .error e => .error e
      | .ok next => .ok (part ++ next)

end ActiveRange

/-! ## Runs of frames -/

/-- Pages next to each other, backed by frames next to each other, under one permission. -/
structure FrameRun where
  start : Nat
  physical : Nat
  size : Nat
  current : LeafAccess
  deriving DecidableEq

/-- Whether the frame `next` goes on a run that ends with `previous`. -/
def joins (base : Nat) (active : List ActiveRange) (current : LeafAccess)
    (previous next : Nat × Nat) : Bool :=
  next.1 = previous.1 + 1 && next.2 = previous.2 + 1 &&
    (ActiveRange.currentAt active (base + next.1)).any (·.1 = current.1)

/-- How many frames go on a run, and the frames after them. -/
def joined (base : Nat) (active : List ActiveRange) (current : LeafAccess) :
    (previous : Nat × Nat) → List (Nat × Nat) → Nat × List (Nat × Nat)
  | _, [] => (0, [])
  | previous, next :: rest =>
    if joins base active current previous next then
      let (n, rest) := joined base active current next rest
      (n + 1, rest)
    else (0, next :: rest)

/-- The iterator `FrameRuns`; a frame outside the ranges is an error, and the next run starts after
it. -/
def frameRuns (base : Nat) (active : List ActiveRange) :
    (fuel : Nat) → List (Nat × Nat) → List (Except NestError FrameRun)
  | n + 1, first :: rest =>
    match ActiveRange.currentAt active (base + first.1) with
    | none => .error .noRegion :: frameRuns base active n rest
    | some current =>
      let (more, rest) := joined base active current first rest
      .ok ⟨base + first.1, first.2, more + 1, current⟩ :: frameRuns base active n rest
  | _, _ => []

/-! ## Views -/

/-- What a View shows: memory lent by its first page, or frames that are there page by page. -/
inductive Source
  | borrowed (base : Nat)
  | managed
  deriving DecidableEq

/-- The span and the attributes of a View do not change. -/
structure View where
  id : Nat
  start : Nat
  pages : Nat
  attrs : PteFlags
  architectural : PteFlags.intersects attrs (.V ||| .rwx) = false
  source : Source
  active : List ActiveRange
  published : List (Nat × Nat) := []

namespace View

variable (v : View)

def last : Nat := v.start + (v.pages - 1)

def leafFlags (current : Access) : PteFlags := .V ||| current.toPte ||| v.attrs

def isGlobal : Bool := PteFlags.contains v.attrs .G

def covers (lo hi : Nat) : Bool := ActiveRange.cover v.active lo hi

def overlaps (lo hi : Nat) : Bool := v.active.any (·.overlaps lo hi)

def publishes (page : Nat) : Bool := v.published.any (·.1 = page)

def borrows : Bool :=
  match v.source with
  | .borrowed _ => true
  | .managed => false

/-- Put a record in its place by page. -/
def publish (page frame : Nat) : View :=
  { v with published :=
      v.published.takeWhile (·.1 < page) ++ (page, frame) :: v.published.dropWhile (·.1 < page) }

/-- The runs of some frames. -/
def runs (frames : List (Nat × Nat)) : List (Except NestError FrameRun) :=
  frameRuns v.start v.active frames.length frames

end View

end Sqware.Nest
