import Sqware.Nest.OccupancyRun
import Sqware.Nest.View

/-!
# A Nest

The state of an address space under its lock, and the sections in which the operations change it:
attaching a View, publishing pages, changing permissions, withdrawing a span, taking one page back
and closing.  Every section is a function of the state it finds; the shootdown that has to follow it
is a section of its own, so that other calls come between.

The index holds the Views that have an active range left; of its shape nothing is kept.  What a
section allocates is the argument `room`, and what the source of a View answers is an argument too.
-/

namespace Sqware.Nest

open TableNode

inductive Invalidation
  | clean | dirty | fencing | failed
  deriving DecidableEq, Repr

inductive ClosePhase
  | opened | closing | closed
  deriving DecidableEq, Repr

def ClosePhase.settle : ClosePhase → ClosePhase
  | .closing => .closed
  | phase => phase

/-- `NestState`, with the Views that were ever installed. -/
structure NestState where
  root : TableNode := .leaf
  views : List View := []
  retiredFrames : List Nat := []
  retiredTables : List TableNode := []
  invalidation : Invalidation := .clean
  retirement : List Nat := []
  phase : ClosePhase := .opened

/-- A span of a Nest in hand, in pages. -/
@[ext]
structure Reservation where
  id : Nat
  start : Nat
  pages : Nat
  pos : 0 < pages

instance : DecidableEq Reservation := fun _ _ => decidable_of_iff _ Reservation.ext_iff.symm

namespace Reservation

def firstByte (r : Reservation) : Nat := r.start * pageSize

def lastByte (r : Reservation) : Nat := r.start * pageSize + (r.pages * pageSize - 1)

end Reservation

/-- The frames that a source has for `count` pages: by page, in order. -/
structure Materialized (count : Nat) where
  frames : List (Nat × Nat)
  sorted : frames.Pairwise fun x y => x.1 < y.1
  bounded : ∀ x ∈ frames, x.1 < count

namespace View

/-- `View::new` on a reservation. -/
def new (r : Reservation) (attrs : PteFlags)
    (architectural : PteFlags.intersects attrs (.V ||| .rwx) = false) (active : List ActiveRange)
    (source : Source) : Except NestError View :=
  if active = [] then .error .notAligned
  else if active.any fun range => range.start < r.start || r.start + (r.pages - 1) < range.last then
    .error .noRegion
  else if (active.zip active.tail).any fun pair => pair.2.start ≤ pair.1.last then
    .error .alreadyMapped
  else .ok { id := r.id, start := r.start, pages := r.pages, attrs, architectural, source, active }

/-- The runs a View is installed with: those of its frames, or its ranges over lent memory. -/
def installRuns (v : View) (frames : List (Nat × Nat)) : List (Except NestError FrameRun) :=
  match v.source with
  | .managed => v.runs frames
  | .borrowed base =>
    v.active.map fun r => .ok ⟨r.start, base + (r.start - v.start), r.size, r.current⟩

/-- The frames that a View is installed with: those in its active ranges. -/
def installFrames (v : View) (frames : List (Nat × Nat)) : List (Nat × Nat) :=
  match v.source with
  | .managed => frames.filter fun x => v.covers (v.start + x.1) (v.start + x.1)
  | .borrowed _ => []

/-- Of the frames a source has from page `first` on, those that are not published. -/
def fresh (v : View) (first : Nat) (frames : List (Nat × Nat)) : List (Nat × Nat) :=
  (frames.map fun x => (first - v.start + x.1, x.2)).filter fun x => !v.publishes x.1

def publishAll (v : View) (frames : List (Nat × Nat)) : View :=
  frames.foldl (fun v x => v.publish x.1 x.2) v

/-- The records of a View on pages `lo` to `hi`, and those elsewhere. -/
def publishedIn (v : View) (lo hi : Nat) : List (Nat × Nat) :=
  v.published.filter fun x => lo ≤ v.start + x.1 && v.start + x.1 ≤ hi

def publishedOut (v : View) (lo hi : Nat) : List (Nat × Nat) :=
  v.published.filter fun x => !(lo ≤ v.start + x.1 && v.start + x.1 ≤ hi)

end View

/-! ## Loops over runs and pages -/

def prepareRuns (top : Nat) : List (Except NestError FrameRun) → TableNode → (room : Nat) →
    Except NestError Unit × TableNode × Nat
  | [], node, room => (.ok (), node, room)
  | .error e :: _, node, room => (.error e, node, room)
  | .ok r :: rs, node, room =>
    match prepareRange top r.start r.physical r.size node room with
    | (.error e, node, room) => (.error e, node, room)
    | (.ok (), node, room) => prepareRuns top rs node room

/-- Map the runs of a View; no answer where an entry is missing, which stops the kernel. -/
def mapRuns (top : Nat) (v : View) : List (Except NestError FrameRun) → TableNode →
    Option (Except NestError Unit × TableNode)
  | [], node => some (.ok (), node)
  | .error e :: _, node => some (.error e, node)
  | .ok r :: rs, node =>
    match mapRange top r.start r.physical r.size (v.leafFlags r.current.1) node with
    | none => none
    | some node => mapRuns top v rs node

/-- The first loop of `set_access` and `narrow`: split down to each page that is mapped, and check
that it is.  `permission` is what a page is to have. -/
def prepareUpdates (top : Nat) (v : View) (permission : Nat → Option LeafAccess) :
    List Nat → TableNode → (room : Nat) →
    Except NestError (List (Nat × LeafAccess)) × TableNode × Nat
  | [], node, room => (.ok [], node, room)
  | p :: ps, node, room =>
    match permission p with
    | none => (.error .noRegion, node, room)
    | some current =>
      if v.borrows || v.publishes (p - v.start) then
        match prepareWith top p 1 node room with
        | (.error e, node, room) => (.error e, node, room)
        | (.ok (), node, room) =>
          match walkRef top node p with
          | .error e => (.error e, node, room)
          | .ok _ =>
            match prepareUpdates top v permission ps node room with
            | (.error e, node, room) => (.error e, node, room)
            | (.ok updates, node, room) => (.ok ((p, current) :: updates), node, room)
      else prepareUpdates top v permission ps node room

def writeUpdates (top : Nat) (v : View) : List (Nat × LeafAccess) → TableNode → Option TableNode
  | [], node => some node
  | (p, current) :: updates, node =>
    match setPermissions top p (v.leafFlags current.1) node with
    | none => none
    | some node => writeUpdates top v updates node

def prepareRanges (top : Nat) : List ActiveRange → TableNode → (room : Nat) →
    Except NestError Unit × TableNode × Nat
  | [], node, room => (.ok (), node, room)
  | r :: rs, node, room =>
    match prepareWith top r.start r.size node room with
    | (.error e, node, room) => (.error e, node, room)
    | (.ok (), node, room) => prepareRanges top rs node room

/-- `unmap_keep_tables` on each range. -/
def unmapRanges (top : Nat) : List ActiveRange → TableNode → (room : Nat) →
    Except NestError Unit × TableNode × Nat
  | [], node, room => (.ok (), node, room)
  | r :: rs, node, room =>
    match prepareWith top r.start r.size node room with
    | (.error e, node, room) => (.error e, node, room)
    | (.ok (), node, room) => unmapRanges top rs (unmapPrepared top r.start r.size node) room

/-- The loop of `withdraw` over the pieces of its span: a piece in use is retired under the next
ticket.  No answer when the tickets are used up, which an assertion stops. -/
def retirePieces (id : Nat) : List (Nat × Nat × Nat) → Occupancy.State →
    Option (Occupancy.State × List Nat)
  | [], o => some (o, [])
  | (lo, hi, ticket) :: ps, o =>
    if ticket = 0 then
      if o.tickets = usizeSize then none
      else
        let next := { o with occ := o.occ.retire o.tickets lo hi id, tickets := o.tickets + 1 }
        (retirePieces id ps next).map fun (o', tickets) => (o', o.tickets :: tickets)
    else (retirePieces id ps o).map fun (o', tickets) => (o', ticket :: tickets)

/-! ## Sections -/

namespace NestState

variable (top : Nat) (s : NestState)

/-- `ready_state`: no answer while the caller has to wait for a shootdown. -/
def ready : Option (Except NestError Unit) :=
  if s.phase = .closed then some (.error .noRegion)
  else match s.invalidation with
    | .clean => some (.ok ())
    | .failed => some (.error .shootdown)
    | .dirty | .fencing => none

def view (id : Nat) : Option View := s.views.find? (·.id = id)

/-- The View at a page, from the index. -/
def find (p : Nat) : Option View := s.views.find? (·.overlaps p p)

def firstOverlap (lo hi : Nat) : Option View := s.views.find? (·.overlaps lo hi)

def put (v : View) : NestState :=
  { s with views := s.views.map fun w => if w.id = v.id then v else w }

/-- The section of `commit` under the state lock. -/
def install (v : View) (frames : List (Nat × Nat)) (room : Nat) :
    Option (Except NestError Unit × NestState) :=
  if (s.firstOverlap v.start v.last).isSome then some (.error .alreadyMapped, s)
  -- the place among the pending Views, and the registration with the source
  else if room < 2 then some (.error .outOfMemory, s)
  else
    let frames := v.installFrames frames
    match prepareRuns top (v.installRuns frames) s.root (room - 2) with
    | (.error e, root, _) => some (.error e, { s with root })
    | (.ok (), root, _) =>
      match mapRuns top v (v.installRuns frames) root with
      | none => none
      | some (.error e, root) => some (.error e, { s with root })
      | some (.ok (), root) =>
        some (.ok (),
          { s with root, views := s.views ++ [v.publishAll frames], invalidation := .dirty })

/-- `publish_span` on `len` pages from `first`; `frames` is what the source has for them. -/
def publishSpan (v : View) (first len : Nat) (frames : List (Nat × Nat)) (room : Nat) :
    Option (Except NestError Unit × NestState) :=
  if len = 0 then some (.error .notAligned, s)
  else if !v.covers first (first + (len - 1)) then some (.error .noRegion, s)
  else if v.borrows then some (.ok (), s)
  else
    let fresh := v.fresh first frames
    if fresh = [] then some (.ok (), s)
    else if room < 3 then some (.error .outOfMemory, s)
    else
      match prepareRuns top (v.runs fresh) s.root (room - 3) with
      | (.error e, root, _) => some (.error e, { s with root })
      | (.ok (), root, _) =>
        match mapRuns top v (v.runs fresh) root with
        | none => none
        | some (.error e, root) => some (.error e, { s with root })
        | some (.ok (), root) =>
          some (.ok (), { { s with root }.put (v.publishAll fresh) with invalidation := .dirty })

/-- What `set_access` and `narrow` do with the new ranges. -/
def reshape (v : View) (lo hi : Nat) (next : List ActiveRange)
    (permission : Nat → Option LeafAccess) (room : Nat) :
    Option (Except NestError Unit × NestState) :=
  match prepareUpdates top v permission (List.range' lo (hi + 1 - lo)) s.root room with
  | (.error e, root, _) => some (.error e, { s with root })
  | (.ok updates, root, room) =>
    if room < 1 then some (.error .outOfMemory, { s with root })
    else
      match writeUpdates top v updates root with
      | none => none
      | some root =>
        some (.ok (), { { s with root }.put { v with active := next } with invalidation := .dirty })

def setAccess (v : View) (lo hi : Nat) (access : Access) (room : Nat) :
    Option (Except NestError Unit × NestState) :=
  if h : access.isLeafSet = true then
    if !v.covers lo hi then some (.error .noRegion, s)
    else if v.active.any fun r => r.overlaps lo hi && !r.ceiling.contains access then
      some (.error .widenDenied, s)
    else if room < 2 then some (.error .outOfMemory, s)
    else
      s.reshape top v lo hi (ActiveRange.split v.active lo hi (some ⟨access, h⟩))
        (fun _ => some ⟨access, h⟩) (room - 2)
  else some (.error .notAligned, s)

def narrow (v : View) (lo hi : Nat) (ceiling : Access) (room : Nat) :
    Option (Except NestError Unit × NestState) :=
  if !v.covers lo hi then some (.error .noRegion, s)
  else if room < 2 then some (.error .outOfMemory, s)
  else
    match ActiveRange.narrow lo hi ceiling v.active with
    | .error e => some (.error e, s)
    | .ok next => s.reshape top v lo hi next (ActiveRange.currentAt next) (room - 2)

/-- The section of `withdraw` under both locks; the answer is the tickets of the span. -/
def withdraw (v : View) (start len : Nat) (room : Nat) (o : Occupancy.State) :
    Option (Except NestError (List Nat) × Occupancy.State × NestState) :=
  if len = 0 then some (.error .notAligned, o, s)
  else
    match o.occ.pieces (0 < room) (start * pageSize)
      (start * pageSize + (len * pageSize - 1)) v.id with
    | .error e => some (.error e, o, s)
    | .ok pieces =>
      -- the cuts, the tickets, the ranges, the index node and the retired lists
      if room < 8 then some (.error .outOfMemory, o, s)
      else if s.phase = .closed then some (.error .noRegion, o, s)
      else if s.invalidation ≠ .clean then some (.error .shootdown, o, s)
      else
        match prepareWith top start len s.root (room - 8) with
        | (.error e, root, _) => some (.error e, o, { s with root })
        | (.ok (), root, room) =>
          if room < 1 then some (.error .outOfMemory, o, { s with root })
          else
            match retirePieces v.id pieces o with
            | none => none
            | some (o, tickets) =>
              let (root, tables) := reclaimEmptyTables top (unmapPrepared top start len root)
              let v' := { v with
                active := ActiveRange.split v.active start (start + (len - 1)) none,
                published := v.publishedOut start (start + (len - 1)) }
              some (.ok tickets, o, { { s with root }.put v' with
                retiredTables := s.retiredTables ++ tables,
                retiredFrames :=
                  s.retiredFrames ++
                    ((v.publishedIn start (start + (len - 1))).map Prod.snd).reverse,
                retirement := s.retirement ++ tickets,
                invalidation := .dirty })

/-- `unpublish_page`, once no shootdown is owed. -/
def unpublishPage (kernel : Bool) (v : View) (p frame : Nat) (room : Nat) :
    Option (Except NestError Unit × NestState) :=
  if kernel || v.isGlobal then some (.error .pinned, s)
  else if s.invalidation ≠ .clean then some (.error .shootdown, s)
  else
    match v.published.find? (·.1 = p - v.start) with
    | none => some (.ok (), s)
    | some held =>
      if s.phase = .closed then some (.error .pinned, s)
      -- the assertion on the frame that the transfer handed over
      else if held.2 ≠ frame then none
      else if room < 2 then some (.error .outOfMemory, s)
      else
        match prepareWith top p 1 s.root (room - 2) with
        | (.error e, root, _) => some (.error e, { s with root })
        | (.ok (), root, room) =>
          if room < 1 then some (.error .outOfMemory, { s with root })
          else
            let (root, tables) := reclaimEmptyTables top (unmapPrepared top p 1 root)
            some (.ok (), { { s with root }.put { v with published := v.published.erase held } with
              retiredTables := s.retiredTables ++ tables,
              retiredFrames := s.retiredFrames ++ [frame],
              invalidation := .dirty })

/-- The section of `close` in which all Views are taken down. -/
def close (kernel : Bool) (room : Nat) : Except NestError Unit × NestState :=
  if kernel then (.error .pinned, s)
  else if s.phase = .closed then (.ok (), s)
  else if room < 3 then (.error .outOfMemory, s)
  else
    let ranges := s.views.flatMap (·.active)
    match prepareRanges top ranges s.root (room - 3) with
    | (.error e, root, _) => (.error e, { s with root })
    | (.ok (), root, room) =>
      if room < 1 then (.error .outOfMemory, { s with root })
      else
        match unmapRanges top ranges root (room - 1) with
        | (.error e, root, _) => (.error e, { s with root })
        | (.ok (), root, _) =>
          let (root, tables) := reclaimEmptyTables top root
          (.ok (), { s with
            root,
            views := s.views.map fun v => { v with active := [], published := [] },
            retiredTables := s.retiredTables ++ tables,
            retiredFrames := s.retiredFrames ++ s.views.flatMap (·.published.map Prod.snd),
            invalidation := .dirty,
            phase := .closing })

end NestState

/-! ## Calls and their sections -/

/-- A page whose translation was cleared, the relation it belonged to, and which clearing it was. -/
structure Wipe where
  id : Nat
  page : Nat
  turn : Nat
  deriving DecidableEq, Repr

/-- What was cleared and what was confirmed so far: not in the kernel, but what is said about it.
`clears` counts the sections that clear entries, `started` those of them before the last shootdown
began, and `confirmed` those before the last successful one began; `listed` are the tickets that
were on the retirement list when a retry last saw that nothing is owed. -/
structure Fences where
  clears : Nat := 0
  started : Nat := 0
  confirmed : Nat := 0
  ticketTurn : Nat → Nat := fun _ => 0
  wipes : List Wipe := []
  listed : List Nat := []

/-- A Nest and the calls on it that are under way.  A reservation is in hand until its View is
installed; then its call waits for the shootdown, and if that fails it looks for the View in the
index and gives the span back when it is `lost`.  A withdrawal waits with its tickets, drops them
from the retirement list, and reclaims what is `due`; so does a retry with all tickets there are. -/
structure World where
  occ : Occupancy.State := {}
  st : NestState := {}
  loose : List Reservation := []
  attaching : List Reservation := []
  failed : List Reservation := []
  lost : List Reservation := []
  withdrawing : List (List Nat) := []
  withdrawn : List (List Nat) := []
  retrying : Nat := 0
  due : List (List Nat) := []
  log : Fences := {}

inductive Act
  | reserve (spansRoom slotRoom : Bool) (p : Placement)
  | elsewhere (ids tickets : Nat)
  | giveBack (r : Reservation)
  | prepareCleanup (room : Bool) (id : Nat)
  | takeCleanup (id : Nat)
  | install (r : Reservation) (attrs : PteFlags)
      (architectural : PteFlags.intersects attrs (.V ||| .rwx) = false) (active : List ActiveRange)
      (source : Source) (frames : Materialized r.pages) (room : Nat)
  | publish (id first len : Nat) (frames : Materialized len) (room : Nat)
  | setAccess (id lo hi : Nat) (access : Access) (room : Nat)
  | narrow (id lo hi : Nat) (ceiling : Access) (room : Nat)
  | withdraw (id start len : Nat) (room : Nat)
  | unpublish (id p frame : Nat) (room : Nat)
  | close (room : Nat)
  | fence
  | confirm
  | fail
  | attached (r : Reservation)
  | attachFailed (r : Reservation)
  | settleInstall (r : Reservation)
  | giveBackLost (r : Reservation)
  | withdrawalDone (tickets : List Nat)
  | withdrawalFailed (tickets : List Nat)
  | retain (tickets : List Nat)
  | retry
  | take
  | reclaim (tickets : List Nat)

namespace World

variable (w : World)

def giveBack (r : Reservation) : Occupancy.State :=
  { w.occ with occ := (w.occ.occ.release r.firstByte r.lastByte r.id).1 }

/-- Tickets and wipes of one clearing. -/
def clear (tickets : List Nat) (id : Nat) (pages : List Nat) : Fences :=
  { w.log with
    clears := w.log.clears + 1,
    ticketTurn := fun t => if t ∈ tickets then w.log.clears + 1 else w.log.ticketTurn t,
    wipes := w.log.wipes ++ pages.map fun p => ⟨id, p, w.log.clears + 1⟩ }

def settled (id : Nat) : Bool := w.st.phase = .closed || !w.occ.occ.hasId id

end World

/-- The active pages of a View from `start` on. -/
def View.activeIn (v : View) (start len : Nat) : List Nat :=
  (List.range' start len).filter fun p => v.covers p p

/-- Each section as it runs on the state it finds; nothing where it is not its turn. -/
def step (top : Nat) (kernel : Bool) (w : World) : Act → Option World
  | .reserve r₁ r₂ p =>
    match w.occ.occ.reserve w.occ.ids r₁ r₂ p with
    | (.error _, ids) => some { w with occ := { w.occ with ids } }
    | (.ok (occ, start, id), ids) =>
      -- spans begin at a page and are canonical
      if h : pageSize ∣ start ∧ start + p.size ≤ span (top + 1) * pageSize then
        some { w with
          occ := { w.occ with occ, ids },
          loose := ⟨id, start / pageSize, p.size / pageSize,
            Nat.div_pos (Nat.le_of_dvd p.size_pos p.size_paged) (by decide)⟩ :: w.loose }
      else none
  | .elsewhere ids tickets => some { w with occ := Occupancy.step w.occ (.elsewhere ids tickets) }
  | .giveBack r =>
    if r ∈ w.loose then some { w with occ := w.giveBack r, loose := w.loose.erase r } else none
  | .prepareCleanup room id => some { w with occ := Occupancy.step w.occ (.prepareCleanup room id) }
  | .takeCleanup id => some { w with occ := Occupancy.step w.occ (.takeCleanup id) }
  | .install r attrs architectural active source frames room =>
    if r ∈ w.loose then
      match View.new r attrs architectural active source with
      | .error _ => some { w with occ := w.giveBack r, loose := w.loose.erase r }
      | .ok v =>
        match w.st.ready with
        | none => none
        | some (.error _) => some w
        | some (.ok ()) =>
          match w.st.install top v frames.frames room with
          | none => none
          | some (.error _, st) => some { w with st }
          | some (.ok (), st) =>
            some { w with st, loose := w.loose.erase r, attaching := r :: w.attaching }
    else none
  | .publish id first len frames room =>
    match w.st.view id, w.st.ready with
    | some v, some (.ok ()) =>
      (w.st.publishSpan top v first len frames.frames room).map fun (_, st) => { w with st }
    | _, _ => none
  | .setAccess id lo hi access room =>
    match w.st.view id, w.st.ready with
    | some v, some (.ok ()) =>
      if lo ≤ hi then (w.st.setAccess top v lo hi access room).map fun (_, st) => { w with st }
      else none
    | _, _ => none
  | .narrow id lo hi ceiling room =>
    match w.st.view id, w.st.ready with
    | some v, some (.ok ()) =>
      if lo ≤ hi then (w.st.narrow top v lo hi ceiling room).map fun (_, st) => { w with st }
      else none
    | _, _ => none
  | .withdraw id start len room =>
    match w.st.view id with
    | none => none
    | some v =>
      match w.st.withdraw top v start len room w.occ with
      | none => none
      | some (.error _, occ, st) => some { w with occ, st }
      | some (.ok tickets, occ, st) =>
        some { w with
          occ, st,
          withdrawing := tickets :: w.withdrawing,
          -- a piece that was retired before keeps the turn of its clearing
          log := w.clear (tickets.filter (w.occ.tickets ≤ ·)) id (v.activeIn start len) }
  | .unpublish id p frame room =>
    match w.st.view id with
    | none => none
    | some v =>
      -- the callers hand in pages of the View
      if p < v.start then none
      else match w.st.unpublishPage top kernel v p frame room with
        | none => none
        | some (.error _, st) => some { w with st }
        | some (.ok (), st) =>
          if v.publishes (p - v.start) then some { w with st, log := w.clear [] id [p] }
          else some { w with st }
  | .close room =>
    if w.st.invalidation = .clean then
      match w.st.close top kernel room with
      | (.error _, st) => some { w with st }
      | (.ok (), st) =>
        if w.st.phase = .closed then some { w with st }
        else
          some { w with
            st,
            log := { w.log with
              clears := w.log.clears + 1,
              wipes := w.log.wipes ++ w.st.views.flatMap fun v =>
                (v.activeIn v.start v.pages).map fun p => ⟨v.id, p, w.log.clears + 1⟩ } }
    else none
  | .fence =>
    if w.st.invalidation = .dirty ∨ w.st.invalidation = .failed then
      some { w with
        st := { w.st with invalidation := .fencing },
        log := { w.log with started := w.log.clears } }
    else none
  | .confirm =>
    if w.st.invalidation = .fencing then
      some { w with
        st := { w.st with
          invalidation := .clean, phase := w.st.phase.settle,
          retiredFrames := [], retiredTables := [] },
        log := { w.log with confirmed := w.log.started } }
    else none
  | .fail =>
    if w.st.invalidation = .fencing then some { w with st := { w.st with invalidation := .failed } }
    else none
  | .attached r =>
    if r ∈ w.attaching ∧ w.st.invalidation = .clean then
      some { w with attaching := w.attaching.erase r }
    else none
  | .attachFailed r =>
    if r ∈ w.attaching ∧ w.st.invalidation = .failed then
      some { w with attaching := w.attaching.erase r, failed := r :: w.failed }
    else none
  | .settleInstall r =>
    if r ∈ w.failed then
      if (w.st.find r.start).any (·.id = r.id) then
        some { w with
          failed := w.failed.erase r, occ := Occupancy.step w.occ (.takeCleanup r.id) }
      else some { w with failed := w.failed.erase r, lost := r :: w.lost }
    else none
  | .giveBackLost r =>
    if r ∈ w.lost then some { w with occ := w.giveBack r, lost := w.lost.erase r } else none
  | .withdrawalDone tickets =>
    if tickets ∈ w.withdrawing ∧ w.st.invalidation = .clean then
      some { w with
        withdrawing := w.withdrawing.erase tickets, withdrawn := tickets :: w.withdrawn }
    else none
  | .withdrawalFailed tickets =>
    if tickets ∈ w.withdrawing ∧ w.st.invalidation = .failed then
      some { w with withdrawing := w.withdrawing.erase tickets }
    else none
  | .retain tickets =>
    if tickets ∈ w.withdrawn then
      some { w with
        withdrawn := w.withdrawn.erase tickets, due := tickets :: w.due,
        st := { w.st with retirement := w.st.retirement.filter (· ∉ tickets) } }
    else none
  | .retry =>
    if w.st.invalidation = .clean ∧ w.st.phase ≠ .closed then
      some { w with
        retrying := w.retrying + 1, log := { w.log with listed := w.st.retirement } }
    else none
  | .take =>
    if 0 < w.retrying then
      some { w with
        retrying := w.retrying - 1, due := w.st.retirement :: w.due,
        st := { w.st with retirement := [] } }
    else none
  | .reclaim tickets =>
    if tickets ∈ w.due then
      some { w with
        due := w.due.erase tickets,
        occ := { w.occ with occ := tickets.foldl Occupancy.reclaim w.occ.occ } }
    else none

end Sqware.Nest
