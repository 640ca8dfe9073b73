import Sqware.Identity.Vocab
import Sqware.Machine.Word
import Sqware.Operator.Path

/-!
# The naming tree

The nodes live in a vector of slots whose index is their number; a slot that is emptied stays empty.
A node is a pane with a list of the numbers inside or a tile with the token it stands for.  There is
no parent field: the parent of a node is found by searching the lists.

What the kernel answers in a call is part of it (`Kernel`); which grants are live comes from the
authority (`live`).
-/

namespace Sqware.Operator

abbrev EntryId : Type := Nat
abbrev GrantKey : Type := Nat
abbrev PieToken : Type := Nat
abbrev TaskId : Type := Nat

inductive Fail
  | unknown | nonEmpty | notATile | notAPane | full | dead | denied
  deriving DecidableEq, Repr

/-- A pane's place in the tree: the root, or a node. -/
inductive Where
  | root
  | node (id : EntryId)
  deriving DecidableEq, Repr

structure Entry where
  operator : TaskId
  target : Where
  deriving DecidableEq, Repr

structure Binding where
  entry : Entry
  revision : Nat
  deriving DecidableEq, Repr

def Binding.entryId (b : Binding) : EntryId :=
  match b.entry.target with
  | .node id => id
  | .root => 0

inductive Permit
  | pub
  | bound
  | identity (selector : Identity.Selector)
  | opener (entry : EntryId)
  deriving DecidableEq, Repr

inductive Node
  | pane (inner : List EntryId)
  | tile (pie : PieToken) (permit : Permit) (owner : Option TaskId)
  deriving DecidableEq, Repr

def Node.isPane : Node → Bool
  | pane _ => true
  | tile .. => false

def Node.push (id : EntryId) : Node → Node
  | pane inner => pane (inner ++ [id])
  | tile pie permit owner => tile pie permit owner

structure Slot where
  name : Text
  node : Node
  revision : Nat
  authority : Option GrantKey
  view : Nat
  resourceId : Nat
  deriving DecidableEq

inductive Kind
  | landed | rebound | parted | trimmed
  deriving DecidableEq, Repr

structure Change where
  kind : Kind
  id : EntryId
  owner : TaskId
  road : Option Text
  deriving DecidableEq, Repr

def PANE_CAP : Nat := 32

/-- What the kernel answers: memory for one more, whether the token of a node's tile is let go of
where it is held, whether it is alive. -/
structure Kernel where
  room : Bool
  drops : EntryId → Bool
  alive : EntryId → Bool

structure Tree where
  actor : TaskId
  root : List EntryId
  nextRevision : Nat
  slots : List (Option Slot)
  deriving DecidableEq

structure Placement where
  place : Where
  name : Text
  node : Node
  authority : Option GrantKey
  view : Nat
  resourceId : Nat

structure PartEntry where
  anchor : Entry
  name : Text
  authority : Option GrantKey

structure BindEntry where
  anchor : Entry
  name : Text
  pie : PieToken
  resourceId : Nat
  permit : Permit
  owner : TaskId
  authority : GrantKey
  view : Nat

structure ReplaceEntry where
  binding : Binding
  pie : PieToken
  resourceId : Nat
  permit : Permit
  owner : TaskId
  authority : GrantKey
  view : Nat

namespace Tree

def new (actor : TaskId) : Tree := ⟨actor, [], 0, []⟩

variable (t : Tree) (live : GrantKey → Bool) (k : Kernel)

/-! ## Reading -/

def slot (id : EntryId) : Option Slot := t.slots[id]?.join

def visible (id : EntryId) : Bool := (t.slot id).any (·.authority.all live)

def kids : Where → Except Fail (List EntryId)
  | .root => .ok t.root
  | .node id =>
    match t.slot id with
    | none => .error .unknown
    | some s =>
      match s.node with
      | .pane inner => .ok inner
      | .tile .. => .error .notAPane

def kid (place : Where) (name : Text) : Except Fail (Option EntryId) := do
  let l ← t.kids place
  return l.find? fun id => t.visible live id && (t.slot id).any (·.name = name)

def entry (target : Where) : Except Fail Entry :=
  match target with
  | .root => .ok ⟨t.actor, .root⟩
  | .node id => if t.visible live id then .ok ⟨t.actor, .node id⟩ else .error .unknown

def whereFor (e : Entry) : Except Fail Where :=
  if e.operator ≠ t.actor then .error .denied
  else
    match e.target with
    | .root => .ok .root
    | .node id => if t.visible live id then .ok (.node id) else .error .unknown

def binding (id : EntryId) : Except Fail Binding :=
  if !t.visible live id then .error .unknown
  else
    match t.slot id with
    | none => .error .unknown
    | some s => if s.node.isPane then .error .notATile else .ok ⟨⟨t.actor, .node id⟩, s.revision⟩

def checkBinding (b : Binding) : Except Fail Unit := do
  let _ ← t.whereFor live b.entry
  let found ← t.binding live b.entryId
  if found.revision ≠ b.revision then .error .denied else .ok ()

/-! ## Paths -/

def holds (id : EntryId) : Option Slot → Bool
  | some ⟨_, .pane inner, _, _, _, _⟩ => inner.contains id
  | _ => false

/-- Where a node is listed, and its name. -/
def locate (id : EntryId) : Option (Where × Text) :=
  if id ∈ t.root then (t.slot id).map fun s => (.root, s.name)
  else
    match t.slots.findIdx? (holds id) with
    | none => none
    | some i => (t.slot id).map fun s => (.node i, s.name)

/-- The loop of `road_to` for so many rounds, the names found so far behind. -/
def climb : Nat → EntryId → List Text → Option (Option (List Text))
  | 0, _, _ => none
  | fuel + 1, id, names =>
    match t.locate id with
    | none => some none
    | some (.root, name) => some (some (name :: names))
    | some (.node up, name) => climb fuel up (name :: names)

def roadTo (id : EntryId) : Option Text :=
  (t.climb (t.slots.length + 1) id []).join.bind fun names => names.foldlM tryJoin []

def roadOf : Where → Option Text
  | .root => some []
  | .node id => t.roadTo id

/-- A road that goes on after another. -/
def suffix (base road : Text) : Option Text :=
  if base = [] then some road
  else if road = base then some []
  else (stripPrefix base road).bind (stripPrefix ['/'])

def relativeTo (anchor target : Entry) : Option Text :=
  match t.whereFor live anchor, t.whereFor live target with
  | .ok a, .ok b => do
    let base ← t.roadOf a
    let road ← t.roadOf b
    let relative ← suffix base road
    normal relative
  | _, _ => none

/-! ## Placing -/

/-- Lists a number last in a pane. -/
def list (place : Where) (id : EntryId) : Tree :=
  match place with
  | .root => { t with root := t.root ++ [id] }
  | .node up => { t with
      slots := t.slots.modify up (Option.map fun s => { s with node := s.node.push id }) }

def overwrite (p : Placement) (id : EntryId) (s : Slot) : Except Fail EntryId × Tree :=
  match checkedAdd t.nextRevision 1 with
  | none => (.error .full, t)
  | some revision =>
    (.ok id, { t with
      nextRevision := revision
      slots := t.slots.set id (some { s with
        node := p.node, revision := revision, authority := p.authority, view := p.view }) })

/-- The name is taken: the slot is bound anew and keeps its number. -/
def rebind (p : Placement) (id : EntryId) : Except Fail EntryId × Tree :=
  if !t.visible live id then (.error .denied, t)
  else
    match t.slot id with
    | none => (.error .unknown, t)
    | some s =>
      if p.node.isPane ∧ s.node.isPane then (.ok id, t)
      else
        match s.node with
        | .tile .. => if k.drops id then t.overwrite p id s else (.error .unknown, t)
        | .pane [] => t.overwrite p id s
        | .pane (_ :: _) => (.error .nonEmpty, t)

def create (p : Placement) (l : List EntryId) : Except Fail EntryId × Tree :=
  if PANE_CAP ≤ l.length ∨ k.room = false then (.error .full, t)
  else
    match checkedAdd t.nextRevision 1 with
    | none => (.error .full, t)
    | some revision =>
      (.ok t.slots.length,
        list { t with
          nextRevision := revision
          slots := t.slots ++
            [some ⟨p.name, p.node, revision, p.authority, p.view, p.resourceId⟩] }
          p.place t.slots.length)

-- the name counts whether the node is visible or not
def put (p : Placement) : Except Fail EntryId × Tree :=
  match t.kids p.place with
  | .error f => (.error f, t)
  | .ok l =>
    match l.find? fun id => (t.slot id).any (·.name = p.name) with
    | some id => t.rebind live k p id
    | none => t.create k p l

def partAt (place : Where) (name : Text) (authority : Option GrantKey) :
    Except Fail (EntryId × Bool × Option Change) × Tree :=
  match t.kid live place name with
  | .error f => (.error f, t)
  | .ok (some id) =>
    match t.slot id with
    | none => (.error .unknown, t)
    | some s => if s.node.isPane then (.ok (id, false, none), t) else (.error .notAPane, t)
  | .ok none =>
    match t.put live k ⟨place, name, .pane [], authority, 0, 0⟩ with
    | (.error f, t) => (.error f, t)
    | (.ok id, t) => (.ok (id, true, some ⟨.parted, id, 0, none⟩), t)

def partEntry (part : PartEntry) : Except Fail (Entry × Bool × Option Change) × Tree :=
  match t.whereFor live part.anchor with
  | .error f => (.error f, t)
  | .ok place =>
    match t.partAt live k place part.name part.authority with
    | (.error f, t) => (.error f, t)
    | (.ok (id, fresh, change), t) => ((t.entry live (.node id)).map fun e => (e, fresh, change), t)

def land (place : Where) (name : Text) (pie : PieToken) (permit : Permit) (owner : TaskId)
    (authority : GrantKey) (view resourceId : Nat) : Except Fail Change × Tree :=
  match t.kid live place name with
  | .error f => (.error f, t)
  | .ok found =>
    match t.put live k
        ⟨place, name, .tile pie permit (some owner), some authority, view, resourceId⟩ with
    | (.error f, t) => (.error f, t)
    | (.ok id, t) => (.ok ⟨if found.isSome then .rebound else .landed, id, owner, none⟩, t)

def bindAt (b : BindEntry) : Except Fail (Binding × Option Change) × Tree :=
  match t.whereFor live b.anchor with
  | .error f => (.error f, t)
  | .ok place =>
    match t.kid live place b.name with
    | .error f => (.error f, t)
    | .ok (some id) =>
      match t.slot id with
      | some ⟨_, .tile _ permit (some owner), _, authority, view, resourceId⟩ =>
        if permit = b.permit ∧ owner = b.owner ∧ authority = some b.authority ∧ view = b.view ∧
            resourceId = b.resourceId then
          ((t.binding live id).map fun binding => (binding, none), t)
        else (.error .denied, t)
      | _ => (.error .denied, t)
    | .ok none =>
      match t.land live k place b.name b.pie b.permit b.owner b.authority b.view b.resourceId with
      | (.error f, t) => (.error f, t)
      | (.ok change, t) => ((t.binding live change.id).map fun binding => (binding, some change), t)

/-- The same owner and permit: the token is exchanged in place. -/
def exchange (r : ReplaceEntry) (s : Slot) (old : PieToken) :
    Except Fail (Binding × Option Change) × Tree :=
  let id := r.binding.entryId
  if s.authority = some r.authority ∧ s.view = r.view ∧ s.resourceId = r.resourceId then
    (.ok (r.binding, none), t)
  else
    match checkedAdd t.nextRevision 1 with
    | none => (.error .full, t)
    | some revision =>
      if old ≠ r.pie ∧ k.drops id = false then (.error .unknown, t)
      else
        (.ok (⟨r.binding.entry, revision⟩, some ⟨.rebound, id, r.owner, none⟩),
          { t with
            nextRevision := revision
            slots := t.slots.set id (some { s with
              node := .tile r.pie r.permit (some r.owner), authority := some r.authority
              revision := revision, view := r.view, resourceId := r.resourceId }) })

/-- Another owner or permit: the place is bound anew. -/
def relocate (r : ReplaceEntry) : Except Fail (Binding × Option Change) × Tree :=
  match t.locate r.binding.entryId with
  | none => (.error .unknown, t)
  | some (place, name) =>
    match t.land live k place name r.pie r.permit r.owner r.authority r.view r.resourceId with
    | (.error f, t) => (.error f, t)
    | (.ok change, t) => ((t.binding live change.id).map fun binding => (binding, some change), t)

def replaceBinding (r : ReplaceEntry) : Except Fail (Binding × Option Change) × Tree :=
  match t.checkBinding live r.binding with
  | .error f => (.error f, t)
  | .ok () =>
    match t.slot r.binding.entryId with
    | none => t.relocate live k r
    | some s =>
      match s.node with
      | .tile old permit owner =>
        if permit = r.permit ∧ owner = some r.owner then t.exchange k r s old
        else t.relocate live k r
      | .pane _ => t.relocate live k r

/-! ## Removing -/

/-- Takes a number out of the first pane that lists it. -/
def unlist (id : EntryId) : List (Option Slot) → List (Option Slot)
  | [] => []
  | none :: l => none :: unlist id l
  | some s :: l =>
    match s.node with
    | .pane inner =>
      if id ∈ inner then some { s with node := .pane (inner.erase id) } :: l
      else some s :: unlist id l
    | .tile .. => some s :: unlist id l

def unlink (id : EntryId) : Tree :=
  if (t.slot id).isNone then t
  else if id ∈ t.root then { t with root := t.root.erase id, slots := t.slots.set id none }
  else { t with slots := unlist id (t.slots.set id none) }

def trim (id : EntryId) : Except Fail (Option Change) × Tree :=
  match t.slot id with
  | none => (.error .unknown, t)
  | some s =>
    let change : Change := ⟨.trimmed, id, 0, t.roadTo id⟩
    match s.node with
    | .pane [] => (.ok (some change), t.unlink id)
    | .pane (_ :: _) => (.error .nonEmpty, t)
    | .tile .. => if k.drops id then (.ok (some change), t.unlink id) else (.error .unknown, t)

/-- Answers the token and the view; a dead tile is removed instead. -/
def find (id : EntryId) : Except Fail (PieToken × Nat) × Tree :=
  if !t.visible live id then (.error .unknown, t)
  else
    match t.slot id with
    | none => (.error .unknown, t)
    | some s =>
      match s.node with
      | .pane _ => (.error .notATile, t)
      | .tile pie _ _ => if k.alive id then (.ok (pie, s.view), t) else (.error .dead, t.unlink id)

def unbindBinding (b : Binding) : Except Fail (Option Change) × Tree :=
  match t.checkBinding live b with
  | .error .unknown => (.ok none, t)
  | .error f => (.error f, t)
  | .ok () => t.trim k b.entryId

def unpart (e : Entry) : Except Fail (Option Change) × Tree :=
  match t.whereFor live e with
  | .error f => (.error f, t)
  | .ok .root => (.error .denied, t)
  | .ok (.node id) =>
    if (t.slot id).any (·.node.isPane) then t.trim k id else (.error .notAPane, t)

/-- Trims, of these numbers, the nodes of one kind that a grant made. -/
def sweep (authority : GrantKey) (panes : Bool) (t : Tree) :
    List EntryId → Except Fail Unit × Tree
  | [] => (.ok (), t)
  | id :: ids =>
    if (t.slot id).any fun s => s.authority = some authority ∧ s.node.isPane = panes then
      match t.trim k id with
      | (.error f, t) => (.error f, t)
      | (.ok _, t) => sweep authority panes t ids
    else sweep authority panes t ids

/-- The tiles of a grant first, then its panes, each from the last number down. -/
def cleanupAuthority (authority : GrantKey) : Except Fail Unit × Tree :=
  match sweep k authority false t (List.range t.slots.length).reverse with
  | (.error f, t) => (.error f, t)
  | (.ok (), t) => sweep k authority true t (List.range t.slots.length).reverse

end Tree

end Sqware.Operator
