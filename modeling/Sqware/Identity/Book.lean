import Sqware.Identity.Vocab
import Sqware.Lib.Keyed
import Sqware.Machine.Word

/-!
# The identity book

One book holds the tree of principals, the coalitions and their members, and for each task a
binding: the subject it started with and the one it acts as now.  A call answers with what the book
is after it, also where it failed.  Whether a vector could be grown is part of a call (`Room`).

A search of the tree goes up by parents; `heirLoop` counts its rounds.
-/

namespace Sqware.Identity

structure PrincipalNode where
  parent : Option PrincipalId
  deriving DecidableEq

structure CoalitionNode where
  manager : PrincipalId
  caller : TaskId
  creation : Nat
  deriving DecidableEq

structure BindingRow where
  task : TaskId
  binding : Binding
  install : Option (PieToken × TaskId × Nat)
  deriving DecidableEq

structure InstallRecord where
  endpoint : PieToken
  caller : TaskId
  id : Nat
  spec : Option InstallSpec
  state : InstallState
  failure : Option Fail
  deriving DecidableEq

structure InstallOrigin where
  endpoint : PieToken
  caller : TaskId
  high : Nat
  deriving DecidableEq

structure IdentityBook where
  authority : TaskId
  installer : TaskId
  principals : List PrincipalNode
  coalitions : List CoalitionNode
  memberships : List (PrincipalId × CoalitionId)
  bindings : List BindingRow
  revision : Nat
  installations : List InstallRecord
  installOrigins : List InstallOrigin
  deriving DecidableEq

def MAX_PRINCIPALS : Nat := 4096
def MAX_COALITIONS : Nat := 4096
def MAX_MEMBERSHIPS : Nat := 16384
def MAX_BINDINGS : Nat := 4096
def MAX_CREATED_PER_PRINCIPAL : Nat := 256
def MAX_INSTALLATIONS : Nat := 256
def MAX_INSTALL_ORIGINS : Nat := 64

/-- Which vectors can be grown by one. -/
structure Room where
  principals : Bool
  coalitions : Bool
  memberships : Bool
  bindings : Bool
  installations : Bool
  installOrigins : Bool

structure Membership where
  coalition : CoalitionId
  principal : PrincipalId
  deriving DecidableEq

inductive Anchor
  | keep | move
  deriving DecidableEq

structure Selection where
  subject : Subject
  anchor : Anchor
  deriving DecidableEq

inductive InstallAction
  | apply (spec : InstallSpec)
  | inspect | cancel | retire
  deriving DecidableEq

def InstallAction.spec : InstallAction → Option InstallSpec
  | .apply spec => some spec
  | _ => none

namespace IdentityBook

def new (authority installer : TaskId) : IdentityBook :=
  ⟨authority, installer, [⟨none⟩], [], [], [], 0, [], []⟩

variable (book : IdentityBook)

/-! ## Reading -/

def principal (id : PrincipalId) : Except Fail Nat :=
  if id.authority ≠ book.authority then .error .wrongAuthority
  else if book.principals.length ≤ id.slot then .error .unknownPrincipal
  else .ok id.slot

def coalition (id : CoalitionId) : Except Fail Nat :=
  if id.authority ≠ book.authority then .error .wrongAuthority
  else if book.coalitions.length ≤ id.slot then .error .unknownCoalition
  else .ok id.slot

def parentAt (slot : Nat) : Option PrincipalId := book.principals[slot]?.bind (·.parent)

/-- The search of `heir`, for so many rounds. -/
def heirLoop (ancestor : PrincipalId) : Nat → Option PrincipalId → Option (Except Fail Bool)
  | 0, _ => none
  | _ + 1, none => some (.ok false)
  | fuel + 1, some p =>
    if p = ancestor then some (.ok true)
    else
      match book.principal p with
      | .error f => some (.error f)
      | .ok slot => heirLoop ancestor fuel (book.parentAt slot)

def heir (ancestor descendant : PrincipalId) : Except Fail Bool := do
  let _ ← book.principal ancestor
  (book.heirLoop ancestor (book.principals.length + 1) (some descendant)).getD (.ok false)

def resolve (task : TaskId) : Option Binding :=
  (Keyed.get BindingRow.task book.bindings task).map (·.binding)

def amid (p : PrincipalId) (c : CoalitionId) : Except Fail Bool := do
  let _ ← book.principal p
  let _ ← book.coalition c
  return book.memberships.contains (p, c)

def eligible (p : PrincipalId) : List CoalitionId → Except Fail Unit
  | [] => .ok ()
  | c :: l => do
    if ← book.amid p c then eligible p l else .error .notEligible

def validate (s : Subject) : Except Fail Unit := do
  let _ ← book.principal s.principal
  book.eligible s.principal s.coalitions.items

def narrow (base requested : Subject) : Except Fail Unit := do
  book.validate requested
  let heir ← book.heir base.principal requested.principal
  if !heir || requested.coalitions.items.any fun c => !base.coalitions.contains c then
    .error .notNarrower
  else .ok ()

/-! ## Principals, coalitions and members -/

-- with fewer than `MAX_PRINCIPALS` the slot's arithmetic cannot fail
def derive (room : Room) (sender : TaskId) (parent : PrincipalId) :
    Except Fail PrincipalId × IdentityBook :=
  match book.principal parent with
  | .error f => (.error f, book)
  | .ok _ =>
    if sender ≠ book.installer ∧ (book.resolve sender).map (·.current.principal) ≠ some parent then
      (.error .denied, book)
    else if MAX_PRINCIPALS ≤ book.principals.length ∨
        MAX_CREATED_PER_PRINCIPAL ≤ book.principals.countP (·.parent = some parent) then
      (.error .full, book)
    else if room.principals = false then (.error .full, book)
    else
      (.ok ⟨book.authority, book.principals.length⟩,
        { book with principals := book.principals ++ [⟨some parent⟩] })

def found (room : Room) (sender : TaskId) (id : Nat) : Except Fail CoalitionId × IdentityBook :=
  if id = 0 then (.error .bad, book)
  else
    match book.resolve sender with
    | none => (.error .denied, book)
    | some binding =>
      match book.coalitions.findIdx? fun n => n.caller = sender ∧ n.creation = id with
      | some slot =>
        if (book.coalitions[slot]?.map (·.manager)) ≠ some binding.current.principal then
          (.error .changed, book)
        else (.ok ⟨book.authority, slot⟩, book)
      | none =>
        if MAX_COALITIONS ≤ book.coalitions.length ∨
            MAX_CREATED_PER_PRINCIPAL ≤
              book.coalitions.countP (·.manager = binding.current.principal) then
          (.error .full, book)
        else if room.coalitions = false then (.error .full, book)
        else
          (.ok ⟨book.authority, book.coalitions.length⟩,
            { book with
              coalitions := book.coalitions ++ [⟨binding.current.principal, sender, id⟩] })

def managerAt (slot : Nat) : Option PrincipalId := book.coalitions[slot]?.map (·.manager)

def manage (sender : TaskId) (member : Membership) : Except Fail Unit := do
  let slot ← book.coalition member.coalition
  let _ ← book.principal member.principal
  if sender = book.installer then .ok ()
  else
    match book.resolve sender with
    | none => .error .denied
    | some binding =>
      if book.managerAt slot ≠ some binding.current.principal then .error .notManager else .ok ()

/-- `admit`. -/
def admitMember (room : Room) (sender : TaskId) (member : Membership) :
    Except Fail Unit × IdentityBook :=
  match book.manage sender member with
  | .error f => (.error f, book)
  | .ok () =>
    if (member.principal, member.coalition) ∈ book.memberships then (.ok (), book)
    else if MAX_MEMBERSHIPS ≤ book.memberships.length then (.error .full, book)
    else
      match checkedAdd book.revision 1 with
      | none => (.error .full, book)
      | some revision =>
        if room.memberships = false then (.error .full, book)
        else
          (.ok (), { book with
            memberships := book.memberships ++ [(member.principal, member.coalition)]
            revision := revision })

/-- A subject of an expelled principal loses the coalition. -/
def without (member : Membership) (s : Subject) : Subject :=
  if s.principal = member.principal then
    { s with coalitions := s.coalitions.remove member.coalition }
  else s

/-- What `expel` does to one binding: the selection is scanned in a copy of it. -/
def withdraw (member : Membership) (b : Binding) : Binding :=
  let origin := without member b.origin
  let current := without member b.current
  ⟨origin, { current with
    coalitions := current.coalitions.items.foldl
      (fun set c => if origin.coalitions.contains c then set else set.remove c)
      current.coalitions }⟩

def expel (sender : TaskId) (member : Membership) : Except Fail Unit × IdentityBook :=
  match book.manage sender member with
  | .error f => (.error f, book)
  | .ok () =>
    match
      if (member.principal, member.coalition) ∈ book.memberships then checkedAdd book.revision 1
      else some book.revision with
    | none => (.error .full, book)
    | some revision =>
      (.ok (), { book with
        memberships := book.memberships.filter (· ≠ (member.principal, member.coalition))
        bindings := book.bindings.map fun row => { row with binding := withdraw member row.binding }
        revision := revision })

/-! ## Bindings -/

/-- The subject `bind` gives a task. -/
def install (room : Room) (sender : TaskId) : Install → Except Fail Subject × IdentityBook
  | .authorized s =>
    match book.validate s with
    | .error f => (.error f, book)
    | .ok () => (.ok s, book)
  | .inherit parent =>
    match book.resolve parent with
    | none => (.error .denied, book)
    | some b => (.ok b.current, book)
  | .restrict parent subject =>
    match book.resolve parent with
    | none => (.error .denied, book)
    | some b =>
      match book.narrow b.current subject with
      | .error f => (.error f, book)
      | .ok () => (.ok subject, book)
  | .derive parent =>
    match book.derive room sender parent with
    | (.error f, book) => (.error f, book)
    | (.ok child, book) => (Subject.new child [], book)

def setBinding (task : TaskId) (binding : Binding) : IdentityBook :=
  { book with
    bindings := Keyed.update BindingRow.task task (fun row => { row with binding := binding })
      book.bindings }

/-- The task's row with this binding and no installation; a new one if there is none. -/
def place (task : TaskId) (binding : Binding) : IdentityBook :=
  { book with
    bindings :=
      if (book.resolve task).isSome then
        Keyed.update BindingRow.task task
          (fun row => { row with binding := binding, install := none }) book.bindings
      else book.bindings ++ [⟨task, binding, none⟩] }

def bind (room : Room) (sender : TaskId) (task : TaskId) (install : Install) :
    Except Fail Unit × IdentityBook :=
  if sender ≠ book.installer then (.error .denied, book)
  else if (book.resolve task).isNone ∧
      (MAX_BINDINGS ≤ book.bindings.length ∨ room.bindings = false) then (.error .full, book)
  else
    match book.install room sender install with
    | (.error f, book) => (.error f, book)
    | (.ok subject, book) => (.ok (), book.place task ⟨subject, subject⟩)

def unbind (sender : TaskId) (task : TaskId) : Except Fail Unit × IdentityBook :=
  if sender ≠ book.installer then (.error .denied, book)
  else (.ok (), { book with bindings := book.bindings.filter (·.task ≠ task) })

def narrowOwn (sender : TaskId) (selection : Selection) : Except Fail Unit × IdentityBook :=
  match book.resolve sender with
  | none => (.error .denied, book)
  | some b =>
    match book.narrow b.current selection.subject with
    | .error f => (.error f, book)
    | .ok () =>
      match selection.anchor with
      | .keep => (.ok (), book.setBinding sender { b with current := selection.subject })
      | .move => (.ok (), book.setBinding sender ⟨selection.subject, selection.subject⟩)

def waive (sender : TaskId) : Except Fail Unit × IdentityBook :=
  match book.resolve sender with
  | none => (.error .denied, book)
  | some b => (.ok (), book.setBinding sender { b with current := b.origin })

/-- The selections of `activate`, added to those in `ids`. -/
def gather (manager principal : PrincipalId) :
    List CoalitionId → List CoalitionId → Except Fail (List CoalitionId)
  | [], ids => .ok ids
  | c :: l, ids => do
    let slot ← book.coalition c
    if book.managerAt slot ≠ some manager then .error .notManager
    else if !(← book.amid principal c) then .error .notEligible
    else if c ∈ ids then gather manager principal l ids
    else if ids.length = MAX_ACTIVE_COALITIONS then .error .full
    else gather manager principal l (ids ++ [c])

/-- What `activate` gives the task, or why not. -/
def activated (sender : TaskId) (task : TaskId) (coalitions : CoalitionSet) :
    Except Fail Subject :=
  if coalitions.items = [] then .error .bad
  else
    match book.resolve sender, book.resolve task with
    | none, _ => .error .denied
    | _, none => .error .denied
    | some b, some binding =>
      if binding.origin ≠ binding.current then .error .notNarrower
      else do
        let ids ← book.gather b.current.principal binding.current.principal coalitions.items
          binding.current.coalitions.items
        Subject.new binding.current.principal ids

def activate (sender : TaskId) (task : TaskId) (coalitions : CoalitionSet) :
    Except Fail Unit × IdentityBook :=
  match book.activated sender task coalitions with
  | .error f => (.error f, book)
  | .ok subject => (.ok (), book.setBinding task ⟨subject, subject⟩)

/-! ## Installations -/

def installStatus (row : InstallRecord) : InstallStatus :=
  ⟨row.state,
    row.spec.bind fun spec =>
      (book.bindings.find? fun b =>
        b.task = spec.task ∧ b.install = some (row.endpoint, row.caller, row.id)).map (·.binding),
    row.failure⟩

/-- An installation that has a record. -/
def reinstall (row : InstallRecord) (index : Nat) (action : InstallAction) :
    Except Fail InstallStatus × IdentityBook :=
  if action.spec.isSome ∧ row.spec ≠ action.spec then
    (.error .changed, book)
  else if action = .cancel ∨ action = .retire then
    let bindings :=
      match row.spec with
      | none => book.bindings
      | some spec => book.bindings.filter fun b =>
          b.task ≠ spec.task ∨ b.install ≠ some (row.endpoint, row.caller, row.id)
    let row := { row with
      state := if action = .cancel then .cancelled else .retired
      failure := none }
    let book :=
      { book with bindings := bindings, installations := book.installations.set index row }
    (.ok (book.installStatus row), book)
  else (.ok (book.installStatus row), book)

def setInstall (index : Nat) (row : InstallRecord) : IdentityBook :=
  { book with installations := book.installations.set index row }

/-- The binding of a new record, which stands at the end. -/
def applyInstall (room : Room) (row : InstallRecord) (spec : InstallSpec) :
    InstallStatus × IdentityBook :=
  let last := book.installations.length - 1
  if book.bindings.any fun b => b.task = spec.task ∧ b.install.isSome then
    let row := { row with state := .failed, failure := some .changed }
    ((book.setInstall last row).installStatus row, book.setInstall last row)
  else
    match book.bind room row.caller spec.task spec.install with
    | (.ok (), book) =>
      let book := { book with
        bindings := Keyed.update BindingRow.task spec.task
          (fun b => { b with install := some (row.endpoint, row.caller, row.id) }) book.bindings }
      let row := { row with state := .installed }
      ((book.setInstall last row).installStatus row, book.setInstall last row)
    | (.error f, book) =>
      let row := { row with state := .failed, failure := some f }
      ((book.setInstall last row).installStatus row, book.setInstall last row)

/-- Once the record is in place. -/
def settleInstall (room : Room) (row : InstallRecord) : Except Fail InstallStatus × IdentityBook :=
  match row.spec with
  | none => (.ok (book.installStatus row), book)
  | some spec => (.ok (book.applyInstall room row spec).1, (book.applyInstall room row spec).2)

/-- Records a request; the older ones of its origin that are over are dropped. -/
def recordInstall (row : InstallRecord) : Option Nat → IdentityBook
  | some i =>
    { book with
      installations := (book.installations.filter fun r =>
        r.endpoint ≠ row.endpoint ∨ r.caller ≠ row.caller ∨
          r.state = .installed ∨ r.state = .pending ∨ r.state = .retiring) ++ [row]
      installOrigins := book.installOrigins.modify i fun o => { o with high := row.id } }
  | none =>
    { book with
      installations := book.installations ++ [row]
      installOrigins := book.installOrigins ++ [⟨row.endpoint, row.caller, row.id⟩] }

/-- A first request with this id. -/
def openInstall (room : Room) (endpoint : PieToken) (caller : TaskId) (id : Nat)
    (action : InstallAction) (origin : Option Nat) : Except Fail InstallStatus × IdentityBook :=
  if origin.isNone ∧ MAX_INSTALL_ORIGINS ≤ book.installOrigins.length then (.error .full, book)
  else if MAX_INSTALLATIONS ≤ book.installations.length ∨ room.installations = false then
    (.error .full, book)
  else if origin.isNone ∧ room.installOrigins = false then (.error .full, book)
  else
    let row : InstallRecord :=
      ⟨endpoint, caller, id, action.spec,
        match action with
        | .cancel => .cancelled
        | .retire => .retired
        | _ => .pending, none⟩
    (book.recordInstall row origin).settleInstall room row

def installation (room : Room) (caller : TaskId) (endpoint : PieToken) (id : Nat)
    (action : InstallAction) : Except Fail InstallStatus × IdentityBook :=
  if caller ≠ book.installer ∨ endpoint = 0 ∨ id = 0 then (.error .denied, book)
  else
    match book.installations.findIdx? fun r =>
        r.endpoint = endpoint ∧ r.caller = caller ∧ r.id = id with
    | some index =>
      match book.installations[index]? with
      | some row => book.reinstall row index action
      | none => (.error .denied, book)
    | none =>
      let origin := book.installOrigins.findIdx? fun o => o.endpoint = endpoint ∧ o.caller = caller
      if (origin.bind (book.installOrigins[·]?)).any (id ≤ ·.high) then
        match action with
        | .apply _ => (.error .changed, book)
        | _ => (.ok ⟨.closed, none, none⟩, book)
      else if action = .inspect then (.ok ⟨.unseen, none, none⟩, book)
      else book.openInstall room endpoint caller id action origin

end IdentityBook

/-! ## Calls -/

inductive Call
  | derive (parent : PrincipalId)
  | found (id : Nat)
  | admitMember (member : Membership)
  | expel (member : Membership)
  | bind (task : TaskId) (install : Install)
  | unbind (task : TaskId)
  | narrowOwn (selection : Selection)
  | waive
  | activate (task : TaskId) (coalitions : CoalitionSet)
  | installation (endpoint : PieToken) (id : Nat) (action : InstallAction)
  deriving DecidableEq

inductive Answer
  | unit
  | principal (id : PrincipalId)
  | coalition (id : CoalitionId)
  | status (status : InstallStatus)
  deriving DecidableEq

def answered {α : Type} (f : α → Answer) (r : Except Fail α × IdentityBook) :
    Except Fail Answer × IdentityBook :=
  (r.1.map f, r.2)

/-- A call by a sender. -/
def IdentityBook.call (book : IdentityBook) (room : Room) (sender : TaskId) :
    Call → Except Fail Answer × IdentityBook
  | .derive parent => answered .principal (book.derive room sender parent)
  | .found id => answered .coalition (book.found room sender id)
  | .admitMember member => answered (fun _ => .unit) (book.admitMember room sender member)
  | .expel member => answered (fun _ => .unit) (book.expel sender member)
  | .bind task install => answered (fun _ => .unit) (book.bind room sender task install)
  | .unbind task => answered (fun _ => .unit) (book.unbind sender task)
  | .narrowOwn selection => answered (fun _ => .unit) (book.narrowOwn sender selection)
  | .waive => answered (fun _ => .unit) (book.waive sender)
  | .activate task coalitions => answered (fun _ => .unit) (book.activate sender task coalitions)
  | .installation endpoint id action =>
    answered .status (book.installation room sender endpoint id action)

end Sqware.Identity
