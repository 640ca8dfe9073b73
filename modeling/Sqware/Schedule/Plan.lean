import Mathlib.Tactic.Common

/-!
# Resumable plans

A plan is a list of systems: a function, a plan inside the plan (with its errors mapped or not), or
a dispatcher that advances one of several plans at a time.  A cursor says where a plan stands; the
cursor of a plan inside is made when it is first needed and is used again, after a reset, by the
next one.

`ρ` is the type of the resources.  A function is any function of them.  Besides its answer an
execution leaves a trace of what it ran, with the number of the step in tree order; nothing in the
execution depends on the trace.
-/

namespace Sqware.Plans

inductive Progress
  | done | pending
  deriving DecidableEq, Repr

inductive AccessError
  | missing | borrowed | duplicate | room
  deriving DecidableEq, Repr

inductive DispatchError
  | busy | exhausted | noResult
  deriving DecidableEq, Repr

inductive RunError (E : Type)
  | resource (error : AccessError)
  | step (error : E)
  | unknownPlan
  | dispatch (error : DispatchError)

abbrev Outcome (E : Type) : Type := Except (RunError E) Progress

/-! ## Cursors -/

inductive Cursor
  | mk (pos : Nat) (nested : Option Cursor) (finishing : Bool)

namespace Cursor

def default : Cursor := ⟨0, none, false⟩

def pos : Cursor → Nat
  | ⟨pos, _, _⟩ => pos

def nested : Cursor → Option Cursor
  | ⟨_, nested, _⟩ => nested

def finishing : Cursor → Bool
  | ⟨_, _, finishing⟩ => finishing

def reset : Cursor → Cursor
  | ⟨_, none, _⟩ => ⟨0, none, false⟩
  | ⟨_, some nested, _⟩ => ⟨0, some nested.reset, false⟩

/-- The cursor of the plan inside, which is made when there is none. -/
def inner (c : Cursor) : Cursor := c.nested.getD .default

def withInner (c inner : Cursor) : Cursor := ⟨c.pos, some inner, c.finishing⟩

/-- What `advance` does after a step was done. -/
def next (c : Cursor) : Cursor := ⟨c.pos + 1, c.nested.map reset, false⟩

end Cursor

/-! ## Dispatch -/

structure Invocation (K : Type) where
  key : K
  cursor : Cursor

structure Completion (K C : Type) where
  invocation : Invocation K
  result : Outcome C

inductive DispatchState (K C : Type)
  | idle
  | selected (invocation : Invocation K)
  | running
  | finished (completion : Completion K C)

structure Dispatch (K C : Type) where
  remaining : Nat
  state : DispatchState K C

namespace Dispatch

variable {K C : Type} (d : Dispatch K C)

def isIdle : Bool :=
  match d.state with
  | .idle => true
  | _ => false

def hasSelected : Bool :=
  match d.state with
  | .selected _ => true
  | _ => false

def takeSelected : Option (Invocation K × Dispatch K C) :=
  match d.state with
  | .selected invocation => some (invocation, { d with state := .running })
  | _ => none

def restoreSelected (invocation : Invocation K) : Except DispatchError (Dispatch K C) :=
  match d.state with
  | .running => .ok { d with state := .selected invocation }
  | _ => .error .busy

def complete (completion : Completion K C) : Except DispatchError (Dispatch K C) :=
  match d.state with
  | .running =>
    if d.remaining = 0 then .error .exhausted
    else .ok { remaining := d.remaining - 1, state := .finished completion }
  | _ => .error .busy

/-- The cursor that goes back with the result. -/
def recorded : Option Cursor :=
  match d.state with
  | .finished completion => some completion.invocation.cursor
  | _ => none

end Dispatch

/-- How a dispatcher finds, reads and changes its `Dispatch` among the resources. -/
structure Cell (ρ D : Type) where
  index : ρ → Except AccessError Unit
  read : ρ → Except AccessError D
  write : ρ → Except AccessError (D × (D → ρ))

/-! ## Traces -/

inductive Answer
  | done | pending | failed
  deriving DecidableEq, Repr

def answer {E : Type} : Outcome E → Answer
  | .ok .done => .done
  | .ok .pending => .pending
  | .error _ => .failed

/-- A step was executed and answered; or, inside of a dispatcher's step, its functions or one of
its plans.  Of a plan there is its place among the plans, the cursor it was given, what was executed
in it, its answer, and the cursor of the completion that was recorded, if one was. -/
inductive Event
  | step (i : Nat) (a : Answer)
  | select (i : Nat) (a : Answer)
  | child (i k : Nat) (c : Cursor) (inner : List Event) (a : Answer) (left : Option Cursor)
  | finish (i : Nat) (a : Answer)

/-- What an execution leaves. -/
structure Reply (ρ E : Type) where
  outcome : Outcome E
  cursor : Cursor
  resources : ρ
  trace : List Event

/-! ## The dispatcher -/

abbrev Run (ρ E : Type) : Type := ρ → Outcome E × ρ

/-- Part of a round: it ends the execution, or leaves something to go on with. -/
inductive Flow (ρ E α : Type)
  | stop (outcome : Outcome E) (finishing : Bool) (resources : ρ) (trace : List Event)
  | go (a : α) (resources : ρ) (trace : List Event)

section

variable {ρ K C E : Type} (select finish : Run ρ E) (cell : Cell ρ (Dispatch K C)) (i : Nat)

def finishRound (finishing : Bool) (r : ρ) : Flow ρ E Unit :=
  if finishing then
    match finish r with
    | (.error e, r) => .stop (.error e) true r [.finish i .failed]
    | (.ok .pending, r) => .stop (.ok .pending) true r [.finish i .pending]
    | (.ok .done, r) =>
      match cell.read r with
      | .error e => .stop (.error (.resource e)) true r [.finish i .done]
      | .ok d =>
        if d.isIdle then .go () r [.finish i .done]
        else .stop (.error (.dispatch .busy)) true r [.finish i .done]
  else .go () r []

def runSelect (d : Dispatch K C) (r : ρ) : Flow ρ E Unit :=
  if d.hasSelected then .go () r []
  else
    match select r with
    | (.error e, r) => .stop (.error e) false r [.select i .failed]
    | (.ok .pending, r) => .stop (.ok .pending) false r [.select i .pending]
    | (.ok .done, r) => .go () r [.select i .done]

/-- Ends the execution when the budget is used up or nothing was selected. -/
def openRound (r : ρ) : Flow ρ E (Invocation K) :=
  match cell.read r with
  | .error e => .stop (.error (.resource e)) false r []
  | .ok d =>
    if d.remaining = 0 then .stop (.ok .done) false r []
    else
      match runSelect select i d r with
      | .stop o f r t => .stop o f r t
      | .go () r t =>
        match cell.write r with
        | .error e => .stop (.error (.resource e)) false r t
        | .ok (d, put) =>
          match d.takeSelected with
          | none => .stop (.ok .done) false r t
          | some (invocation, d) => .go invocation (put d) t

def restore (invocation : Invocation K) (r : ρ) : Flow ρ E Unit :=
  match cell.write r with
  | .error e => .stop (.error (.resource e)) false r []
  | .ok (d, put) =>
    match d.restoreSelected invocation with
    | .error e => .stop (.error (.dispatch e)) false r []
    | .ok d => .stop (.error .unknownPlan) false (put d) []

/-- `ran` is what the trace says of the plan, but for what is recorded. -/
def record (ran : Option Cursor → Event) (completion : Completion K C) (r : ρ) : Flow ρ E Unit :=
  match cell.write r with
  | .error e => .stop (.error (.resource e)) false r [ran none]
  | .ok (d, put) =>
    match d.complete completion with
    | .error e => .stop (.error (.dispatch e)) false r [ran none]
    | .ok d => .go () (put d) [ran d.recorded]

/-- The invocation goes back when its plan is unknown; otherwise its result is recorded. -/
def settle (invocation : Invocation K) (r : ρ) : Option (Nat × Reply ρ C) → Flow ρ E Unit
  | none => restore cell invocation r
  | some (k, reply) =>
    record cell (.child i k invocation.cursor reply.trace (answer reply.outcome))
      ⟨⟨invocation.key, reply.cursor⟩, reply.outcome⟩ reply.resources

/-- One time around the loop.  `advance` finds the plan of a key, with its place, and advances
it. -/
def round (advance : K → Cursor → ρ → Option (Option (Nat × Reply ρ C)))
    (finishing : Bool) (r : ρ) : Option (Flow ρ E Unit) :=
  match finishRound finish cell i finishing r with
  | .stop o f r t => some (.stop o f r t)
  | .go () r t₁ =>
    match openRound select cell i r with
    | .stop o f r t => some (.stop o f r (t₁ ++ t))
    | .go invocation r t₂ =>
      match advance invocation.key invocation.cursor r with
      | none => none
      | some child =>
        match settle cell i invocation r child with
        | .stop o f r t => some (.stop o f r (t₁ ++ t₂ ++ t))
        | .go () r t => some (.go () r (t₁ ++ t₂ ++ t))

/-- The loop; its rounds are not bounded by the code, since `finish` may raise the budget again. -/
def dispatch (advance : K → Cursor → ρ → Option (Option (Nat × Reply ρ C))) :
    Nat → Bool → ρ → Option (Outcome E × Bool × ρ × List Event)
  | 0, _, _ => none
  | fuel + 1, finishing, r =>
    match round select finish cell i advance finishing r with
    | none => none
    | some (.stop o f r t) => some (o, f, r, t)
    | some (.go () r t) =>
      match dispatch advance fuel true r with
      | none => none
      | some (o, f, r, t') => some (o, f, r, t ++ t')

end

/-! ## Plans -/

mutual

inductive System (ρ : Type) : Type → Type 1
  | function {E : Type} (run : Run ρ E) : System ρ E
  | nested {E : Type} (plan : Plan ρ E) : System ρ E
  | mapped {E F : Type} (plan : Plan ρ E) (map : E → F) : System ρ F
  | subplans {K C E : Type} (eq : DecidableEq K) (select : Run ρ E) (children : Children ρ K C)
      (finish : Run ρ E) (cell : Cell ρ (Dispatch K C)) : System ρ E

inductive Plan (ρ : Type) : Type → Type 1
  | nil {E : Type} : Plan ρ E
  | cons {E : Type} (step : System ρ E) (steps : Plan ρ E) : Plan ρ E

inductive Children (ρ : Type) : Type → Type → Type 1
  | nil {K C : Type} : Children ρ K C
  | cons {K C : Type} (key : K) (plan : Plan ρ C) (rest : Children ρ K C) : Children ρ K C

end

variable {ρ : Type}

def mapError {E F : Type} (map : E → F) : RunError E → RunError F
  | .step e => .step (map e)
  | .resource e => .resource e
  | .unknownPlan => .unknownPlan
  | .dispatch e => .dispatch e

def Outcome.map {E F : Type} (map : E → F) : Outcome E → Outcome F
  | .ok p => .ok p
  | .error e => .error (mapError map e)

mutual

/-- How many steps the tree order counts; a dispatcher is one. -/
def System.size : {E : Type} → System ρ E → Nat
  | _, .function _ => 1
  | _, .nested plan => plan.size
  | _, .mapped plan _ => plan.size
  | _, .subplans .. => 1

def Plan.size : {E : Type} → Plan ρ E → Nat
  | _, .nil => 0
  | _, .cons step steps => step.size + steps.size

end

mutual

def System.execute (fuel : Nat) :
    {E : Type} → System ρ E → Nat → Cursor → ρ → Option (Reply ρ E)
  | _, .function run, base, c, r =>
    some ⟨(run r).1, c, (run r).2, [.step base (answer (run r).1)]⟩
  | _, .nested plan, base, c, r =>
    (plan.advanceFrom fuel base c.inner.pos c.inner r).map fun reply =>
      { reply with cursor := c.withInner reply.cursor }
  | _, .mapped plan map, base, c, r =>
    (plan.advanceFrom fuel base c.inner.pos c.inner r).map fun reply =>
      ⟨reply.outcome.map map, c.withInner reply.cursor, reply.resources, reply.trace⟩
  | _, .subplans eq select children finish cell, base, c, r =>
    match cell.index r with
    | .error e => some ⟨.error (.resource e), c, r, [.step base .failed]⟩
    | .ok () =>
      (dispatch select finish cell base (fun key c r => children.advance fuel eq key c r) fuel
        c.finishing r).map fun (o, finishing, r, t) =>
          ⟨o, ⟨c.pos, c.nested, finishing⟩, r, t ++ [.step base (answer o)]⟩

/-- `advance` with the first `skip` steps behind it; `base` numbers the steps. -/
def Plan.advanceFrom (fuel : Nat) :
    {E : Type} → Plan ρ E → Nat → Nat → Cursor → ρ → Option (Reply ρ E)
  | _, .nil, _, _, c, r => some ⟨.ok .done, c, r, []⟩
  | _, .cons step steps, base, skip + 1, c, r =>
    steps.advanceFrom fuel (base + step.size) skip c r
  | _, .cons step steps, base, 0, c, r =>
    match step.execute fuel base c r with
    | none => none
    | some reply =>
      match reply.outcome with
      | .error _ => some reply
      | .ok .pending => some reply
      | .ok .done =>
        (steps.advanceFrom fuel (base + step.size) 0 reply.cursor.next reply.resources).map
          fun rest => { rest with trace := reply.trace ++ rest.trace }

/-- Advances the plan of the first entry with this key. -/
def Children.advance (fuel : Nat) :
    {K C : Type} → Children ρ K C → DecidableEq K → K → Cursor → ρ →
      Option (Option (Nat × Reply ρ C))
  | _, _, .nil, _, _, _, _ => some none
  | _, _, .cons key plan rest, eq, wanted, c, r =>
    match eq key wanted with
    | .isTrue _ => (plan.advanceFrom fuel 0 c.pos c r).map fun reply => some (0, reply)
    | .isFalse _ => (rest.advance fuel eq wanted c r).map
        (Option.map fun (k, reply) => (k + 1, reply))

end

def Plan.advance (fuel : Nat) {E : Type} (plan : Plan ρ E) (c : Cursor) (r : ρ) :
    Option (Reply ρ E) :=
  plan.advanceFrom fuel 0 c.pos c r

end Sqware.Plans
