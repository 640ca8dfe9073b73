import Sqware.Schedule.Plan

/-!
# How plans resume

What a cursor stands for is the list of steps that are left, with the plans inside laid out flat.
Advancing a plan is then working off that list: a step that is done is dropped, one that is pending
or failed stays at its head.  A cursor that was reset stands for the whole list, as the default
one does.
-/

namespace Sqware.Plans

open List Option

variable {ρ : Type}

/-! ## Steps laid out flat -/

/-- A step of the flat list: a function or a dispatcher.  The flag is a dispatcher's own. -/
structure Basic (ρ E : Type) where
  exec : Bool → ρ → Option (Outcome E × Bool × ρ × List Event)

def Basic.map {E F : Type} (map : E → F) (b : Basic ρ E) : Basic ρ F :=
  ⟨fun f r => (b.exec f r).map fun (o, f, r, t) => (o.map map, f, r, t)⟩

/-- The steps left and the flag of the first. -/
abbrev Rest (ρ E : Type) : Type := List (Basic ρ E) × Bool

/-- What working off the list comes to. -/
structure Flat (ρ E : Type) where
  outcome : Outcome E
  rest : Rest ρ E
  resources : ρ
  trace : List Event

/-- Works off the list. -/
def flatAdvance {E : Type} : List (Basic ρ E) → Bool → ρ → Option (Flat ρ E)
  | [], _, r => some ⟨.ok .done, ([], false), r, []⟩
  | b :: bs, f, r =>
    match b.exec f r with
    | none => none
    | some (o, f, r, t) =>
      match o with
      | .ok .done => (flatAdvance bs false r).map fun flat => { flat with trace := t ++ flat.trace }
      | o => some ⟨o, (b :: bs, f), r, t⟩

mutual

def System.flatten (fuel : Nat) : {E : Type} → System ρ E → Nat → List (Basic ρ E)
  | _, .function run, base =>
    [⟨fun f r => some ((run r).1, f, (run r).2, [.step base (answer (run r).1)])⟩]
  | _, .nested plan, base => plan.flatten fuel base
  | _, .mapped plan map, base => (plan.flatten fuel base).map (Basic.map map)
  | _, .subplans eq select children finish cell, base =>
    [⟨fun f r =>
      match cell.index r with
      | .error e => some (.error (.resource e), f, r, [.step base .failed])
      | .ok () =>
        (dispatch select finish cell base (fun key c r => children.advance fuel eq key c r) fuel f
          r).map fun (o, f, r, t) => (o, f, r, t ++ [.step base (answer o)])⟩]

def Plan.flatten (fuel : Nat) : {E : Type} → Plan ρ E → Nat → List (Basic ρ E)
  | _, .nil, _ => []
  | _, .cons step steps, base =>
    step.flatten fuel base ++ steps.flatten fuel (base + step.size)

end

mutual

/-- What is left of a step under way. -/
def System.rest (fuel : Nat) : {E : Type} → System ρ E → Nat → Cursor → Rest ρ E
  | _, .function run, base, _ => (System.flatten fuel (.function run) base, false)
  | _, .nested plan, base, c => plan.restFrom fuel base c.inner.pos c.inner
  | _, .mapped plan map, base, c =>
    let rest := plan.restFrom fuel base c.inner.pos c.inner
    (rest.1.map (Basic.map map), rest.2)
  | _, .subplans eq select children finish cell, base, c =>
    (System.flatten fuel (.subplans eq select children finish cell) base, c.finishing)

def Plan.restFrom (fuel : Nat) : {E : Type} → Plan ρ E → Nat → Nat → Cursor → Rest ρ E
  | _, .nil, _, _, _ => ([], false)
  | _, .cons step steps, base, skip + 1, c => steps.restFrom fuel (base + step.size) skip c
  | _, .cons step steps, base, 0, c =>
    let rest := step.rest fuel base c
    (rest.1 ++ steps.flatten fuel (base + step.size), rest.2)

end

/-- What is left of a plan at a cursor. -/
def Plan.rest (fuel : Nat) {E : Type} (plan : Plan ρ E) (c : Cursor) : Rest ρ E :=
  plan.restFrom fuel 0 c.pos c

/-! ## Working off the list -/

section

variable {E F : Type}

theorem flatAdvance_done {l : List (Basic ρ E)} {f : Bool} {r : ρ} {flat : Flat ρ E}
    (h : flatAdvance l f r = some flat) (hd : flat.outcome = .ok .done) :
    flat.rest = ([], false) := by
  induction l generalizing f r flat with
  | nil =>
    cases h
    rfl
  | cons b bs ih =>
    rw [flatAdvance] at h
    split at h
    · cases h
    next o f' r' t _ =>
    split at h
    · obtain ⟨flat', hf, rfl⟩ := map_eq_some_iff.1 h
      exact (ih hf hd : flat'.rest = ([], false))
    · next hne =>
      cases h
      exact absurd hd (by simpa using hne)

/-- Two lists in a row. -/
theorem flatAdvance_append (l1 l2 : List (Basic ρ E)) (f : Bool) (r : ρ)
    (hf : l1 = [] → f = false) :
    flatAdvance (l1 ++ l2) f r =
      match flatAdvance l1 f r with
      | none => none
      | some flat =>
        match flat.outcome with
        | .ok .done => (flatAdvance l2 false flat.resources).map fun flat' =>
            { flat' with trace := flat.trace ++ flat'.trace }
        | _ => some { flat with rest := (flat.rest.1 ++ l2, flat.rest.2) } := by
  induction l1 generalizing f r with
  | nil =>
    rw [nil_append, hf rfl]
    simp only [flatAdvance, nil_append]
    cases flatAdvance l2 false r <;> rfl
  | cons b bs ih =>
    rw [cons_append, flatAdvance, flatAdvance]
    cases b.exec f r with
    | none => rfl
    | some x =>
      obtain ⟨o, f', r', t⟩ := x
      rcases o with e | p
      · rfl
      cases p with
      | pending => rfl
      | done =>
        dsimp only
        rw [ih false r' (fun _ => rfl)]
        cases flatAdvance bs false r' with
        | none => rfl
        | some flat =>
          obtain ⟨o, rest, r'', t'⟩ := flat
          rcases o with e | p
          · rfl
          cases p with
          | pending => rfl
          | done =>
            dsimp only [map_some]
            cases flatAdvance l2 false r'' with
            | none => rfl
            | some flat' => simp only [map_some, append_assoc]

theorem flatAdvance_map (map : E → F) (l : List (Basic ρ E)) (f : Bool) (r : ρ) :
    flatAdvance (l.map (Basic.map map)) f r =
      (flatAdvance l f r).map fun flat =>
        ⟨flat.outcome.map map, (flat.rest.1.map (Basic.map map), flat.rest.2), flat.resources,
          flat.trace⟩ := by
  induction l generalizing f r with
  | nil => rfl
  | cons b bs ih =>
    rw [map_cons, flatAdvance, flatAdvance]
    have hexec : (b.map map).exec f r =
        (b.exec f r).map fun (o, f, r, t) => (o.map map, f, r, t) := rfl
    rw [hexec]
    cases b.exec f r with
    | none => rfl
    | some x =>
      obtain ⟨o, f', r', t⟩ := x
      rcases o with e | p
      · rfl
      cases p with
      | pending => rfl
      | done =>
        dsimp only [map_some, Outcome.map]
        rw [ih]
        cases flatAdvance bs false r' <;> rfl

end

/-! ## Cursors as lists of steps -/

mutual

theorem System.rest_nil (fuel : Nat) {E : Type} : ∀ (s : System ρ E) (base : Nat) (c : Cursor),
    (s.rest fuel base c).1 = [] → (s.rest fuel base c).2 = false
  | .function _, _, _ => fun _ => rfl
  | .nested plan, base, c => plan.restFrom_nil fuel base c.inner.pos c.inner
  | .mapped plan _, base, c => fun h =>
    plan.restFrom_nil fuel base c.inner.pos c.inner (map_eq_nil_iff.1 h)
  | .subplans .., _, _ => fun h => nomatch h

theorem Plan.restFrom_nil (fuel : Nat) {E : Type} :
    ∀ (plan : Plan ρ E) (base skip : Nat) (c : Cursor),
      (plan.restFrom fuel base skip c).1 = [] → (plan.restFrom fuel base skip c).2 = false
  | .nil, _, _, _ => fun _ => rfl
  | .cons step steps, base, skip + 1, c => steps.restFrom_nil fuel (base + step.size) skip c
  | .cons step _, base, 0, c => fun h => step.rest_nil fuel base c (append_eq_nil_iff.1 h).1

end

/-- A cursor on a step that has not begun. -/
def Cursor.Clear (c : Cursor) : Prop := c.finishing = false ∧ c.nested.map reset = c.nested

theorem Cursor.reset_reset : ∀ c : Cursor, c.reset.reset = c.reset
  | ⟨_, none, _⟩ => rfl
  | ⟨_, some nested, _⟩ => by
    simp only [reset]
    rw [nested.reset_reset]

theorem Cursor.clear_next (c : Cursor) : c.next.Clear := by
  refine ⟨rfl, ?_⟩
  show (c.nested.map reset).map reset = c.nested.map reset
  cases c.nested with
  | none => rfl
  | some n => exact congrArg some n.reset_reset

theorem Cursor.clear_reset (c : Cursor) : c.reset.Clear ∧ c.reset.pos = 0 := by
  match c with
  | ⟨_, none, _⟩ => exact ⟨⟨rfl, rfl⟩, rfl⟩
  | ⟨_, some nested, _⟩ => exact ⟨⟨rfl, congrArg some nested.reset_reset⟩, rfl⟩

/-- The cursor inside of a clear one is at its start. -/
theorem Cursor.Clear.inner {c : Cursor} (h : c.Clear) : c.inner.Clear ∧ c.inner.pos = 0 := by
  obtain ⟨-, h⟩ := h
  unfold Cursor.inner
  cases hn : c.nested with
  | none => exact ⟨⟨rfl, rfl⟩, rfl⟩
  | some n =>
    rw [hn] at h
    rw [getD_some, ← (some.inj h : n.reset = n)]
    exact n.clear_reset

mutual

theorem System.rest_clear (fuel : Nat) {E : Type} : ∀ (s : System ρ E) (base : Nat) {c : Cursor},
    c.Clear → s.rest fuel base c = (s.flatten fuel base, false)
  | .function _, _, _, _ => rfl
  | .nested plan, base, c, h => by
    rw [System.rest, h.inner.2, plan.restFrom_clear fuel base h.inner.1]
    rfl
  | .mapped plan map, base, c, h => by
    rw [System.rest, h.inner.2, plan.restFrom_clear fuel base h.inner.1]
    rfl
  | .subplans .., _, _, h => congrArg (Prod.mk _) h.1

theorem Plan.restFrom_clear (fuel : Nat) {E : Type} : ∀ (plan : Plan ρ E) (base : Nat) {c : Cursor},
    c.Clear → plan.restFrom fuel base 0 c = (plan.flatten fuel base, false)
  | .nil, _, _, _ => rfl
  | .cons step steps, base, c, h => by
    rw [Plan.restFrom, step.rest_clear fuel base h]
    rfl

end

/-! ## Advancing is working off the list -/

/-- A step's execution, seen as work on what is left of it. -/
def Reply.flat {E : Type} (reply : Reply ρ E) (rest : Rest ρ E) : Flat ρ E :=
  ⟨reply.outcome, match reply.outcome with
    | .ok .done => ([], false)
    | _ => rest, reply.resources, reply.trace⟩

theorem Outcome.of_map_done {E F : Type} {map : E → F} {o : Outcome E}
    (h : o.map map = .ok .done) : o = .ok .done := by
  rcases o with e | p
  · cases h
  · cases p with
    | pending => cases h
    | done => rfl

theorem Reply.flat_of_done {E : Type} {reply : Reply ρ E} {rest : Rest ρ E}
    (h : reply.outcome = .ok .done → rest = ([], false)) :
    reply.flat rest = ⟨reply.outcome, rest, reply.resources, reply.trace⟩ := by
  obtain ⟨o, c, r, t⟩ := reply
  rcases o with e | p
  · rfl
  cases p with
  | pending => rfl
  | done =>
    rw [h rfl]
    rfl

/-- Executing a step is working off what is left of it. -/
def ExecutesFlat (fuel : Nat) {E : Type} (s : System ρ E) : Prop :=
  ∀ base c r,
    (s.execute fuel base c r).map (fun reply => reply.flat (s.rest fuel base reply.cursor)) =
        flatAdvance (s.rest fuel base c).1 (s.rest fuel base c).2 r ∧
      ∀ reply, s.execute fuel base c r = some reply → reply.cursor.pos = c.pos

/-- Advancing the plan works off the list of its steps. -/
def AdvancesFlat (fuel : Nat) {E : Type} (plan : Plan ρ E) : Prop :=
  ∀ base skip c r,
    (plan.advanceFrom fuel base skip c r).map (fun reply => Flat.mk reply.outcome
        (plan.restFrom fuel base (skip + (reply.cursor.pos - c.pos)) reply.cursor)
        reply.resources reply.trace) =
        flatAdvance (plan.restFrom fuel base skip c).1 (plan.restFrom fuel base skip c).2 r ∧
      ∀ reply, plan.advanceFrom fuel base skip c r = some reply → c.pos ≤ reply.cursor.pos

section

variable {fuel : Nat} {E F : Type}

theorem executesFlat_function (run : Run ρ E) : ExecutesFlat fuel (.function run) := by
  intro base c r
  refine ⟨?_, fun reply h => by cases h; rfl⟩
  simp only [System.execute, System.rest, System.flatten, flatAdvance, map_some, Reply.flat]
  rcases (run r).1 with e | p
  · rfl
  · cases p <;> rfl

theorem executesFlat_nested {plan : Plan ρ E} (ih : AdvancesFlat fuel plan) :
    ExecutesFlat fuel (.nested plan) := by
  intro base c r
  obtain ⟨hflat, hpos⟩ := ih base c.inner.pos c.inner r
  rw [System.execute, System.rest, ← hflat]
  cases hadv : plan.advanceFrom fuel base c.inner.pos c.inner r with
  | none => exact ⟨rfl, fun _ h => nomatch h⟩
  | some reply =>
    refine ⟨?_, fun _ h => by cases h; rfl⟩
    rw [hadv, map_some, Nat.add_sub_cancel' (hpos reply hadv)] at hflat
    simp only [map_some, Nat.add_sub_cancel' (hpos reply hadv)]
    exact congrArg some (Reply.flat_of_done fun hd => flatAdvance_done hflat.symm hd)

theorem executesFlat_mapped {plan : Plan ρ E} (ih : AdvancesFlat fuel plan) (map : E → F) :
    ExecutesFlat fuel (.mapped plan map) := by
  intro base c r
  obtain ⟨hflat, hpos⟩ := ih base c.inner.pos c.inner r
  rw [System.execute, System.rest, flatAdvance_map, ← hflat]
  cases hadv : plan.advanceFrom fuel base c.inner.pos c.inner r with
  | none => exact ⟨rfl, fun _ h => nomatch h⟩
  | some reply =>
    refine ⟨?_, fun _ h => by cases h; rfl⟩
    rw [hadv, map_some, Nat.add_sub_cancel' (hpos reply hadv)] at hflat
    simp only [map_some, Nat.add_sub_cancel' (hpos reply hadv)]
    refine congrArg some (Reply.flat_of_done fun hd => ?_)
    have hrest := flatAdvance_done hflat.symm (Outcome.of_map_done hd)
    exact congrArg (fun rest : Rest ρ _ => (rest.1.map (Basic.map map), rest.2)) hrest

theorem executesFlat_subplans {K C : Type} (eq : DecidableEq K) (select : Run ρ E)
    (children : Children ρ K C) (finish : Run ρ E) (cell : Cell ρ (Dispatch K C)) :
    ExecutesFlat fuel (.subplans eq select children finish cell) := by
  intro base c r
  simp only [System.execute, System.rest, System.flatten, flatAdvance]
  cases cell.index r with
  | error e => exact ⟨rfl, fun _ h => by cases h; rfl⟩
  | ok u =>
    cases dispatch select finish cell base (fun key c r => children.advance fuel eq key c r) fuel
        c.finishing r with
    | none => exact ⟨rfl, fun _ h => nomatch h⟩
    | some x =>
      obtain ⟨o, f, r', t⟩ := x
      refine ⟨?_, fun _ h => by cases h; rfl⟩
      rcases o with e | p
      · rfl
      · cases p with
        | pending => rfl
        | done => simp [Reply.flat]

theorem advancesFlat_nil : AdvancesFlat fuel (.nil : Plan ρ E) :=
  fun _ _ _ _ => ⟨rfl, fun _ h => by cases h; exact Nat.le_refl _⟩

theorem advancesFlat_cons {step : System ρ E} {steps : Plan ρ E} (hstep : ExecutesFlat fuel step)
    (hsteps : AdvancesFlat fuel steps) : AdvancesFlat fuel (.cons step steps) := by
  intro base skip c r
  cases skip with
  | succ skip =>
    simp only [Plan.advanceFrom, Plan.restFrom, Nat.add_right_comm skip 1]
    exact hsteps (base + step.size) skip c r
  | zero =>
    obtain ⟨hflat, hpos⟩ := hstep base c r
    simp only [Plan.advanceFrom, Plan.restFrom]
    rw [flatAdvance_append _ _ _ _ (step.rest_nil fuel base c), ← hflat]
    cases hexec : step.execute fuel base c r with
    | none => exact ⟨rfl, fun _ h => nomatch h⟩
    | some reply =>
      obtain ⟨o, c', r', t⟩ := reply
      have hp : c'.pos = c.pos := hpos _ hexec
      -- a step that is not done stays where it is
      have hstay : ∀ o : Outcome E,
          Flat.mk o ((Plan.cons step steps).restFrom fuel base (0 + (c'.pos - c.pos)) c') r' t =
            ⟨o, ((step.rest fuel base c').1 ++ steps.flatten fuel (base + step.size),
              (step.rest fuel base c').2), r', t⟩ := by
        intro o
        rw [hp, Nat.sub_self]
        rfl
      rcases o with e | p
      · exact ⟨congrArg some (hstay (.error e)), fun _ h => by cases h; exact Nat.le_of_eq hp.symm⟩
      cases p with
      | pending =>
        exact ⟨congrArg some (hstay (.ok .pending)),
          fun _ h => by cases h; exact Nat.le_of_eq hp.symm⟩
      | done =>
        obtain ⟨ih, ihpos⟩ := hsteps (base + step.size) 0 c'.next r'
        rw [steps.restFrom_clear fuel (base + step.size) c'.clear_next] at ih
        simp only [map_some, Reply.flat]
        rw [← ih]
        cases hrest : steps.advanceFrom fuel (base + step.size) 0 c'.next r' with
        | none => exact ⟨rfl, fun _ h => nomatch h⟩
        | some rest =>
          have hlt : c'.pos + 1 ≤ rest.cursor.pos := ihpos rest hrest
          refine ⟨?_, fun _ h => by cases h; exact Nat.le_of_succ_le (hp ▸ hlt)⟩
          have hskip : 0 + (rest.cursor.pos - c.pos) = 0 + (rest.cursor.pos - c'.next.pos) + 1 := by
            show _ = 0 + (rest.cursor.pos - (c'.pos + 1)) + 1
            omega
          simp only [map_some]
          rw [hskip]
          rfl

end

mutual

theorem System.executesFlat (fuel : Nat) {E : Type} : ∀ s : System ρ E, ExecutesFlat fuel s
  | .function run => executesFlat_function run
  | .nested plan => executesFlat_nested (plan.advancesFlat fuel)
  | .mapped plan map => executesFlat_mapped (plan.advancesFlat fuel) map
  | .subplans eq select children finish cell =>
    executesFlat_subplans eq select children finish cell

theorem Plan.advancesFlat (fuel : Nat) {E : Type} : ∀ plan : Plan ρ E, AdvancesFlat fuel plan
  | .nil => advancesFlat_nil
  | .cons step steps => advancesFlat_cons (step.executesFlat fuel) (steps.advancesFlat fuel)

end

/-- A plan with a cursor is its list of steps left. -/
theorem advance_flat (fuel : Nat) {E : Type} (plan : Plan ρ E) (c : Cursor) (r : ρ) :
    (plan.advance fuel c r).map (fun reply =>
        Flat.mk reply.outcome (plan.rest fuel reply.cursor) reply.resources reply.trace) =
      flatAdvance (plan.rest fuel c).1 (plan.rest fuel c).2 r := by
  obtain ⟨hflat, hpos⟩ := plan.advancesFlat fuel 0 c.pos c r
  unfold Plan.rest
  rw [← hflat]
  unfold Plan.advance
  cases hadv : plan.advanceFrom fuel 0 c.pos c r with
  | none => rfl
  | some reply => simp only [map_some, Nat.add_sub_cancel' (hpos reply hadv)]

theorem rest_default (fuel : Nat) {E : Type} (plan : Plan ρ E) :
    plan.rest fuel .default = (plan.flatten fuel 0, false) :=
  plan.restFrom_clear fuel 0 ⟨rfl, rfl⟩

/-- After a reset all of them are left. -/
theorem rest_reset (fuel : Nat) {E : Type} (plan : Plan ρ E) (c : Cursor) :
    plan.rest fuel c.reset = (plan.flatten fuel 0, false) := by
  unfold Plan.rest
  rw [c.clear_reset.2]
  exact plan.restFrom_clear fuel 0 c.clear_reset.1

/-! ## Runs from cursors that stand for the same list -/

/-- What a sequence of calls shows; before each of them the resources may be changed. -/
def outputs (fuel : Nat) {E : Type} (plan : Plan ρ E) :
    List (ρ → ρ) → Cursor → ρ → List (Option (Outcome E × ρ × List Event))
  | [], _, _ => []
  | change :: changes, c, r =>
    match plan.advance fuel c (change r) with
    | none => [none]
    | some reply =>
      some (reply.outcome, reply.resources, reply.trace) ::
        outputs fuel plan changes reply.cursor reply.resources

/-- The same calls, each working off the steps that are left. -/
def flatOutputs {E : Type} :
    List (ρ → ρ) → Rest ρ E → ρ → List (Option (Outcome E × ρ × List Event))
  | [], _, _ => []
  | change :: changes, rest, r =>
    match flatAdvance rest.1 rest.2 (change r) with
    | none => [none]
    | some flat =>
      some (flat.outcome, flat.resources, flat.trace) ::
        flatOutputs changes flat.rest flat.resources

theorem outputs_rest (fuel : Nat) {E : Type} (plan : Plan ρ E) (changes : List (ρ → ρ)) (c : Cursor)
    (r : ρ) : outputs fuel plan changes c r = flatOutputs changes (plan.rest fuel c) r := by
  induction changes generalizing c r with
  | nil => rfl
  | cons change changes ih =>
    simp only [outputs, flatOutputs, ← advance_flat]
    cases plan.advance fuel c (change r) with
    | none => rfl
    | some reply => exact congrArg _ (ih reply.cursor reply.resources)

/-- Any calls on a plan answer, leave and execute what the same calls on the list of its steps
do. -/
theorem outputs_flatten (fuel : Nat) {E : Type} (plan : Plan ρ E) (changes : List (ρ → ρ)) (r : ρ) :
    outputs fuel plan changes .default r = flatOutputs changes (plan.flatten fuel 0, false) r := by
  rw [outputs_rest, rest_default]

end Sqware.Plans
