import Mathlib.Data.List.Chain
import Sqware.Schedule.Resume

/-!
# One pass over a plan

The trace of a pass: the steps are executed in tree order, one after the other is done, and one that
is pending or failed is what the next call executes first.  Inside of a dispatcher's step a round is
a selection, the plan selected, and then `finish`, which comes before anything else until it is
done.  The executions of a plan with one invocation cursor are a pass over that plan in turn.
-/

namespace Sqware.Plans

open List Option

variable {ρ E : Type}

/-! ## The plans of a dispatcher -/

def Children.entry {K C : Type} : Children ρ K C → Nat → Option (Plan ρ C)
  | .nil, _ => none
  | .cons _ plan _, 0 => some plan
  | .cons _ _ rest, k + 1 => rest.entry k

mutual

/-- The `k`-th plan of the dispatcher that is step `i` in tree order. -/
def System.entry : {E : Type} → System ρ E → Nat → Nat → Option (Σ C : Type, Plan ρ C)
  | _, .function _, _, _ => none
  | _, .nested plan, i, k => plan.entry i k
  | _, .mapped plan _, i, k => plan.entry i k
  | _, .subplans _ _ children _ _, _, k => (children.entry k).map (Sigma.mk _)

def Plan.entry : {E : Type} → Plan ρ E → Nat → Nat → Option (Σ C : Type, Plan ρ C)
  | _, .nil, _, _ => none
  | _, .cons step steps, i, k =>
    if i < step.size then step.entry i k else steps.entry (i - step.size) k

end

/-- What the trace says of the plans of one dispatcher. -/
abbrev Ran : Type := Nat → Cursor → List Event → Answer → Option Cursor → Prop

/-- The `k`-th plan was advanced from this cursor, and the cursor it left is what was recorded. -/
def Ran.of (fuel : Nat) (entry : Nat → Option (Σ C : Type, Plan ρ C)) : Ran := fun k c t a left =>
  ∃ child r reply, entry k = some child ∧ child.2.advance fuel c r = some reply ∧ reply.trace = t ∧
    answer reply.outcome = a ∧ ∀ c' ∈ left, c' = reply.cursor

theorem Children.advance_entry {fuel : Nat} {K C : Type} (eq : DecidableEq K) {wanted : K}
    {c : Cursor} {r : ρ} {reply : Reply ρ C} : ∀ {children : Children ρ K C} {k : Nat},
    children.advance fuel eq wanted c r = some (some (k, reply)) →
      ∃ plan, children.entry k = some plan ∧ plan.advance fuel c r = some reply
  | .nil, k, h => nomatch h
  | .cons key plan rest, k, h => by
    rw [Children.advance] at h
    split at h
    · obtain ⟨reply', hadv, he⟩ := map_eq_some_iff.1 h
      cases he
      exact ⟨plan, rfl, hadv⟩
    · obtain ⟨found, hadv, he⟩ := map_eq_some_iff.1 h
      obtain ⟨⟨k', reply'⟩, rfl, he⟩ := map_eq_some_iff.1 he
      cases he
      exact rest.advance_entry eq hadv

/-! ## Rounds -/

/-- What happens inside of step `i`, from one value of its flag to another. -/
inductive Rounds (ran : Ran) (i : Nat) : Bool → List Event → Bool → Prop
  | nil (f : Bool) : Rounds ran i f [] f
  | finish {f f' : Bool} {a : Answer} {t : List Event} (h : f = true ∨ a = .done) :
      Rounds ran i f t f' → Rounds ran i true (.finish i a :: t) f'
  | select {f : Bool} (a : Answer) {t : List Event} :
      Rounds ran i false t f → Rounds ran i false (.select i a :: t) f
  | child {k : Nat} {c : Cursor} {inner : List Event} {a : Answer} {left : Option Cursor} {f : Bool}
      {t : List Event} (h : ran k c inner a left) :
      Rounds ran i left.isSome t f → Rounds ran i false (.child i k c inner a left :: t) f

variable {t t' : List Event} {i : Nat} {f f' : Bool} {ran : Ran}

theorem Rounds.append {f'' : Bool} (h : Rounds ran i f t f')
    (h' : Rounds ran i f' t' f'') : Rounds ran i f (t ++ t') f'' := by
  induction h with
  | nil => exact h'
  | finish hd _ ih => exact .finish hd (ih h')
  | select a _ ih => exact .select a (ih h')
  | child hran _ ih => exact .child hran (ih h')

/-- What a part of a round leaves in the trace; `f'` is the flag when the execution goes on. -/
def Flow.Traces {α : Type} (ran : Ran) (i : Nat) (f f' : Bool) : Flow ρ E α → Prop
  | .stop _ g _ t => Rounds ran i f t g
  | .go _ _ t => Rounds ran i f t f'

section

variable {K C : Type} (ran) (select finish : Run ρ E) (cell : Cell ρ (Dispatch K C)) (i : Nat)

theorem finishRound_traces (f : Bool) (r : ρ) :
    (finishRound finish cell i f r).Traces ran i f false := by
  cases f with
  | false => exact .nil false
  | true =>
    have hstay : ∀ a, Rounds ran i true [.finish i a] true :=
      fun a => .finish (.inl rfl) (.nil true)
    rw [finishRound, if_pos rfl]
    split
    · exact hstay _
    · exact hstay _
    split
    · exact hstay _
    split
    · exact .finish (.inr rfl) (.nil false)
    · exact hstay _

theorem runSelect_traces (d : Dispatch K C) (r : ρ) :
    (runSelect select i d r).Traces ran i false false := by
  unfold runSelect
  split
  · exact .nil false
  split <;> exact .select _ (.nil false)

theorem openRound_traces (r : ρ) : (openRound select cell i r).Traces ran i false false := by
  unfold openRound
  split
  · exact .nil false
  next d _ =>
  split
  · exact .nil false
  have hs := runSelect_traces ran select i d r
  generalize runSelect select i d r = selected at hs
  cases selected with
  | stop => exact hs
  | go _ r' t =>
  dsimp only
  split
  · exact hs
  split <;> exact hs

variable {ran}

/-- What is recorded is the cursor that the plan left. -/
theorem complete_recorded {d d' : Dispatch K C} {completion : Completion K C}
    (h : d.complete completion = .ok d') : d'.recorded = some completion.invocation.cursor := by
  unfold Dispatch.complete at h
  split at h
  · split at h
    · cases h
    · cases h
      rfl
  · cases h

theorem settle_traces (invocation : Invocation K) (r : ρ) (child : Option (Nat × Reply ρ C))
    (hran : ∀ k reply, child = some (k, reply) → ∀ left, (∀ c ∈ left, c = reply.cursor) →
      ran k invocation.cursor reply.trace (answer reply.outcome) left) :
    (settle cell i invocation r child : Flow ρ E Unit).Traces ran i false true := by
  cases child with
  | none =>
    rw [settle, restore]
    split
    · exact .nil false
    split <;> exact .nil false
  | some x =>
    have hran := hran x.1 x.2 rfl
    rw [settle, record]
    split
    · exact .child (hran none nofun) (.nil false)
    split
    · exact .child (hran none nofun) (.nil false)
    next d hcomplete =>
    have hleft : d.recorded = some x.2.cursor := complete_recorded hcomplete
    rw [hleft]
    exact .child (hran _ fun c hc => (some.inj hc).symm) (.nil true)

variable {advance : K → Cursor → ρ → Option (Option (Nat × Reply ρ C))}
  (hran : ∀ key c r k reply, advance key c r = some (some (k, reply)) → ∀ left,
    (∀ c' ∈ left, c' = reply.cursor) → ran k c reply.trace (answer reply.outcome) left)

include hran

theorem round_traces (f : Bool) (r : ρ) {flow : Flow ρ E Unit}
    (h : round select finish cell i advance f r = some flow) : flow.Traces ran i f true := by
  unfold round at h
  have hf := finishRound_traces ran finish cell i f r
  generalize finishRound finish cell i f r = first at h hf
  cases first with
  | stop =>
    cases h
    exact hf
  | go _ r1 t1 =>
    have ho := openRound_traces ran select cell i r1
    dsimp only at h
    generalize openRound select cell i r1 = opened at h ho
    cases opened with
    | stop =>
      cases h
      exact hf.append ho
    | go invocation r2 t2 =>
      dsimp only at h
      split at h
      · cases h
      next child hadv =>
      have hc := settle_traces (E := E) cell i invocation r2 child fun k reply hchild =>
        hran _ _ r2 k reply (hadv.trans (congrArg some hchild))
      generalize settle cell i invocation r2 child = settled at h hc
      cases settled <;>
      · cases h
        exact (hf.append ho).append hc

/-- What a dispatcher executes comes in rounds. -/
theorem dispatch_rounds (fuel : Nat) {r r' : ρ} {o : Outcome E}
    (h : dispatch select finish cell i advance fuel f r = some (o, f', r', t)) :
    Rounds ran i f t f' := by
  induction fuel generalizing f r o f' r' t with
  | zero => cases h
  | succ fuel ih =>
    rw [dispatch] at h
    split at h
    · cases h
    · next hround =>
      cases h
      exact round_traces select finish cell i hran f r hround
    next hround =>
    split at h
    · cases h
    next hrest =>
    cases h
    have hr := round_traces select finish cell i hran f r hround
    exact Rounds.append hr (ih hrest)

end

/-! ## Steps and their numbers -/

/-- A step leaves its number and answer at the end of its trace. -/
def Basic.Emits (b : Basic ρ E) (ran : Ran) (i : Nat) : Prop :=
  ∀ f r o f' r' t, b.exec f r = some (o, f', r', t) →
    ∃ t', t = t' ++ [.step i (answer o)] ∧ Rounds ran i f t' f'

/-- The steps of a list, numbered from `base`. -/
def Numbered (rans : Nat → Ran) (base : Nat) (l : List (Basic ρ E)) : Prop :=
  ∀ (j : Nat) (b : Basic ρ E), l[j]? = some b → b.Emits (rans (base + j)) (base + j)

variable {b : Basic ρ E} {rans rans' : Nat → Ran}

theorem numbered_singleton {base : Nat} (h : b.Emits (rans base) base) :
    Numbered rans base [b] := by
  intro j b' hb
  cases j with
  | zero =>
    cases hb
    exact h
  | succ j => cases hb

theorem Numbered.congr {base : Nat} {l : List (Basic ρ E)} (h : Numbered rans base l)
    (heq : ∀ j, j < l.length → rans' (base + j) = rans (base + j)) : Numbered rans' base l := by
  intro j b hb
  rw [heq j (List.getElem?_eq_some_iff.1 hb).1]
  exact h j b hb

theorem numbered_append {base : Nat} {l1 l2 : List (Basic ρ E)} (h1 : Numbered rans base l1)
    (h2 : Numbered rans (base + l1.length) l2) : Numbered rans base (l1 ++ l2) := by
  intro j b hb
  by_cases hj : j < l1.length
  · rw [getElem?_append_left hj] at hb
    exact h1 j b hb
  · rw [getElem?_append_right (by omega)] at hb
    have := h2 (j - l1.length) b hb
    rwa [show base + l1.length + (j - l1.length) = base + j by omega] at this

theorem answer_map {F : Type} (map : E → F) (o : Outcome E) : answer (o.map map) = answer o := by
  rcases o with e | p
  · rfl
  · cases p <;> rfl

theorem emits_map {F : Type} (map : E → F) (h : b.Emits ran i) : (b.map map).Emits ran i := by
  intro f r o f' r' t hexec
  obtain ⟨⟨o', g, r1, t1⟩, hb, heq⟩ := map_eq_some_iff.1 hexec
  cases heq
  rw [answer_map]
  exact h f r o' f' r' t hb

mutual

theorem System.flatten_numbered (fuel : Nat) {E : Type} : ∀ (s : System ρ E) (base : Nat),
    Numbered (fun i => .of fuel (s.entry (i - base))) base (s.flatten fuel base) ∧
      (s.flatten fuel base).length = s.size
  | .function run, base => by
    refine ⟨numbered_singleton fun f r o f' r' t h => ?_, rfl⟩
    cases h
    exact ⟨[], rfl, .nil f⟩
  | .nested plan, base => plan.flatten_numbered fuel base
  | .mapped plan map, base => by
    obtain ⟨hnum, hlen⟩ := plan.flatten_numbered fuel base
    refine ⟨fun j b hb => ?_, (length_map _).trans hlen⟩
    have hb : ((plan.flatten fuel base).map (Basic.map map))[j]? = some b := hb
    rw [List.getElem?_map] at hb
    obtain ⟨b', hb', rfl⟩ := map_eq_some_iff.1 hb
    exact emits_map map (hnum j b' hb')
  | .subplans eq select children finish cell, base => by
    refine ⟨numbered_singleton fun f r o f' r' t h => ?_, rfl⟩
    dsimp only at h
    cases hidx : cell.index r with
    | error e =>
      rw [hidx] at h
      cases h
      exact ⟨[], rfl, .nil f⟩
    | ok u =>
      rw [hidx] at h
      obtain ⟨⟨o', g, r1, t1⟩, hd, heq⟩ := map_eq_some_iff.1 h
      cases heq
      refine ⟨t1, rfl, dispatch_rounds select finish cell base ?_ fuel hd⟩
      intro key c r k reply hadv left hleft
      obtain ⟨plan, hentry, hadv⟩ := Children.advance_entry eq hadv
      exact ⟨⟨_, plan⟩, r, reply, by simp [System.entry, hentry], hadv, rfl, rfl, hleft⟩

theorem Plan.flatten_numbered (fuel : Nat) {E : Type} : ∀ (plan : Plan ρ E) (base : Nat),
    Numbered (fun i => .of fuel (plan.entry (i - base))) base (plan.flatten fuel base) ∧
      (plan.flatten fuel base).length = plan.size
  | .nil, _ => ⟨fun j _ hb => (by cases j <;> cases hb), rfl⟩
  | .cons step steps, base => by
    obtain ⟨hnum, hlen⟩ := step.flatten_numbered fuel base
    obtain ⟨hnum', hlen'⟩ := steps.flatten_numbered fuel (base + step.size)
    refine ⟨?_, ?_⟩
    · show Numbered _ base (step.flatten fuel base ++ steps.flatten fuel (base + step.size))
      refine numbered_append (hnum.congr fun j hj => ?_) ?_
      · rw [hlen] at hj
        rw [Nat.add_sub_cancel_left]
        exact congrArg (Ran.of fuel) (funext fun k => if_pos hj)
      · rw [hlen]
        refine hnum'.congr fun j _ => congrArg (Ran.of fuel) (funext fun k => ?_)
        rw [Plan.entry, if_neg (by omega), Nat.add_assoc, Nat.add_sub_cancel_left,
          Nat.add_sub_cancel_left,
          ← Nat.add_assoc, Nat.add_sub_cancel_left]
    · show (step.flatten fuel base ++ steps.flatten fuel (base + step.size)).length = _
      rw [length_append, hlen, hlen']
      rfl

end

/-! ## One call -/

/-- The trace of work from step `p` to step `q`. -/
inductive Works (rans : Nat → Ran) : Nat → Bool → List Event → Nat → Bool → Prop
  | nil (p : Nat) (f : Bool) : Works rans p f [] p f
  | done {p q : Nat} {f f' f'' : Bool} {t t' : List Event} : Rounds (rans p) p f t f' →
      Works rans (p + 1) false t' q f'' → Works rans p f (t ++ .step p .done :: t') q f''
  | stay {p q : Nat} {f f' f'' : Bool} {a : Answer} {t t' : List Event} : a ≠ .done →
      Rounds (rans p) p f t f' → Works rans p f' t' q f'' →
      Works rans p f (t ++ .step p a :: t') q f''

theorem Works.append {p q m : Nat} {f'' : Bool} (h : Works rans p f t q f')
    (h' : Works rans q f' t' m f'') : Works rans p f (t ++ t') m f'' := by
  induction h with
  | nil => exact h'
  | done hr _ ih =>
    rw [append_assoc]
    exact .done hr (ih h')
  | stay ha hr _ ih =>
    rw [append_assoc]
    exact .stay ha hr (ih h')

/-- A call works from the head of the list to the step it stops at. -/
theorem flat_works {l : List (Basic ρ E)} {p : Nat} {r : ρ} {flat : Flat ρ E}
    (hnum : Numbered rans p l) (hf : l = [] → f = false) (h : flatAdvance l f r = some flat) :
    ∃ q, Works rans p f flat.trace q flat.rest.2 ∧ p ≤ q ∧ q ≤ p + l.length ∧
      flat.rest.1 = l.drop (q - p) ∧ (answer flat.outcome = .done ↔ q = p + l.length) ∧
      (answer flat.outcome ≠ .done → ∃ t, flat.trace = t ++ [.step q (answer flat.outcome)]) := by
  induction l generalizing p f r flat with
  | nil =>
    cases h
    refine ⟨p, ?_, Nat.le_refl _, Nat.le_refl _, drop_nil.symm, iff_of_true rfl rfl,
      fun hne => absurd rfl hne⟩
    rw [hf rfl]
    exact .nil p false
  | cons b bs ih =>
    have hb := hnum 0 b rfl
    have hbs : Numbered rans (p + 1) bs := fun j b' hb' => by
      rw [Nat.add_assoc, Nat.add_comm 1]
      exact hnum (j + 1) b' hb'
    rw [flatAdvance] at h
    cases hexec : b.exec f r with
    | none =>
      rw [hexec] at h
      cases h
    | some x =>
      obtain ⟨o, g, r1, t1⟩ := x
      rw [hexec] at h
      obtain ⟨t', rfl, hr⟩ := hb f r o g r1 t1 hexec
      -- not done: the call ends here
      have hstay : ∀ a : Answer, a ≠ .done → ∃ q, Works rans p f (t' ++ [.step p a]) q g ∧ p ≤ q ∧
          q ≤ p + (b :: bs).length ∧ b :: bs = (b :: bs).drop (q - p) ∧
          (a = .done ↔ q = p + (b :: bs).length) ∧
          (a ≠ .done → ∃ t, t' ++ [.step p a] = t ++ [.step q a]) := by
        intro a ha
        refine ⟨p, .stay ha hr (.nil p g), Nat.le_refl _, Nat.le_add_right _ _, ?_, ?_,
          fun _ => ⟨t', rfl⟩⟩
        · rw [Nat.sub_self, drop_zero]
        · exact iff_of_false ha (by rw [length_cons]; omega)
      rcases o with e | prog
      · cases h
        exact hstay .failed (by decide)
      cases prog with
      | pending =>
        cases h
        exact hstay .pending (by decide)
      | done =>
        obtain ⟨flat', hflat, heq⟩ := map_eq_some_iff.1 h
        cases heq
        obtain ⟨q, hw, hle, hle', hdrop, hdone, hlast⟩ := ih hbs (fun _ => rfl) hflat
        have hq : q - p = q - (p + 1) + 1 := by omega
        refine ⟨q, ?_, by omega, ?_, ?_, ?_, ?_⟩
        · show Works rans p f (t' ++ [Event.step p .done] ++ flat'.trace) q flat'.rest.2
          rw [append_assoc]
          exact .done hr hw
        · rw [length_cons]
          omega
        · rw [hq, drop_succ_cons]
          exact hdrop
        · rw [length_cons]
          exact hdone.trans ⟨fun h => by omega, fun h => by omega⟩
        intro hne
        obtain ⟨t, ht⟩ := hlast hne
        refine ⟨t' ++ [.step p .done] ++ t, ?_⟩
        show t' ++ [Event.step p .done] ++ flat'.trace = _
        rw [ht, append_assoc _ t]

/-! ## The trace of a pass -/

/-- The steps executed, with what they answered. -/
def steps (t : List Event) : List (Nat × Answer) :=
  t.filterMap fun
    | .step i a => some (i, a)
    | _ => none

theorem Rounds.steps (h : Rounds ran i f t f') : steps t = [] := by
  induction h with
  | nil => rfl
  | finish _ _ ih => exact ih
  | select _ _ ih => exact ih
  | child _ _ ih => exact ih

theorem steps_append (t t' : List Event) : steps (t ++ t') = steps t ++ steps t' :=
  filterMap_append

theorem Rounds.steps_append {p : Nat} {a : Answer}
    (h : Rounds ran i f t f') : Plans.steps (t ++ .step p a :: t') = (p, a) :: Plans.steps t' := by
  rw [Plans.steps_append, h.steps]
  rfl

/-- A step that is done is not executed again; the steps come in order. -/
def Later (x y : Nat × Answer) : Prop := x.1 ≤ y.1 ∧ (x.2 = .done → x.1 < y.1)

/-- What is executed next. -/
def Next (x y : Nat × Answer) : Prop := y.1 = if x.2 = .done then x.1 + 1 else x.1

namespace Works

variable {p q : Nat} {f f' : Bool} {t : List Event}

theorem le (h : Works rans p f t q f') : p ≤ q := by
  induction h with
  | nil => exact Nat.le_refl _
  | done _ _ ih => exact Nat.le_of_succ_le ih
  | stay _ _ _ ih => exact ih

theorem steps_ge (h : Works rans p f t q f') : ∀ x ∈ steps t, p ≤ x.1 := by
  induction h with
  | nil => simp [steps]
  | done hr _ ih =>
    rw [hr.steps_append]
    intro x hx
    rcases mem_cons.1 hx with rfl | hx
    · exact Nat.le_refl _
    · exact Nat.le_of_succ_le (ih x hx)
  | stay _ hr _ ih =>
    rw [hr.steps_append]
    intro x hx
    rcases mem_cons.1 hx with rfl | hx
    · exact Nat.le_refl _
    · exact ih x hx

theorem steps_later (h : Works rans p f t q f') : (steps t).Pairwise Later := by
  induction h with
  | nil => exact .nil
  | done hr hw ih =>
    rw [hr.steps_append]
    refine .cons (fun x hx => ?_) ih
    have := hw.steps_ge x hx
    exact ⟨Nat.le_of_succ_le this, fun _ => this⟩
  | stay ha hr hw ih =>
    rw [hr.steps_append]
    exact .cons (fun x hx => ⟨hw.steps_ge x hx, fun hd => absurd hd ha⟩) ih

theorem steps_head (h : Works rans p f t q f') : ∀ x ∈ (steps t).head?, x.1 = p := by
  cases h with
  | nil => simp [steps]
  | done hr _ =>
    rw [hr.steps_append]
    simp
  | stay _ hr _ =>
    rw [hr.steps_append]
    simp

theorem steps_chain (h : Works rans p f t q f') : (steps t).IsChain Next := by
  induction h with
  | nil => exact .nil
  | done hr hw ih =>
    rw [hr.steps_append, isChain_cons]
    exact ⟨fun x hx => hw.steps_head x hx, ih⟩
  | @stay p _ _ _ _ a _ _ ha hr hw ih =>
    rw [hr.steps_append, isChain_cons]
    refine ⟨fun x hx => ?_, ih⟩
    have hif : (if a = .done then p + 1 else p) = p := if_neg ha
    exact (hw.steps_head x hx).trans hif.symm

/-- The steps behind are those that were done. -/
theorem mem_done (h : Works rans p f t q f') (hi : p ≤ i) : (i, .done) ∈ steps t ↔ i < q := by
  induction h with
  | nil p f => simp [steps]; omega
  | @done p q _ _ _ _ _ hr hw ih =>
    rw [hr.steps_append, mem_cons]
    have hle := hw.le
    by_cases hp : i = p
    · subst hp
      exact ⟨fun _ => hle, fun _ => .inl rfl⟩
    · rw [ih (by omega)]
      refine ⟨fun h => h.resolve_left fun he => hp (congrArg Prod.fst he), .inr⟩
  | @stay p _ _ _ _ a _ _ ha hr _ ih =>
    rw [hr.steps_append, mem_cons, ih hi]
    refine ⟨fun h => h.resolve_left fun he => ha (congrArg Prod.snd he).symm, .inr⟩

end Works

/-! ## Passes -/

/-- What the trace says of the dispatchers of a plan. -/
abbrev Plan.Ran (fuel : Nat) (plan : Plan ρ E) (i : Nat) : Plans.Ran := .of fuel (plan.entry i)

/-- The calls of `advance` since the cursor was made or reset, with the trace and the answers. -/
inductive Pass (fuel : Nat) (plan : Plan ρ E) : Cursor → List Event → List Answer → Prop
  | default : Pass fuel plan .default [] []
  | reset (c : Cursor) : Pass fuel plan c.reset [] []
  | advance {c : Cursor} {t : List Event} {as : List Answer} (r : ρ) {reply : Reply ρ E} :
      Pass fuel plan c t as → plan.advance fuel c r = some reply →
      Pass fuel plan reply.cursor (t ++ reply.trace) (as ++ [answer reply.outcome])

section

variable {fuel : Nat} {plan : Plan ρ E}

/-- One call from a cursor that stands for all steps after the first `q`. -/
theorem advance_works {c : Cursor} {q : Nat} {r : ρ} {reply : Reply ρ E}
    (hrest : plan.rest fuel c = ((plan.flatten fuel 0).drop q, f)) (hq : q ≤ plan.size)
    (h : plan.advance fuel c r = some reply) :
    ∃ q' f', Works (plan.Ran fuel) q f reply.trace q' f' ∧
      plan.rest fuel reply.cursor = ((plan.flatten fuel 0).drop q', f') ∧ q' ≤ plan.size ∧
      (answer reply.outcome = .done ↔ q' = plan.size) ∧
      (answer reply.outcome ≠ .done → ∃ t, reply.trace = t ++
        [.step q' (answer reply.outcome)]) := by
  obtain ⟨hnum, hlen⟩ := plan.flatten_numbered fuel 0
  have hflat := advance_flat fuel plan c r
  rw [h, map_some, hrest] at hflat
  have hnum' : Numbered (plan.Ran fuel) q ((plan.flatten fuel 0).drop q) := by
    intro j b hb
    rw [List.getElem?_drop] at hb
    have := hnum (q + j) b hb
    rwa [Nat.zero_add] at this
  have hnil : (plan.flatten fuel 0).drop q = [] → f = false := by
    have := plan.restFrom_nil fuel 0 c.pos c
    change (plan.rest fuel c).1 = [] → (plan.rest fuel c).2 = false at this
    rwa [hrest] at this
  obtain ⟨q', hw, hle, hle', hdrop, hdone, hlast⟩ := flat_works hnum' hnil hflat.symm
  rw [length_drop, hlen] at hle' hdone
  rw [drop_drop] at hdrop
  have hq' : q + (q' - q) = q' := by omega
  rw [hq'] at hdrop
  refine ⟨q', (plan.rest fuel reply.cursor).2, hw, Prod.ext hdrop rfl, by omega, ?_, hlast⟩
  exact hdone.trans ⟨fun h => by omega, fun h => by omega⟩

theorem pass_works {c : Cursor} {as : List Answer} (h : Pass fuel plan c t as) :
    ∃ q f, Works (plan.Ran fuel) 0 false t q f ∧ plan.rest fuel c =
      ((plan.flatten fuel 0).drop q, f) ∧
      q ≤ plan.size ∧ ∀ a ∈ as.getLast?, (a = .done ↔ q = plan.size) ∧
        (a ≠ .done → ∃ t', t = t' ++ [.step q a]) := by
  induction h with
  | default => exact ⟨0, false, .nil 0 false, rest_default fuel plan, Nat.zero_le _, by simp⟩
  | reset c => exact ⟨0, false, .nil 0 false, rest_reset fuel plan c, Nat.zero_le _, by simp⟩
  | @advance c t as r reply _ hadv ih =>
    obtain ⟨q, f, hw, hrest, hq, -⟩ := ih
    obtain ⟨q', f', hw', hrest', hq', hdone, hlast⟩ := advance_works hrest hq hadv
    refine ⟨q', f', hw.append hw', hrest', hq', fun a ha => ?_⟩
    rw [List.getLast?_concat, mem_some_iff] at ha
    subst ha
    refine ⟨hdone, fun hne => ?_⟩
    obtain ⟨t', ht'⟩ := hlast hne
    exact ⟨t ++ t', by rw [ht', append_assoc]⟩

/-- The next call begins with the step at which the pass stands. -/
theorem advance_head {c : Cursor} {q : Nat} {r : ρ} {reply : Reply ρ E}
    (hrest : plan.rest fuel c = ((plan.flatten fuel 0).drop q, f)) (hq : q < plan.size)
    (h : plan.advance fuel c r = some reply) : ∃ a, (steps reply.trace).head? = some (q, a) := by
  obtain ⟨q', f', hw, -, -, hdone, hlast⟩ := advance_works hrest (Nat.le_of_lt hq) h
  have hne : steps reply.trace ≠ [] := by
    intro hnil
    by_cases ha : answer reply.outcome = .done
    · have := (hw.mem_done (Nat.le_refl q)).2 (hdone.1 ha ▸ hq)
      rw [hnil] at this
      cases this
    · obtain ⟨t, ht⟩ := hlast ha
      rw [ht, steps_append] at hnil
      exact absurd (append_eq_nil_iff.1 hnil).2 (by simp [steps])
  obtain ⟨x, l, hx⟩ := exists_cons_of_ne_nil hne
  refine ⟨x.2, ?_⟩
  have hx' : (steps reply.trace).head? = some x := by rw [hx, List.head?_cons]
  rw [hx', ← hw.steps_head x hx']

end

/-- The executions, in a trace, of the `k`-th plan of dispatcher `i` with one invocation cursor: it
is new or was reset at the first, and later the one that the execution before left in its
completion. -/
inductive Invoked (i k : Nat) : List Event → Cursor → List Event → List Answer → Prop
  | default (t : List Event) : Invoked i k t .default [] []
  | reset (t : List Event) (c : Cursor) : Invoked i k t c.reset [] []
  | child {t inner inner' : List Event} {c c' : Cursor} {as : List Answer} {a : Answer} :
      Invoked i k t c inner as →
      Invoked i k (t ++ [.child i k c inner' a (some c')]) c' (inner ++ inner') (as ++ [a])
  | other {t inner : List Event} {c : Cursor} {as : List Answer} (e : Event) :
      Invoked i k t c inner as → Invoked i k (t ++ [e]) c inner as

/-- The plans that are executed inside of a trace, at any depth. -/
inductive Within : {E C : Type} → Plan ρ E → List Event → Plan ρ C → Cursor → List Event →
    List Answer → Prop
  | child {E C : Type} {plan : Plan ρ E} {child : Plan ρ C} {t t' : List Event} {c : Cursor}
      {as : List Answer} {i k : Nat} :
      plan.entry i k = some ⟨C, child⟩ → Invoked i k t c t' as → Within plan t child c t' as
  | inside {E C D : Type} {plan : Plan ρ E} {child : Plan ρ C} {last : Plan ρ D} {c c' : Cursor}
      {t t' t'' : List Event} {as as' : List Answer} :
      Within plan t child c t' as → Within child t' last c' t'' as' → Within plan t last c' t'' as'

theorem Rounds.mem_child {j k : Nat} {c : Cursor} {inner : List Event} {a : Answer}
    {left : Option Cursor} (h : Rounds ran i f t f') (hm : .child j k c inner a left ∈ t) :
    j = i ∧ ran k c inner a left := by
  induction h with
  | nil => cases hm
  | finish _ _ ih =>
    rcases mem_cons.1 hm with he | hm
    · cases he
    · exact ih hm
  | select _ _ ih =>
    rcases mem_cons.1 hm with he | hm
    · cases he
    · exact ih hm
  | child hran _ ih =>
    rcases mem_cons.1 hm with he | hm
    · cases he
      exact ⟨rfl, hran⟩
    · exact ih hm

theorem Works.mem_child {p q k : Nat} {c : Cursor} {inner : List Event} {a : Answer}
    {left : Option Cursor} (h : Works rans p f t q f') (hm : .child i k c inner a left ∈ t) :
    rans i k c inner a left := by
  have hone : ∀ {p f t f' a'} {t' : List Event}, Rounds (rans p) p f t f' →
      (.child i k c inner a left ∈ t' → rans i k c inner a left) →
      .child i k c inner a left ∈ t ++ .step p a' :: t' → rans i k c inner a left := by
    intro p f t f' a' t' hr ih hm
    rcases mem_append.1 hm with hm | hm
    · obtain ⟨rfl, hran⟩ := hr.mem_child hm
      exact hran
    · rcases mem_cons.1 hm with he | hm
      · cases he
      · exact ih hm
  induction h with
  | nil => cases hm
  | done hr _ ih => exact hone hr ih hm
  | stay _ hr _ ih => exact hone hr ih hm

section

variable {fuel : Nat}

/-- What is executed with one invocation cursor is a pass. -/
theorem invoked_pass {C : Type} {plan : Plan ρ E} {child : Plan ρ C} {k : Nat} {c : Cursor}
    {inner : List Event} {as : List Answer} (hentry : plan.entry i k = some ⟨C, child⟩)
    (hran : ∀ c inner a left, .child i k c inner a left ∈ t → plan.Ran fuel i k c inner a left)
    (h : Invoked i k t c inner as) : Pass fuel child c inner as := by
  induction h with
  | default => exact .default
  | reset t c => exact .reset c
  | @child t inner inner' c c' as a _ ih =>
    obtain ⟨child', r, reply, hentry', hadv, rfl, rfl, hleft⟩ := hran c inner' a (some c') (by simp)
    cases hentry.symm.trans hentry'
    rw [hleft c' rfl]
    exact (ih fun c inner a left hm => hran c inner a left (mem_append_left _ hm)).advance r hadv
  | other e _ ih => exact ih fun c inner a left hm => hran c inner a left (mem_append_left _ hm)

theorem within_pass {C : Type} {plan : Plan ρ E} {child : Plan ρ C} {c c' : Cursor}
    {t' : List Event} {as as' : List Answer} (hw : Within plan t child c' t' as')
    (h : Pass fuel plan c t as) : Pass fuel child c' t' as' := by
  induction hw generalizing c as with
  | child hentry hinvoked =>
    obtain ⟨q, f, hw, -⟩ := pass_works h
    exact invoked_pass hentry (fun c inner a left hm => hw.mem_child hm) hinvoked
  | inside _ _ ih ih' => exact ih' (ih h)

/-- What holds of a pass over a plan: `t` are the executions of the calls so far, `as` their
answers, and `c` is the cursor they left. -/
structure Resumes (fuel : Nat) (plan : Plan ρ E) (c : Cursor) (t : List Event) (as : List Answer) :
    Prop where
  once : (steps t).Pairwise Later
  order : (steps t).IsChain Next
  first : ∀ x ∈ (steps t).head?, x.1 = 0
  done : ∀ a ∈ as.getLast?, (a = .done ↔ ∀ i, i < plan.size → (i, .done) ∈ steps t)
  again : ∀ a ∈ as.getLast?, a ≠ .done → ∃ i, (steps t).getLast? = some (i, a) ∧
    ∀ r reply, plan.advance fuel c r = some reply → ∃ b, (steps reply.trace).head? = some (i, b)
  rounds : ∃ q f, Works (plan.Ran fuel) 0 false t q f
  reset : ∀ changes c' r, outputs fuel plan changes (Cursor.reset c') r =
    outputs fuel plan changes .default r

theorem pass_resumes {plan : Plan ρ E} {c : Cursor} {as : List Answer}
    (h : Pass fuel plan c t as) : Resumes fuel plan c t as := by
  obtain ⟨q, f, hw, hrest, hq, hlast⟩ := pass_works h
  constructor
  case once => exact hw.steps_later
  case order => exact hw.steps_chain
  case first => exact hw.steps_head
  case done =>
    intro a ha
    rw [(hlast a ha).1]
    constructor
    · rintro rfl i hi
      exact (hw.mem_done (Nat.zero_le i)).2 hi
    intro hall
    by_contra hne
    have := (hw.mem_done (Nat.zero_le q)).1 (hall q (by omega))
    omega
  case again =>
    intro a ha hne
    obtain ⟨t', ht'⟩ := (hlast a ha).2 hne
    refine ⟨q, ?_, fun r reply hadv => advance_head hrest ?_ hadv⟩
    · rw [ht', steps_append]
      exact List.getLast?_concat
    · exact Nat.lt_of_le_of_ne hq fun heq => hne ((hlast a ha).1.2 heq)
  case rounds => exact ⟨q, f, hw⟩
  case reset =>
    intro changes c' r
    rw [outputs_rest, outputs_rest, rest_reset, rest_default]

/-- A pass over a plan resumes, and so does every plan that the dispatchers inside of it execute,
for each of its invocation cursors. -/
theorem plan_resumes {plan : Plan ρ E} {c : Cursor} {as : List Answer} (h : Pass fuel plan c t as) :
    Resumes fuel plan c t as ∧ ∀ (C : Type) (child : Plan ρ C) c' t' as',
      Within plan t child c' t' as' → Resumes fuel child c' t' as' :=
  ⟨pass_resumes h, fun _ _ _ _ _ hw => pass_resumes (within_pass hw h)⟩

end

/-! ## A dispatcher that resumes a plan -/

/-- A dispatcher's cell, the cursor that came back with a result, and a counter. -/
private structure Desk where
  cell : Dispatch Unit Unit
  saved : Cursor
  count : Nat

/-- Pending until the counter is used up. -/
private def countdown : Run Desk Unit
  | ⟨cell, saved, 0⟩ => (.ok .done, ⟨cell, saved, 0⟩)
  | ⟨cell, saved, n + 1⟩ => (.ok .pending, ⟨cell, saved, n⟩)

/-- Selects the one plan there is, with the cursor that came back. -/
private def selectOnly : Run Desk Unit := fun r =>
  (.ok .done, { r with cell.state := .selected ⟨(), r.saved⟩ })

/-- Takes the result. -/
private def takeOnly : Run Desk Unit := fun r =>
  (.ok .done, { r with cell.state := .idle, saved := r.cell.recorded.getD .default })

private def child : Plan Desk Unit :=
  .cons (.function fun r => (.ok .done, r)) (.cons (.function countdown) .nil)

private def dispatcher : Plan Desk Unit :=
  .cons (.subplans inferInstance selectOnly (.cons () child .nil) takeOnly
    ⟨fun _ => .ok (), fun r => .ok r.cell, fun r => .ok (r.cell, fun d => { r with cell := d })⟩)
      .nil

/-- The plan is pending at its second step, and goes on there when it is selected again. -/
private def twoRounds : List Event :=
  [.select 0 .done,
    .child 0 0 .default [.step 0 .done, .step 1 .pending] .pending (some ⟨1, none, false⟩),
    .finish 0 .done, .select 0 .done,
    .child 0 0 ⟨1, none, false⟩ [.step 1 .done] .done (some ⟨2, none, false⟩),
    .finish 0 .done, .step 0 .done]

/-- The plan and its child plan resume, the child with the cursor of its first round. -/
theorem plan_resumes_two_rounds : Resumes 3 dispatcher ⟨1, none, false⟩ twoRounds [.done] ∧
    Resumes 3 child ⟨2, none, false⟩ [.step 0 .done, .step 1 .pending, .step 1 .done]
      [.pending, .done] := by
  have h : dispatcher.advance 3 .default ⟨⟨2, .idle⟩, .default, 1⟩ =
      some ⟨.ok .done, ⟨1, none, false⟩, ⟨⟨0, .idle⟩, ⟨2, none, false⟩, 0⟩, twoRounds⟩ := rfl
  obtain ⟨hplan, hchild⟩ := plan_resumes (Pass.default.advance _ h)
  refine ⟨hplan, hchild _ child _ _ _ (.child (i := 0) (k := 0) rfl ?_)⟩
  exact .other _ (.other _ (.child (.other _ (.other _ (.child (.default [.select 0 .done]))))))

/-- With a budget of two, one call executes `select` and `finish` twice, each time done. -/
theorem selects_twice :
    (dispatcher.advance 3 .default ⟨⟨2, .idle⟩, .default, 1⟩).map Reply.trace =
      some twoRounds := rfl

end Sqware.Plans
