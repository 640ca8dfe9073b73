import Sqware.Lib.Lists

/-!
# Threads over a shared state

A call is a program of atomic accesses to a state that all threads share, and of questions to the
world outside.  Threads run their calls access by access, in any order; a call returns at the
moment of its last access.  Each thread has a relation `R i` that says what the others may do to
the state while it waits.
-/

namespace Threads

open Function

/-- A program over a state `σ`, with answers `ω` from outside.  An access sees the state before
it. -/
inductive Prog (σ ω α : Type) : Type
  | ret (a : α)
  | act (f : σ → σ) (k : σ → Prog σ ω α)
  | ask (k : ω → Prog σ ω α)

namespace Prog

variable {σ ω α β : Type}

def bind : Prog σ ω α → (α → Prog σ ω β) → Prog σ ω β
  | .ret a, c => c a
  | .act f k, c => .act f fun s => (k s).bind c
  | .ask k, c => .ask fun o => (k o).bind c

instance : Monad (Prog σ ω) where
  pure := .ret
  bind := bind

def get (f : σ → α) : Prog σ ω α := .act id fun s => .ret (f s)

def set (f : σ → σ) : Prog σ ω Unit := .act f fun _ => .ret ()

end Prog

/-! ## What a program needs -/

section

variable {σ ω α β : Type} (R G : σ → σ → Prop) (M : σ → Prop)

/-- Before every access the others do what `R` allows; the access does what `G` allows.  While the
program is under way `M` holds, at its end `Q`. -/
def wp (Q : α → σ → Prop) : Prog σ ω α → σ → Prop
  | .ret a, s => Q a s
  | .act f k, s => M s ∧ ∀ s', R s s' → G s' (f s') ∧ wp Q (k s') (f s')
  | .ask k, s => M s ∧ ∀ o s', R s s' → wp Q (k o) s'

variable {R G M}

theorem wp_mono {Q Q' : α → σ → Prop} (hQ : ∀ a s, Q a s → Q' a s) {p : Prog σ ω α} {s : σ}
    (h : wp R G M Q p s) : wp R G M Q' p s := by
  induction p generalizing s with
  | ret a => exact hQ a s h
  | act f k ih => exact ⟨h.1, fun s' hs => ⟨(h.2 s' hs).1, ih _ (h.2 s' hs).2⟩⟩
  | ask k ih => exact ⟨h.1, fun o s' hs => ih o (h.2 o s' hs)⟩

/-- Programs in sequence. -/
theorem wp_bind {Q : β → σ → Prop} {p : Prog σ ω α} {c : α → Prog σ ω β} {s : σ}
    (h : wp R G M (fun a => wp R G M Q (c a)) p s) : wp R G M Q (p >>= c) s := by
  induction p generalizing s with
  | ret a => exact h
  | act f k ih => exact ⟨h.1, fun s' hs => ⟨(h.2 s' hs).1, ih _ (h.2 s' hs).2⟩⟩
  | ask k ih => exact ⟨h.1, fun o s' hs => ih o (h.2 o s' hs)⟩

/-- A call that fails ends there. -/
theorem wp_try {ε : Type} {Q : Except ε β → σ → Prop} {x : ExceptT ε (Prog σ ω) α}
    {c : α → ExceptT ε (Prog σ ω) β} {s : σ}
    (h : wp R G M (fun r s => match r with
      | .ok a => wp R G M Q (c a).run s
      | .error e => Q (.error e) s) x.run s) : wp R G M Q (x >>= c).run s := by
  refine wp_bind (wp_mono ?_ h)
  rintro (e | a) s hs
  · exact hs
  · exact hs

end

/-! ## Runs -/

/-- `log i` holds the calls of thread `i` that have returned, with what they returned. -/
structure World (ι κ σ ω α : Type) where
  shared : σ
  thread : ι → Option (κ × Prog σ ω α) := fun _ => none
  log : ι → List (κ × α) := fun _ => []

/-- A thread starts a call, acts once, or gets an answer. -/
inductive Event (ι κ ω : Type)
  | call (i : ι) (c : κ)
  | act (i : ι)
  | answer (i : ι) (o : ω)

section

variable {ι κ σ ω α : Type} [DecidableEq ι]

namespace World

/-- Thread `i` is left with program `p` of its call `c`. -/
def place (w : World ι κ σ ω α) (i : ι) (c : κ) (p : Prog σ ω α) (s : σ) : World ι κ σ ω α :=
  match p with
  | .ret a =>
    { shared := s
      thread := update w.thread i none
      log := update w.log i (w.log i ++ [(c, a)]) }
  | p => { w with shared := s, thread := update w.thread i (some (c, p)) }

def step (body : κ → Prog σ ω α) (w : World ι κ σ ω α) : Event ι κ ω → Option (World ι κ σ ω α)
  | .call i c =>
    match w.thread i with
    | none => some (w.place i c (body c) w.shared)
    | some _ => none
  | .act i =>
    match w.thread i with
    | some (c, .act f k) => some (w.place i c (k w.shared) (f w.shared))
    | _ => none
  | .answer i o =>
    match w.thread i with
    | some (c, .ask k) => some (w.place i c (k o) w.shared)
    | _ => none

/-- What can be called when is up to `may`. -/
inductive Runs (body : κ → Prog σ ω α) (may : World ι κ σ ω α → Event ι κ ω → Prop) (s : σ) :
    World ι κ σ ω α → Prop
  | start : Runs body may s { shared := s }
  | step {w w' : World ι κ σ ω α} {e : Event ι κ ω} :
      Runs body may s w → may w e → w.step body e = some w' → Runs body may s w'

theorem runs_foldlM {body : κ → Prog σ ω α} {may : World ι κ σ ω α → Event ι κ ω → Prop} {s : σ}
    {events : List (Event ι κ ω)} (hmay : ∀ w, ∀ e ∈ events, may w e) {w w' : World ι κ σ ω α}
    (hw : Runs body may s w) (h : events.foldlM (step body) w = some w') : Runs body may s w' :=
  Lists.foldlM_keeps (fun e he w _ hw h1 => .step hw (hmay w e he) h1) hw h

end World

/-- `Inv i l s` is what thread `i` knows of the state when its own log is `l`. -/
structure Rules (body : κ → Prog σ ω α) (may : World ι κ σ ω α → Event ι κ ω → Prop)
    (R : ι → σ → σ → Prop) (Inv : ι → List (κ × α) → σ → Prop) : Prop where
  refl : ∀ i s, R i s s
  trans : ∀ i {s₁ s₂ s₃}, R i s₁ s₂ → R i s₂ s₃ → R i s₁ s₃
  stable : ∀ i l {s s'}, Inv i l s → R i s s' → Inv i l s'
  call : ∀ w i c, may w (.call i c) → (∀ j, Inv j (w.log j) w.shared) →
    wp (R i) (fun s s' => ∀ j, j ≠ i → R j s s') (Inv i (w.log i))
      (fun a => Inv i (w.log i ++ [(c, a)])) (body c) w.shared

namespace Rules

variable {body : κ → Prog σ ω α} {may : World ι κ σ ω α → Event ι κ ω → Prop}
  {R : ι → σ → σ → Prop} {Inv : ι → List (κ × α) → σ → Prop}

/-- Thread `i` between two accesses. -/
def Waits (R : ι → σ → σ → Prop) (Inv : ι → List (κ × α) → σ → Prop) (w : World ι κ σ ω α)
    (i : ι) (c : κ) (p : Prog σ ω α) : Prop :=
  (∀ a, p ≠ .ret a) ∧
    wp (R i) (fun s s' => ∀ j, j ≠ i → R j s s') (Inv i (w.log i))
      (fun a => Inv i (w.log i ++ [(c, a)])) p w.shared

omit [DecidableEq ι] in
theorem wp_stable (h : Rules body may R Inv) {i : ι} {l : List (κ × α)} {p : Prog σ ω α}
    (hp : ∀ a, p ≠ .ret a) {G : σ → σ → Prop} {Q : α → σ → Prop} {s s' : σ}
    (hw : wp (R i) G (Inv i l) Q p s) (hs : R i s s') : wp (R i) G (Inv i l) Q p s' := by
  cases p with
  | ret a => exact absurd rfl (hp a)
  | act f k =>
    exact ⟨h.stable i l hw.1 hs, fun s'' hs' => hw.2 s'' (h.trans i hs hs')⟩
  | ask k => exact ⟨h.stable i l hw.1 hs, fun o s'' hs' => hw.2 o s'' (h.trans i hs hs')⟩

omit [DecidableEq ι] in
theorem wp_inv {i : ι} {l : List (κ × α)} {p : Prog σ ω α} (hp : ∀ a, p ≠ .ret a)
    {G : σ → σ → Prop} {Q : α → σ → Prop} {s : σ} (hw : wp (R i) G (Inv i l) Q p s) :
    Inv i l s := by
  cases p with
  | ret a => exact absurd rfl (hp a)
  | act f k => exact hw.1
  | ask k => exact hw.1

/-- Thread `i` comes to `p` by a step that the others allow for. -/
theorem place_inv (h : Rules body may R Inv) {w : World ι κ σ ω α} {i : ι} {c : κ}
    {p : Prog σ ω α} {s : σ} (hinv : ∀ j, Inv j (w.log j) w.shared)
    (hwait : ∀ j d q, w.thread j = some (d, q) → Waits R Inv w j d q)
    (hs : ∀ j, j ≠ i → R j w.shared s)
    (hp : wp (R i) (fun s s' => ∀ j, j ≠ i → R j s s') (Inv i (w.log i))
      (fun a => Inv i (w.log i ++ [(c, a)])) p s) :
    (∀ j, Inv j ((w.place i c p s).log j) (w.place i c p s).shared) ∧
      ∀ j d q, (w.place i c p s).thread j = some (d, q) → Waits R Inv (w.place i c p s) j d q := by
  have hother : ∀ j, j ≠ i → Inv j (w.log j) s := fun j hj => h.stable j _ (hinv j) (hs j hj)
  have hstill : ∀ j d q, j ≠ i → w.thread j = some (d, q) →
      (∀ a, q ≠ .ret a) ∧ wp (R j) (fun s s' => ∀ k, k ≠ j → R k s s') (Inv j (w.log j))
        (fun a => Inv j (w.log j ++ [(d, a)])) q s := fun j d q hj ht =>
    ⟨(hwait j d q ht).1, h.wp_stable (hwait j d q ht).1 (hwait j d q ht).2 (hs j hj)⟩
  by_cases hret : ∃ a, p = .ret a
  · obtain ⟨a, rfl⟩ := hret
    constructor
    · intro j
      by_cases hj : j = i
      · subst hj
        show Inv j (update w.log j _ j) s
        rw [update_self]
        exact hp
      · show Inv j (update w.log i _ j) s
        rw [update_of_ne hj]
        exact hother j hj
    · intro j d q ht
      have ht : update w.thread i none j = some (d, q) := ht
      have hj : j ≠ i := by
        rintro rfl
        rw [update_self] at ht
        cases ht
      rw [update_of_ne hj] at ht
      show (∀ a, q ≠ .ret a) ∧ wp _ _ (Inv j (update w.log i _ j))
        (fun b => Inv j (update w.log i _ j ++ _)) q s
      rw [update_of_ne hj]
      exact hstill j d q hj ht
  · have hnot : ∀ a, p ≠ .ret a := fun a ha => hret ⟨a, ha⟩
    have hplace : w.place i c p s =
        { w with shared := s, thread := update w.thread i (some (c, p)) } := by
      cases p with
      | ret a => exact absurd rfl (hnot a)
      | act f k => rfl
      | ask k => rfl
    rw [hplace]
    constructor
    · intro j
      by_cases hj : j = i
      · subst hj
        exact wp_inv hnot hp
      · exact hother j hj
    intro j d q ht
    have ht : update w.thread i (some (c, p)) j = some (d, q) := ht
    by_cases hj : j = i
    · subst hj
      rw [update_self] at ht
      cases ht
      exact ⟨hnot, hp⟩
    · rw [update_of_ne hj] at ht
      exact hstill j d q hj ht

theorem step_inv (h : Rules body may R Inv) {w w' : World ι κ σ ω α} {e : Event ι κ ω}
    (hinv : ∀ j, Inv j (w.log j) w.shared)
    (hwait : ∀ j d q, w.thread j = some (d, q) → Waits R Inv w j d q) (hmay : may w e)
    (hstep : w.step body e = some w') :
    (∀ j, Inv j (w'.log j) w'.shared) ∧
      ∀ j d q, w'.thread j = some (d, q) → Waits R Inv w' j d q := by
  cases e with
  | call i c =>
    simp only [World.step] at hstep
    split at hstep
    · cases hstep
      exact h.place_inv hinv hwait (fun j _ => h.refl j _) (h.call w i c hmay hinv)
    · cases hstep
  | act i =>
    simp only [World.step] at hstep
    split at hstep
    · next c f k ht =>
      cases hstep
      obtain ⟨-, -, hact⟩ := hwait i c _ ht
      obtain ⟨hG, hk⟩ := hact w.shared (h.refl i _)
      exact h.place_inv hinv hwait hG hk
    · cases hstep
  | answer i o =>
    simp only [World.step] at hstep
    split at hstep
    · next c k ht =>
      cases hstep
      obtain ⟨-, -, hask⟩ := hwait i c _ ht
      exact h.place_inv hinv hwait (fun j _ => h.refl j _) (hask o w.shared (h.refl i _))
    · cases hstep

/-- If every call keeps what its thread knows, every run does. -/
theorem runs_inv (h : Rules body may R Inv) {s : σ} (hs : ∀ i, Inv i [] s) {w : World ι κ σ ω α}
    (hrun : World.Runs body may s w) : ∀ i, Inv i (w.log i) w.shared := by
  have key : (∀ j, Inv j (w.log j) w.shared) ∧
      ∀ j d q, w.thread j = some (d, q) → Waits R Inv w j d q := by
    induction hrun with
    | start => exact ⟨hs, fun j d q ht => nomatch ht⟩
    | step _ hmay hstep ih => exact h.step_inv ih.1 ih.2 hmay hstep
  exact key.1

end Rules

end

end Threads
