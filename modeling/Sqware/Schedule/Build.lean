import Mathlib.Order.Lattice
import Sqware.Lib.Lists
import Sqware.Schedule.Plan

/-!
# Building a plan

A schedule is a list of named nodes with phases and a list of edges between names.  `build` takes
the nodes one by one: always the first of those that have no lower phase and no predecessor left.
-/

namespace Sqware.Plans

open List

inductive BuildError
  | duplicate | unknown | cycle | borrowConflict | room
  deriving DecidableEq, Repr

structure Node (ρ L E : Type) : Type 1 where
  name : String
  phase : L
  system : System ρ E

/-- `node` refuses a name that is there, so names are distinct. -/
structure Schedule (ρ L E : Type) : Type 1 where
  nodes : List (Node ρ L E) := []
  edges : List (String × String) := []
  names : (nodes.map Node.name).Nodup := by exact .nil

def Plan.ofSteps {ρ E : Type} : List (System ρ E) → Plan ρ E
  | [] => .nil
  | step :: steps => .cons step (ofSteps steps)

section
variable {ρ L E : Type}

namespace Schedule

variable (s : Schedule ρ L E)

def knows (name : String) : Bool := s.nodes.any (·.name = name)

theorem knows_iff {s : Schedule ρ L E} {name : String} :
    s.knows name = true ↔ name ∈ s.nodes.map Node.name := by
  simp [knows]

/-- `add_plan`, and `add_system` and `add_subplans` after their checks of the accesses; the list of
nodes may fail to grow. -/
def node (room : Bool) (n : Node ρ L E) : Except BuildError (Schedule ρ L E) :=
  if h : s.knows n.name = true then .error .duplicate
  else if room then
    .ok { s with
      nodes := s.nodes ++ [n]
      names := by
        rw [map_append, nodup_append]
        refine ⟨s.names, nodup_singleton _, fun a ha b hb he => h (knows_iff.2 ?_)⟩
        rwa [← mem_singleton.1 hb, ← he] }
  else .error .room

def before (room : Bool) (first second : String) : Except BuildError (Schedule ρ L E) :=
  if room then .ok { s with edges := s.edges ++ [(first, second)] } else .error .room

end Schedule

variable [LinearOrder L] (edges : List (String × String))

def ready (nodes : List (Node ρ L E)) (n : Node ρ L E) : Bool :=
  !(nodes.any fun other => other.phase < n.phase) &&
    !(edges.any fun e => e.2 = n.name && nodes.any fun other => other.name = e.1)

/-- The first node that is ready, and the others. -/
def pick (nodes : List (Node ρ L E)) : Option (Node ρ L E × List (Node ρ L E)) :=
  (nodes.findIdx? (ready edges nodes)).bind fun i =>
    nodes[i]?.map fun n => (n, nodes.eraseIdx i)

/-- The loop, with the number of nodes that are left. -/
def buildLoop : Nat → List (Node ρ L E) → Except BuildError (List (System ρ E))
  | 0, _ => .ok []
  | left + 1, nodes =>
    match pick edges nodes with
    | none => .error .cycle
    | some (n, nodes) => (buildLoop left nodes).map (n.system :: ·)

/-- The schedule is empty afterwards; the list of steps may fail to be reserved. -/
def Schedule.build (s : Schedule ρ L E) (room : Bool) :
    Except BuildError (Plan ρ E) × Schedule ρ L E :=
  (if s.edges.any fun e => !s.knows e.1 || !s.knows e.2 then .error .unknown
    else if room then (buildLoop s.edges s.nodes.length s.nodes).map Plan.ofSteps
    else .error .room, {})

/-! ## Orders -/

/-- Every edge's source stands before its target, and the phases never go down. -/
structure Respects (order : List (Node ρ L E)) : Prop where
  edge : ∀ e ∈ edges, ∃ i j : Nat, i < j ∧ (order.map Node.name)[i]? = some e.1 ∧
    (order.map Node.name)[j]? = some e.2
  phase : order.Pairwise (·.phase ≤ ·.phase)

/-- Of the nodes left, none has a lower phase and none must come before. -/
def Ready (nodes : List (Node ρ L E)) (n : Node ρ L E) : Prop :=
  (∀ m ∈ nodes, n.phase ≤ m.phase) ∧ ∀ m ∈ nodes, (m.name, n.name) ∉ edges

/-- The order that takes the first ready node each time. -/
inductive Greedy : List (Node ρ L E) → List (Node ρ L E) → Prop
  | nil : Greedy [] []
  | cons {l₁ l₂ order : List (Node ρ L E)} {n : Node ρ L E} (hn : Ready edges (l₁ ++ n :: l₂) n)
      (hfirst : ∀ m ∈ l₁, ¬ Ready edges (l₁ ++ n :: l₂) m) (rest : Greedy (l₁ ++ l₂) order) :
      Greedy (l₁ ++ n :: l₂) (n :: order)

/-- No edge leads back, or from a node to itself. -/
structure Fits (order : List (Node ρ L E)) : Prop where
  pairs : order.Pairwise fun x y => x.phase ≤ y.phase ∧ (y.name, x.name) ∉ edges
  self : ∀ x ∈ order, (x.name, x.name) ∉ edges

variable {edges} {nodes order : List (Node ρ L E)} {n : Node ρ L E}

theorem ready_iff : ready edges nodes n = true ↔ Ready edges nodes n := by
  unfold ready Ready
  rw [Bool.and_eq_true, Bool.not_eq_true', Bool.not_eq_true', any_eq_false, any_eq_false]
  refine and_congr (forall₂_congr fun m _ => by simp) ⟨fun h m hm he => ?_, fun h e he => ?_⟩
  · refine h _ he ?_
    simpa using ⟨m, hm, rfl⟩
  simp only [Bool.and_eq_true, decide_eq_true_eq, any_eq_true, not_and, not_exists]
  intro hn m hm hname
  refine h m hm ?_
  rwa [hname, ← hn]

theorem pick_some {rest : List (Node ρ L E)} (h : pick edges nodes = some (n, rest)) :
    ∃ l1 l2, nodes = l1 ++ n :: l2 ∧ rest = l1 ++ l2 ∧ Ready edges nodes n ∧
      ∀ m ∈ l1, ¬ Ready edges nodes m := by
  obtain ⟨i, hi, h⟩ := Option.bind_eq_some_iff.1 h
  obtain ⟨l1, x, l2, hl, rfl, hx, hno⟩ := Lists.exists_of_findIdx? hi
  obtain ⟨y, hy, he⟩ := Option.map_eq_some_iff.1 h
  obtain ⟨rfl, rfl⟩ := Prod.mk.inj he
  obtain rfl : x = y := by simpa [hl] using hy
  refine ⟨l1, l2, hl, ?_, ready_iff.1 hx, fun m hm hr => ?_⟩
  · rw [hl, Lists.eraseIdx_append_cons]
  · simpa [ready_iff.2 hr] using hno m hm

theorem pick_none (h : pick edges nodes = none) : ∀ m ∈ nodes, ¬ Ready edges nodes m := by
  unfold pick at h
  cases hi : nodes.findIdx? (ready edges nodes) with
  | none =>
    intro m hm hr
    simpa [ready_iff.2 hr] using findIdx?_eq_none_iff.1 hi m hm
  | some i =>
    obtain ⟨l1, x, l2, hl, rfl, _⟩ := Lists.exists_of_findIdx? hi
    rw [hi] at h
    simp [hl] at h

theorem Greedy.perm (h : Greedy edges nodes order) : order.Perm nodes := by
  induction h with
  | nil => exact .refl _
  | cons _ _ _ ih => exact (ih.cons _).trans perm_middle.symm

theorem Greedy.fits (h : Greedy edges nodes order) : Fits edges order := by
  induction h with
  | nil => exact ⟨.nil, by simp⟩
  | @cons l1 l2 order n hn _ rest ih =>
    have hsub : ∀ m ∈ order, m ∈ l1 ++ n :: l2 := fun m hm =>
      ((sublist_cons_self n l2).append_left l1).subset (rest.perm.subset hm)
    refine ⟨.cons (fun m hm => ⟨hn.1 m (hsub m hm), hn.2 m (hsub m hm)⟩) ih.pairs, fun m hm => ?_⟩
    rcases mem_cons.1 hm with rfl | hm
    · exact hn.2 m (by simp)
    · exact ih.self m hm

/-- Each choice is forced. -/
theorem Greedy.unique {order' : List (Node ρ L E)} (h : Greedy edges nodes order)
    (h' : Greedy edges nodes order') : order' = order := by
  induction h generalizing order' with
  | nil => exact h'.perm.eq_nil
  | @cons l1 l2 order n hn hfirst _ ih =>
    generalize hl : l1 ++ n :: l2 = nodes at h' hn hfirst
    cases h' with
    | nil => simp at hl
    | @cons k1 k2 order' m hm hfirst' rest' =>
      -- the first ready node cuts the list in one way only
      have hcut : l1 = k1 ∧ n = m ∧ l2 = k2 := by
        rcases append_eq_append_iff.1 hl with ⟨t, rfl, ht⟩ | ⟨t, rfl, ht⟩
        · cases t with
          | nil => simpa using ht
          | cons x t =>
            cases ht
            exact absurd hn (hfirst' n (by simp))
        cases t with
        | nil => simpa [eq_comm] using ht
        | cons x t =>
          cases ht
          exact absurd hm (hfirst m (by simp))
      obtain ⟨rfl, rfl, rfl⟩ := hcut
      rw [ih rest']

theorem buildLoop_greedy {left : Nat} {steps : List (System ρ E)} (hlen : nodes.length = left)
    (h : buildLoop edges left nodes = .ok steps) :
    ∃ order, Greedy edges nodes order ∧ steps = order.map Node.system := by
  induction left generalizing nodes steps with
  | zero =>
    obtain rfl := eq_nil_of_length_eq_zero hlen
    exact ⟨[], .nil, (Except.ok.inj h).symm⟩
  | succ left ih =>
    rw [buildLoop] at h
    split at h
    · cases h
    next n rest hp =>
    obtain ⟨l1, l2, rfl, rfl, hn, hfirst⟩ := pick_some hp
    cases hb : buildLoop edges left (l1 ++ l2) with
    | error e => simp [hb, Except.map] at h
    | ok steps' =>
      simp only [hb, Except.map, Except.ok.injEq] at h
      obtain ⟨order, hg, rfl⟩ := ih (by simp at hlen ⊢; omega) hb
      exact ⟨n :: order, .cons hn hfirst hg, h.symm⟩

theorem buildLoop_error {left : Nat} {e : BuildError} (h : buildLoop edges left nodes = .error e) :
    e = .cycle := by
  induction left generalizing nodes with
  | zero => cases h
  | succ left ih =>
    rw [buildLoop] at h
    split at h
    · exact (Except.error.inj h).symm
    next n rest _ =>
    cases hb : buildLoop edges left rest with
    | error e' =>
      rw [hb] at h
      exact ih (hb.trans h)
    | ok steps =>
      rw [hb] at h
      cases h

theorem Fits.erase (h : Fits edges order) {l : List (Node ρ L E)} (hs : l.Sublist order) :
    Fits edges l :=
  ⟨h.pairs.sublist hs, fun x hx => h.self x (hs.subset hx)⟩

/-- Where there is an order, its first node is ready, and the node that is taken can be taken out of
the order. -/
theorem buildLoop_fits {left : Nat} (hlen : nodes.length = left) (hperm : order.Perm nodes)
    (hf : Fits edges order) : ∃ steps, buildLoop edges left nodes = .ok steps := by
  induction left generalizing nodes order with
  | zero => exact ⟨[], rfl⟩
  | succ left ih =>
    rw [buildLoop]
    split
    · next hp =>
      cases order with
      | nil => simp [hperm.nil_eq.symm] at hlen
      | cons x order =>
        refine absurd ⟨fun m hm => ?_, fun m hm => ?_⟩ (pick_none hp x (hperm.subset (by simp)))
        · rcases mem_cons.1 (hperm.symm.subset hm) with rfl | hm
          · exact le_rfl
          · exact ((pairwise_cons.1 hf.pairs).1 m hm).1
        · rcases mem_cons.1 (hperm.symm.subset hm) with rfl | hm
          · exact hf.self m mem_cons_self
          · exact ((pairwise_cons.1 hf.pairs).1 m hm).2
    · next n rest hp =>
      obtain ⟨l1, l2, rfl, rfl, _, _⟩ := pick_some hp
      obtain ⟨k1, k2, rfl⟩ := append_of_mem (hperm.symm.subset (by simp : n ∈ l1 ++ n :: l2))
      have hrest : (k1 ++ k2).Perm (l1 ++ l2) :=
        ((perm_middle.symm.trans hperm).trans perm_middle).cons_inv
      obtain ⟨steps, hs⟩ := ih (by simp at hlen ⊢; omega) hrest
        (hf.erase ((sublist_cons_self n k2).append_left k1))
      exact ⟨n.system :: steps, by rw [hs]; rfl⟩

/-- An edge between nodes that are there leads forward, or it leads back. -/
theorem respects_iff (hn : (order.map Node.name).Nodup)
    (hk : ∀ e ∈ edges, e.1 ∈ order.map Node.name ∧ e.2 ∈ order.map Node.name) :
    Respects edges order ↔ Fits edges order := by
  constructor
  · intro h
    -- an edge between two positions goes up
    have hup : ∀ {i j : Nat} {x y : Node ρ L E}, order[i]? = some x → order[j]? = some y →
        (y.name, x.name) ∈ edges → j < i := by
      intro i j x y hi hj he
      obtain ⟨i', j', hlt, hi', hj'⟩ := h.edge _ he
      have hx : (order.map Node.name)[i]? = some x.name := by rw [List.getElem?_map, hi]; rfl
      have hy : (order.map Node.name)[j]? = some y.name := by rw [List.getElem?_map, hj]; rfl
      obtain rfl := (List.getElem?_inj (List.getElem?_eq_some_iff.1 hi').1 hn).1 (hi'.trans hy.symm)
      obtain rfl := (List.getElem?_inj (List.getElem?_eq_some_iff.1 hj').1 hn).1 (hj'.trans hx.symm)
      exact hlt
    refine ⟨pairwise_iff_getElem.2 fun i j hi hj hlt =>
      ⟨pairwise_iff_getElem.1 h.phase i j hi hj hlt, fun he => ?_⟩, fun x hx he => ?_⟩
    · exact absurd (hup (getElem?_eq_getElem hi) (getElem?_eq_getElem hj) he) (by omega)
    · obtain ⟨i, hi⟩ := mem_iff_getElem?.1 hx
      exact absurd (hup hi hi he) (lt_irrefl i)
  · intro h
    refine ⟨fun e he => ?_, h.pairs.imp And.left⟩
    obtain ⟨i, hi⟩ := mem_iff_getElem?.1 (hk e he).1
    obtain ⟨j, hj⟩ := mem_iff_getElem?.1 (hk e he).2
    refine ⟨i, j, ?_, hi, hj⟩
    rw [List.getElem?_map, Option.map_eq_some_iff] at hi hj
    obtain ⟨x, hi, hx⟩ := hi
    obtain ⟨y, hj, hy⟩ := hj
    obtain ⟨hi', rfl⟩ := List.getElem?_eq_some_iff.1 hi
    obtain ⟨hj', rfl⟩ := List.getElem?_eq_some_iff.1 hj
    rcases lt_trichotomy i j with hlt | rfl | hlt
    · exact hlt
    · refine absurd ?_ (h.self _ (mem_of_getElem? hi))
      rwa [show (order[i].name, order[i].name) = e from Prod.ext hx hy]
    · refine absurd ?_ (pairwise_iff_getElem.1 h.pairs j i hj' hi' hlt).2
      rwa [show (order[i].name, order[j].name) = e from Prod.ext hx hy]

/-! ## Top theorem -/

/-- The plan that is built has the nodes in the order that takes the first ready one each time, and
that order respects the edges and the phases.  An edge with an unknown name is reported first; then
that there is no room for the steps; then that there is no order at all. -/
theorem build_stable (s : Schedule ρ L E) (room : Bool) :
    (∀ plan, (s.build room).1 = .ok plan → ∃ order, order.Perm s.nodes ∧
      plan = .ofSteps (order.map Node.system) ∧ Respects s.edges order ∧
      Greedy s.edges s.nodes order ∧ ∀ order', Greedy s.edges s.nodes order' → order' = order) ∧
    ((∃ plan, (s.build room).1 = .ok plan) ↔ (∀ e ∈ s.edges,
      e.1 ∈ s.nodes.map Node.name ∧ e.2 ∈ s.nodes.map Node.name) ∧ room = true ∧
      ∃ order, order.Perm s.nodes ∧ Respects s.edges order) ∧
    ((s.build room).1 = .error .unknown ↔ ∃ e ∈ s.edges,
      e.1 ∉ s.nodes.map Node.name ∨ e.2 ∉ s.nodes.map Node.name) ∧
    ((s.build room).1 = .error .cycle ↔ (∀ e ∈ s.edges,
      e.1 ∈ s.nodes.map Node.name ∧ e.2 ∈ s.nodes.map Node.name) ∧ room = true ∧
      ¬ ∃ order, order.Perm s.nodes ∧ Respects s.edges order) := by
  have hany : (s.edges.any fun e => !s.knows e.1 || !s.knows e.2) = true ↔ ∃ e ∈ s.edges,
      e.1 ∉ s.nodes.map Node.name ∨ e.2 ∉ s.nodes.map Node.name := by
    simp only [List.any_eq_true, Bool.or_eq_true, Bool.not_eq_true', ← Schedule.knows_iff,
      Bool.not_eq_true]
  -- an order of known nodes respects the edges when it fits
  have hrespects : (∀ e ∈ s.edges, e.1 ∈ s.nodes.map Node.name ∧ e.2 ∈ s.nodes.map Node.name) →
      ∀ {order}, order.Perm s.nodes → (Respects s.edges order ↔ Fits s.edges order) := by
    intro hk order hp
    have hnames := hp.map Node.name
    exact respects_iff (hnames.nodup_iff.2 s.names)
      fun e he => ⟨hnames.symm.subset (hk e he).1, hnames.symm.subset (hk e he).2⟩
  unfold Schedule.build
  by_cases hu : (s.edges.any fun e => !s.knows e.1 || !s.knows e.2) = true
  · rw [if_pos hu]
    obtain ⟨e, he, hno⟩ := hany.1 hu
    have hnot : ¬ ∀ e ∈ s.edges, e.1 ∈ s.nodes.map Node.name ∧ e.2 ∈ s.nodes.map Node.name := by
      intro h
      exact absurd (h e he) (by tauto)
    exact ⟨by simp, ⟨by simp, fun h => absurd h.1 hnot⟩, ⟨fun _ => ⟨e, he, hno⟩, fun _ => rfl⟩,
      by simp, fun h => absurd h.1 hnot⟩
  rw [if_neg hu]
  have hk : ∀ e ∈ s.edges, e.1 ∈ s.nodes.map Node.name ∧ e.2 ∈ s.nodes.map Node.name := by
    intro e he
    by_contra hno
    exact hu (hany.2 ⟨e, he, by tauto⟩)
  cases room with
  | false =>
    exact ⟨by simp, by simp, ⟨by simp, fun h => absurd (hany.2 h) hu⟩, by simp⟩
  | true =>
    cases hb : buildLoop s.edges s.nodes.length s.nodes with
    | ok steps =>
      obtain ⟨order, hg, rfl⟩ := buildLoop_greedy rfl hb
      have hr := (hrespects hk hg.perm).2 hg.fits
      refine ⟨fun plan h => ?_, ⟨fun _ => ⟨hk, rfl, order, hg.perm, hr⟩, fun _ => ⟨_, rfl⟩⟩,
        ⟨by simp [Except.map], fun h => absurd (hany.2 h) hu⟩,
        by simp [Except.map], fun h => absurd ⟨order, hg.perm, hr⟩ h.2.2⟩
      exact ⟨order, hg.perm, (Except.ok.inj h).symm, hr, hg, fun order' h' => hg.unique h'⟩
    | error e =>
      obtain rfl : e = .cycle := buildLoop_error hb
      have hnone : ¬ ∃ order, order.Perm s.nodes ∧ Respects s.edges order := by
        rintro ⟨order, hp, hr⟩
        obtain ⟨steps, hs⟩ := buildLoop_fits rfl hp ((hrespects hk hp).1 hr)
        cases hs.symm.trans hb
      exact ⟨by simp [Except.map], ⟨by simp [Except.map], fun h => absurd h.2.2 hnone⟩,
        ⟨by simp [Except.map], fun h => absurd (hany.2 h) hu⟩,
          fun _ => ⟨hk, rfl, hnone⟩, fun _ => rfl⟩

end

/-- Two nodes of one phase that must each come first, and an edge from a name that is not there. -/
def tangled : Schedule Unit Nat Unit where
  nodes := [⟨"a", 0, .nested .nil⟩, ⟨"b", 0, .nested .nil⟩]
  edges := [("a", "b"), ("b", "a"), ("missing", "a")]
  names := by decide

/-- There is no order of such nodes, but it is the unknown name that is reported; and without it,
where the steps cannot be reserved, that. -/
theorem build_not_cycle :
    (¬ ∃ order, order.Perm tangled.nodes ∧ Respects tangled.edges order) ∧
    (tangled.build true).1 = .error .unknown ∧
    (¬ ∃ order, order.Perm tangled.nodes ∧ Respects (tangled.edges.take 2) order) ∧
    ({ tangled with edges := tangled.edges.take 2 }.build false).1 = .error .room := by
  have hno : ∀ order : List (Node Unit Nat Unit), order.Perm tangled.nodes →
      ¬ Respects (tangled.edges.take 2) order := by
    intro order hp hr
    have hn : (order.map Node.name).Nodup := (hp.map Node.name).nodup_iff.2 tangled.names
    obtain ⟨i, j, hij, hi, hj⟩ := hr.edge ("a", "b") (by decide)
    obtain ⟨i', j', hij', hi', hj'⟩ := hr.edge ("b", "a") (by decide)
    obtain rfl := (List.getElem?_inj (List.getElem?_eq_some_iff.1 hi).1 hn).1 (hi.trans hj'.symm)
    obtain rfl := (List.getElem?_inj (List.getElem?_eq_some_iff.1 hj).1 hn).1 (hj.trans hi'.symm)
    omega
  refine ⟨fun ⟨order, hp, hr⟩ => hno order hp ⟨fun e he => ?_, hr.phase⟩, rfl, ?_, rfl⟩
  · exact hr.edge e (mem_of_mem_take he)
  · exact fun ⟨order, hp, hr⟩ => hno order hp hr

end Sqware.Plans
