import Sqware.Pend.Run

/-!
# What `cull` removes

The sections of a walk come one at a time, and any operations of others in between.  The section
that ends a `cull` in success removes the pies its root reaches in the world it runs in, and every
other section of it changes nothing.  The versions a walk compares are words that wrap, so this
needs that no ledger the walk observed changes `2 ^ 64` times before the walk comes back to it.
-/

namespace Sqware.Ledger

open Relation List

/-- The pies that the root reaches are gone, and no other. -/
structure Culled (w w' : World) (root : TaskId × Token) (removed : List Pie) : Prop where
  inv : Inv w'
  tokens : ∀ k, k ∈ removed.map Pie.token ↔ ∃ t, ReflTransGen w.grove.Child root (t, k)
  gone : ∀ u j, ReflTransGen w.grove.Child root (u, j) →
    (w.locate u j).isSome ∧ w'.locate u j = none
  kept : ∀ u j q, w.locate u j = some q → ¬ ReflTransGen w.grove.Child root (u, j) →
    ∃ q', w'.locate u j = some q' ∧ q'.setHeir q.heir = q
  sires : ∀ u j q p, w'.locate u j = some q → q.sire = some p → p ∉ removed.map Pie.token

theorem CullSpec.culled {w w' : World} {root : TaskId × Token} {nodes : List (TaskId × Token)}
    {removed : List Pie} (hi : Inv w) (hm : Matches w root nodes)
    (h : CullSpec w w' nodes removed) :
    Culled w w' root removed := by
  have hpie : ∀ u j, w'.locate u j = (w.grove.prune nodes).pie u j := fun u j =>
    congrArg (fun g : Grove => g.pie u j) h.grove
  refine ⟨h.acts.inv, fun k => ?_, fun u j hr => ?_, fun u j q hq hr => ?_,
    fun u j q p hq hs hp => ?_⟩
  · simp only [h.removed, hm.reach hi.tree]
  · have hmem := (hm.reach hi.tree _).2 hr
    obtain ⟨q, hq⟩ := hm.held _ hmem
    exact ⟨Option.isSome_iff_exists.2 ⟨q, hq⟩, (hpie u j).trans (if_pos hmem)⟩
  · have hmem : (u, j) ∉ nodes := fun hmem => hr ((hm.reach hi.tree _).1 hmem)
    exact ⟨q.disown nodes, (hpie u j).trans (prune_pie.2 ⟨hmem, q, hq, rfl⟩), rfl⟩
  -- the holder of the removed sire is the lord, so the pie would have gone with it
  obtain ⟨hmem, q0, hq0, rfl⟩ := prune_pie.1 ((hpie u j).symm.trans hq)
  change q0.sire = some p at hs
  obtain ⟨t, ht⟩ := (h.removed p).1 hp
  obtain ⟨r, hr⟩ := hm.held _ ht
  obtain ⟨l, hl⟩ : ∃ l, q0.lord = some l := by
    refine Option.ne_none_iff_exists'.1 fun hl => ?_
    rw [(hi.tree.paired hq0).2 hl] at hs
    simp at hs
  obtain rfl := hi.tree.sired hq0 hs hl hr
  exact hmem (hm.closed hi.tree hq0 hs hl ht)

/-- However a `cull` and the calls of others interleave, each section of the `cull` changes nothing,
or ends it with exactly the pies that the root reaches at that moment removed. -/
theorem cull_removes_subtree (task : TaskId) (token : Token) (caller : Option TaskId)
    (closing : Bool) (w₀ w w' : World) (ph ph' : Phase (List Pie × List TaskId)) (f : Facts)
    (hi : Inv w₀)
    (hrun : ReflTransGen (Turn (cullCall task token caller)
      (cullLocked (cullCall task token caller) closing) Step) (w₀, .locate retries) (w, ph))
    (hbound : ∀ x ∈ ph.observed, ∀ p, w.pends x.1 = some p → p.version < x.2 + usizeSize)
    (hstep : ph.step (cullCall task token caller)
      (cullLocked (cullCall task token caller) closing) f w = some (w', ph')) :
    (w' = w ∧ ∀ b, ph' = .done (.ok b) → ph = .done (.ok b)) ∨
      ∃ removed notified, ph' = .done (.ok (removed, notified)) ∧
        Culled w w' (task, token) removed := by
  rcases turns_seen hi (fun _ _ _ _ _ _ => cullLocked_kept)
    (fun v v' hv hs => ⟨(step_does hv hs).inv, (step_does hv hs).drift⟩) hrun with
    ⟨r, hr⟩ | ⟨hiw, hseen⟩
  · rw [show ph = .done r from hr] at hstep ⊢
    cases hstep
    exact .inl ⟨rfl, fun b hb => hb⟩
  cases goes_of_step hstep with
  | busy hf =>
    exact .inl ⟨(cullLocked_kept hf).resolve_left (by simp), fun b hb => by simp at hb⟩
  | stops hf =>
    exact .inl ⟨(cullLocked_kept hf).resolve_left (by simp), fun b hb => by simp at hb⟩
  | rests => exact .inl ⟨rfl, fun b hb => hb⟩
  | @commits n tasks nodes _ r hf =>
    cases r with
    | error e =>
      exact .inl ⟨(cullLocked_kept hf).resolve_left (by simp), fun b hb => by simp at hb⟩
    | ok x =>
      have hm : (versionsMatch w tasks || relationsMatch w tasks nodes) = true →
          Matches w (task, token) nodes := by
        intro hvalid
        rcases Bool.or_eq_true_iff.1 hvalid with hv | hr
        · -- versions that differ by less than a word compare as numbers
          refine Seen.of_versions hseen rfl fun x hx p hp => ?_
          obtain ⟨p', hp', hle⟩ := hseen.recorded x hx
          cases hp.symm.trans hp'
          have hlt := hbound x hx p hp
          have hsame := all_eq_true.1 hv x hx
          rw [hp, Option.any_some, sameVersion, beq_iff_eq] at hsame
          have hmod : (p.version - x.2) % usizeSize = 0 := Nat.sub_mod_eq_zero_of_mod_eq hsame
          rw [Nat.mod_eq_of_lt (by omega)] at hmod
          omega
        · exact Seen.of_relations hseen hiw hr
      obtain ⟨_, _, hvalid, _⟩ := (withTasksChecked_cases hf).resolve_left (by simp)
      exact .inr ⟨x.1, x.2, rfl, (cullLocked_spec hiw hm hf).culled hiw (hm hvalid)⟩
  | _ => exact .inl ⟨rfl, fun b hb => by simp at hb⟩

/-! ## A wrapped version -/

/-- A root pie of task 1. -/
def rootPie : Pie := ⟨1, ⟨⟨7#32⟩, none⟩, 0, none, none, none, .hole 0⟩

/-- What task 1 vests in itself. -/
def twinPie : Pie := ⟨2, ⟨⟨7#32⟩, none⟩, 0, some 1, some 1, none, .hole 0⟩

/-- Task 1 alone, with its root pie. -/
def single : World :=
  { pends := fun u => if u = 1 then some ⟨1, [rootPie], []⟩ else none,
    nextTask := 2, nextToken := 2 }

/-- Task 1 after it vested the root in itself and then changed its ledger some times. -/
def twin (version : Nat) : World :=
  { pends := fun u => if u = 1 then some ⟨version, [rootPie, twinPie], [⟨1, 1, 2⟩]⟩ else none
    nextTask := 2
    nextToken := 3 }

theorem single_run : ReflTransGen Step {} single := by
  have h := ((ReflTransGen.refl.tail (Step.operation (@Operation.create {}))).tail
    (Step.operation (@Operation.tryNew _ _ {} (.hole 0) 0 ⟨7#32⟩ _ rfl))).tail
    (Step.operation (@Operation.insert _ _ {} 1 _ _ (mem_singleton.2 rfl) rfl rfl))
  convert h using 1
  refine World.ext (funext fun u => ?_) rfl rfl rfl
  by_cases hu : u = 1
  · subst hu
    rfl
  · simp [World.changed, World.push, World.modify, single, hu]

theorem single_vests : Step single (twin 2) := by
  have h := Step.operation (@Operation.publish single _ {} 1 1 1 ⟨7#32⟩ 0 none _ rfl)
  convert h using 1
  refine World.ext (funext fun u => ?_) rfl rfl rfl
  by_cases hu : u = 1
  · subst hu
    rfl
  · have ho : rootPie.permission.contains .only = false := rfl
    simp [World.changed, World.push, World.modify, World.insertHeir,
      World.vest, single, twin, hu, ho]

/-- Narrowing the root to what it has is one change of the ledger. -/
theorem twin_reduces (v : Nat) : Step (twin v) (twin (v + 1)) := by
  have h := Step.operation (@Operation.reduce (twin v) _ {} 1 1 ⟨7#32⟩ _ rfl)
  convert h using 1
  refine World.ext (funext fun u => ?_) rfl rfl rfl
  by_cases hu : u = 1
  · subst hu
    rfl
  · simp [World.changed, World.modifyPie, World.modify, twin, hu]

/-- The walk of a `cull` of the root, up to its last section. -/
theorem single_walk (others : World → World → Prop) :
    ReflTransGen (Turn (cullCall 1 1 none) (cullLocked (cullCall 1 1 none) false) others)
      (single, .locate retries) (single, .commit 7 [(1, 1)] [(1, 1)]) :=
  ((((ReflTransGen.refl.tail (.own {} rfl)).tail (.own {} rfl)).tail (.own {} rfl)).tail
    (.own {} rfl))

theorem twin_ages (call : Call) (finish : Finish (List Pie × List TaskId))
    (ph : Phase (List Pie × List TaskId)) (ha : ∀ t ∈ ph.arcs call, t = 1) (v n : Nat) :
    ReflTransGen (Turn call finish Step) (twin v, ph) (twin (v + n), ph) := by
  induction n with
  | zero => exact .refl
  | succ n ih =>
    exact ih.tail (.other (twin_reduces _) fun t ht => by rw [ha t ht]; rfl)

/-- Between the reads and the last section of a `cull`, the root is vested and its ledger changes
`2 ^ 64` times in all: the versions compare equal and the child stays, under a sire that is gone. -/
theorem wrapped_version : ∃ w₀ w w' ph f removed notified q,
    ReflTransGen Step {} w₀ ∧
    ReflTransGen (Turn (cullCall 1 1 none) (cullLocked (cullCall 1 1 none) false) Step)
      (w₀, .locate retries) (w, ph) ∧
    ph.step (cullCall 1 1 none) (cullLocked (cullCall 1 1 none) false) f w =
      some (w', .done (.ok (removed, notified))) ∧
    w.grove.Child (1, 1) (1, 2) ∧ w'.locate 1 2 = some q ∧ q.sire = some 1 ∧
    1 ∈ removed.map Pie.token := by
  have hother : ∀ t ∈ (Phase.commit 7 [(1, 1)] [(1, 1)] :
      Phase (List Pie × List TaskId)).arcs (cullCall 1 1 none), t = 1 := by
    simp [Phase.arcs, cullCall]
  have hrun := ((single_walk Step).tail (.other single_vests fun t ht => by
    rw [hother t ht]; rfl)).trans (twin_ages _ _ _ hother 2 (usizeSize - 1))
  refine ⟨single, _, _, _, {}, _, _, twinPie, single_run, hrun, rfl, ⟨?_, rfl⟩, rfl, rfl, ?_⟩
  · exact mem_singleton.2 rfl
  · exact mem_singleton.2 rfl

/-- A `cull` of a root with one child, which nobody disturbs. -/
theorem cull_removes_twin : ∃ w' removed, w'.locate 1 2 = none ∧
    Culled (twin 2) w' (1, 1) removed := by
  have hi : Inv (twin 2) := inv_run (single_run.tail single_vests)
  have hrun : ReflTransGen (Turn (cullCall 1 1 none) (cullLocked (cullCall 1 1 none) false) Step)
      (twin 2, .locate retries) (twin 2, .commit 7 [(1, 2)] [(1, 1), (1, 2)]) :=
    ((((ReflTransGen.refl.tail (.own {} rfl)).tail (.own {} rfl)).tail (.own {} rfl)).tail
      (.own {} rfl)).tail (.own {} rfl)
  rcases cull_removes_subtree 1 1 none false (twin 2) (twin 2) _ _ _ {} hi hrun
    (fun x hx p hp => by
      obtain rfl := mem_singleton.1 hx
      cases hp
      decide) rfl with h | ⟨removed, notified, hd, hc⟩
  · have := h.2 _ rfl
    simp at this
  · exact ⟨_, removed, rfl, hc⟩

end Sqware.Ledger
