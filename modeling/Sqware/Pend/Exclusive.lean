import Sqware.Pend.Descent
import Sqware.Pend.Run

/-!
# Exclusive pies

A pie with the `ONLY` bit hands itself over: `publish` refuses a pie that has an heir and gives an
exclusive one its child as heir.  The bit is the same in a whole tree, since narrowing keeps it, so
the tree of an exclusive root is a chain whose last pie is the one without an heir.

A task that leaves while it holds pies takes a link out of a chain without a ledger operation; in
an orderly run tasks leave with an empty ledger, as `doom` leaves it unless it runs out of memory.
Tasks that go with their pies are left out.
-/

namespace Sqware.Ledger

open Relation Option

/-! ## The invariant -/

def sameOnly (r q : Pie) : Prop := q.permission.contains .only = r.permission.contains .only

theorem sameOnly_inherited : Inherited sameOnly where
  vest hv := only_of_narrows hv.permission
  trans h h' := h'.trans h
  kept h hr hq := by rw [sameOnly, hr.only, hq.only, h]

/-- Tasks that edges and pies name are there, parent and child agree on the bit, and an edge of an
exclusive pie is to its heir. -/
structure Exclusive (g : Grove) : Prop where
  child : ∀ {t e}, g.edge t e → g.present e.task
  lord : ∀ {t k q l}, g.pie t k = some q → q.lord = some l → g.present l
  only : Descends sameOnly g
  edge : ∀ {t e q}, g.edge t e → g.pie t e.parent = some q → q.permission.contains .only = true →
    q.heir = some ⟨e.task, e.token⟩

/-- No task leaves while it holds pies. -/
def Orderly (g g' : Grove) : Prop := ∀ {t k q}, g.pie t k = some q → g'.present t

section
variable {g g' : Grove} (hg : Tree g) (hx : Exclusive g)
include hg hx

/-- A token in no use is no parent either. -/
theorem Exclusive.parent_used {t : TaskId} {e : Edge} (he : g.edge t e) : ¬ g.Unused e.parent := by
  intro hk
  obtain ⟨q, hq, hs, _⟩ := hg.edge he (hx.child he)
  exact hk.sire hq hs

/-- The lord of a pie holds its sire, so in an orderly move it stays. -/
theorem Exclusive.lord_stays (ho : Orderly g g') {t : TaskId} {k : Token} {q : Pie} {l : TaskId}
    (hq : g.pie t k = some q) (hl : q.lord = some l) : g'.present l := by
  obtain ⟨p, hp⟩ : ∃ p, q.sire = some p := by
    refine ne_none_iff_exists'.1 fun hs => ?_
    rw [(hg.paired hq).1 hs] at hl
    simp at hl
  obtain ⟨_, r, hr⟩ := hg.child hq hp hl (hx.lord hq hl)
  exact ho hr

theorem exclusive_move (hm : Move g g') (ho : Orderly g g') : Exclusive g' := by
  have honly : Descends sameOnly g' := descends_move sameOnly_inherited hm hx.only
  have hlord : ∀ {t k q l}, g'.pie t k = some q → q.lord = some l → g'.present l := by
    intro t k q l hq hl
    cases arises hm hq with
    | root hr _ =>
      rw [hr.2.1] at hl
      simp at hl
    | vest hp hv _ =>
      rw [hv.lord, some.injEq] at hl
      exact hl ▸ ho hp
    | kept hq0 _ _ hl0 => exact hx.lord_stays hg ho hq0 (hl0 ▸ hl)
    | moved _ _ _ _ hp _ hl0 => exact hx.lord_stays hg ho hp (hl0 ▸ hl)
  cases hm with
  | rest => exact hx
  | enter _ => exact ⟨fun he => .inl (hx.child he), hlord, honly, hx.edge⟩
  | leave t =>
    -- whom an edge names holds a pie, so it is not the one that leaves
    refine ⟨fun he => ?_, hlord, honly, fun he hq hon => hx.edge he.1 ?_ hon⟩
    · obtain ⟨q, hq, _⟩ := hg.edge he.1 (hx.child he.1)
      exact ho hq
    · simp only [Grove.leave] at hq
      split at hq
      · simp at hq
      · exact hq
  | @plant t pie _ hr hk =>
    refine ⟨hx.child, hlord, honly, fun he hq hon => ?_⟩
    simp only [Grove.plant] at hq
    split at hq
    · next hc => exact (hx.parent_used hg he (hc.2 ▸ hk)).elim
    · exact hx.edge he hq hon
  | @graft caller dst pie granted hp hd hv hk hlt =>
    refine ⟨fun he => ?_, hlord, honly, fun {u e _} he hq hon => ?_⟩
    · rcases he with he | ⟨_, rfl⟩
      · exact hx.child he
      · exact hd
    -- the parent is neither the new pie nor, for an old edge, the pie that vested: it was free
    have hne : ¬ (u = dst ∧ e.parent = granted.token) := by
      rintro ⟨_, hc⟩
      rcases he with he | ⟨_, rfl⟩
      · exact hx.parent_used hg he (hc ▸ hk)
      · exact hlt.ne hc
    simp only [Grove.graft] at hq
    rw [if_neg hne] at hq
    split at hq
    · next hc =>
      cases hq
      have hpo : pie.permission.contains .only = true := (vested_kept pie _ _).only ▸ hon
      rcases he with he | ⟨_, rfl⟩
      · obtain ⟨rfl, hpar⟩ := hc
        have := hx.edge he (hpar ▸ hp) hpo
        rw [hv.free] at this
        simp at this
      · simp [Pie.vested, hpo, Pie.setHeir]
    · next hc =>
      rcases he with he | ⟨rfl, rfl⟩
      · exact hx.edge he hq hon
      · exact (hc ⟨rfl, rfl⟩).elim
  | @prune l hl =>
    refine ⟨fun he => hx.child he.1, hlord, honly, fun he hq hon => ?_⟩
    obtain ⟨_, q0, hq0, rfl⟩ := prune_pie.1 hq
    exact disown_heir.2 ⟨hx.edge he.1 hq0 hon, he.2.2⟩
  | @splice t lord k parent pie replacement hp ho' hs hl hr hmail =>
    have hrep : replacement.permission.contains .only = false :=
      (hx.only t k pie parent lord replacement hp hs hl hr).symm.trans ho'
    have hkept : ∀ q0 : Pie,
        ((Grove.adopt t k lord parent q0).disown [(t, k)]).permission.contains .only =
          q0.permission.contains .only := fun q0 => (adopt_kept t lord k parent q0 _).only
    refine ⟨fun he => ?_, hlord, honly, fun he hq hon => ?_⟩
    · rcases he with ⟨he, _⟩ | ⟨_, _, _, hpr⟩
      · exact hx.child he
      · exact hpr
    obtain ⟨_, q0, hq0, rfl⟩ := splice_pie.1 hq
    rw [hkept] at hon
    rcases he with ⟨he, _, hnc⟩ | ⟨rfl, hpar, _⟩
    · refine disown_heir.2 ⟨?_, by simpa using hnc⟩
      rw [adopt_heir]
      exact hx.edge he hq0 hon
    rw [hpar] at hq0
    cases hr.symm.trans hq0
    cases hrep.symm.trans hon
  | @narrow t k pie p hp hn =>
    refine ⟨hx.child, hlord, honly, fun he hq hon => ?_⟩
    rcases set_pie hq with ⟨rfl, rfl, rfl⟩ | hq
    · exact hx.edge (q := pie) he hp ((only_of_narrows hn).symm.trans hon)
    · exact hx.edge he hq hon
  | @clear t k pie x hp hheir hd => exact (hd (hx.child (hg.heir hp hheir))).elim

/-! ## Chains -/

/-- Every pie is in the tree of a root. -/
theorem rooted (t : TaskId) (k : Token) (q : Pie) (hq : g.pie t k = some q) :
    ∃ r q0, g.pie r.1 r.2 = some q0 ∧ q0.sire = none ∧ ReflTransGen g.Child r (t, k) := by
  induction k using Nat.strong_induction_on generalizing t q with
  | _ k ih =>
    by_cases hs : q.sire = none
    · exact ⟨(t, k), q, hq, hs, .refl⟩
    · obtain ⟨p, hp⟩ := ne_none_iff_exists'.1 hs
      obtain ⟨l, hl⟩ := ne_none_iff_exists'.1 fun hl => hs ((hg.paired hq).2 hl)
      obtain ⟨he, r, hr⟩ := hg.child hq hp hl (hx.lord hq hl)
      obtain ⟨y, q0, hq0, hs0, hy⟩ := ih p (hg.order hq hp) l r hr
      exact ⟨y, q0, hq0, hs0, hy.tail ⟨he, (hg.held hq).2⟩⟩

/-- A tree has the bit or has it not. -/
theorem only_of_reach {r x : TaskId × Token} {q : Pie} (hq : g.pie r.1 r.2 = some q)
    (h : ReflTransGen g.Child r x) :
    ∃ q', g.pie x.1 x.2 = some q' ∧ q'.permission.contains .only = q.permission.contains .only := by
  induction h with
  | refl => exact ⟨q, hq, rfl⟩
  | @tail y z _ hc ih =>
    obtain ⟨p, hp, ho⟩ := ih
    obtain ⟨q', hq', hs, hl⟩ := hg.edge hc.1 hc.2
    exact ⟨q', hq', (hx.only z.1 z.2 q' y.2 y.1 p hq' hs hl hp).trans ho⟩

/-- The children of an exclusive pie are its heir. -/
theorem child_iff_heir {x y : TaskId × Token} {q : Pie} (hq : g.pie x.1 x.2 = some q)
    (ho : q.permission.contains .only = true) : g.Child x y ↔ q.heir = some ⟨y.1, y.2⟩ := by
  constructor
  · exact fun hc => hx.edge hc.1 hq ho
  · intro hh
    have he := hg.heir hq hh
    exact ⟨he, hx.child he⟩

/-- Two pies without heirs in one exclusive tree are one. -/
theorem user_unique {r x y : TaskId × Token} {q qx qy : Pie} (hq : g.pie r.1 r.2 = some q)
    (ho : q.permission.contains .only = true) (hrx : ReflTransGen g.Child r x)
    (hry : ReflTransGen g.Child r y) (hqx : g.pie x.1 x.2 = some qx) (hqy : g.pie y.1 y.2 = some qy)
    (hhx : qx.heir = none) (hhy : qy.heir = none) : x = y := by
  have hexcl : ∀ {a}, ReflTransGen g.Child r a → ∃ qa, g.pie a.1 a.2 = some qa ∧
      ∀ b, g.Child a b ↔ qa.heir = some ⟨b.1, b.2⟩ := by
    intro a ha
    obtain ⟨qa, hqa, hoa⟩ := only_of_reach hg hx hq ha
    exact ⟨qa, hqa, fun b => child_iff_heir hg hx hqa (hoa.trans ho)⟩
  have huniq : ∀ a b c, ReflTransGen g.Child r a → g.Child a b → g.Child a c → b = c := by
    intro a b c ha hab hac
    obtain ⟨qa, _, hc⟩ := hexcl ha
    have heq := ((hc b).1 hab).symm.trans ((hc c).1 hac)
    rw [some.injEq, Heir.mk.injEq] at heq
    exact Prod.ext heq.1 heq.2
  -- a pie without an heir has nothing below it
  have hleaf : ∀ {a b : TaskId × Token} {qa : Pie}, ReflTransGen g.Child r a →
      g.pie a.1 a.2 = some qa → qa.heir = none → ReflTransGen g.Child a b → a = b := by
    intro a b qa ha hqa hha hab
    rcases ReflTransGen.cases_head hab with rfl | ⟨c, hac, _⟩
    · rfl
    obtain ⟨qa', hqa', hc⟩ := hexcl ha
    cases hqa.symm.trans hqa'
    rw [(hc c).1 hac] at hha
    simp at hha
  rcases Forest.chain huniq hrx hry with hxy | hyx
  · exact hleaf hrx hqx hhx hxy
  · exact (hleaf hry hqy hhy hyx).symm

end

/-! ## Top theorem -/

/-- An operation, or a task that leaves with an empty ledger. -/
inductive Settled : World → World → Prop
  | operation {w w' : World} (h : Operation w w') : Settled w w'
  | vanish {w : World} (t : TaskId) (h : ∀ p, w.pends t = some p → p.pies = []) :
      Settled w (w.vanish t)

theorem Settled.step {w w' : World} (h : Settled w w') : Step w w' := by
  cases h with
  | operation h => exact .operation h
  | vanish t _ => exact .vanish t

theorem Settled.orderly {w w' : World} (hi : Inv w) (h : Settled w w') :
    Orderly w.grove w'.grove := by
  intro u k q hq
  cases h with
  | operation h => exact (operation_operates hi h).upgrade u (upgrade_of_locate hq)
  | vanish t ht =>
    obtain ⟨p, hp, hget⟩ := bind_eq_some_iff.1 hq
    have hne : u ≠ t := by
      rintro rfl
      rw [ht p hp] at hget
      simp [Keyed.get] at hget
    simp [World.grove, World.upgrade, World.vanish, hne, hp]

theorem exclusive_run {w : World} (h : ReflTransGen Settled {} w) : Inv w ∧ Exclusive w.grove := by
  induction h with
  | refl =>
    refine ⟨inv_init, ⟨?_, ?_, ?_, ?_⟩⟩ <;>
      simp [Descends, World.grove, World.locate, World.edges]
  | tail _ hs ih =>
    have hd := step_does ih.1 hs.step
    exact ⟨hd.inv, exclusive_move ih.1.tree ih.2 hd.move (hs.orderly ih.1)⟩

/-- A root pie and its tree. -/
structure RootOf (w : World) (r : TaskId × Token) (q : Pie) (x : TaskId × Token) : Prop where
  held : w.locate r.1 r.2 = some q
  root : q.sire = none
  reach : ReflTransGen w.grove.Child r x

/-- The tree of an exclusive root is a chain that its heirs spell out. -/
structure Chains (w : World) : Prop where
  rooted : ∀ t k q, w.locate t k = some q → ∃ r q₀, RootOf w r q₀ (t, k)
  only : ∀ r q₀ x q, RootOf w r q₀ x → w.locate x.1 x.2 = some q →
    (q.permission.contains .only = true ↔ q₀.permission.contains .only = true)
  edges : ∀ r q₀ x, RootOf w r q₀ x → q₀.permission.contains .only = true →
    ((w.edges x.1).filter fun e => e.parent = x.2).length ≤ 1
  heir : ∀ r q₀ x q y, RootOf w r q₀ x → q₀.permission.contains .only = true →
    w.locate x.1 x.2 = some q →
    ((w.grove.Child x y ∧ ∃ q', w.locate y.1 y.2 = some q') ↔ q.heir = some ⟨y.1, y.2⟩)
  user : ∀ r q₀ x y qx qy, RootOf w r q₀ x → RootOf w r q₀ y →
    q₀.permission.contains .only = true → w.locate x.1 x.2 = some qx → w.locate y.1 y.2 = some qy →
    qx.heir = none → qy.heir = none → x = y

theorem length_le_one {α : Type*} {l : List α} (hn : l.Nodup) (h : ∀ a ∈ l, ∀ b ∈ l, a = b) :
    l.length ≤ 1 := by
  match l with
  | [] => simp
  | [a] => simp
  | a :: b :: l =>
    rw [h a (by simp) b (by simp)] at hn
    simp at hn

/-- In every world that operations and tasks with an empty ledger that leave can lead to, the tree
of an exclusive root is a chain of exclusive pies, each with its child as heir, and at most one of
them has no heir. -/
theorem exclusive_chains (w : World) (hrun : ReflTransGen Settled {} w) : Chains w := by
  obtain ⟨hi, hx⟩ := exclusive_run hrun
  refine ⟨fun t k q hq => ?_, fun r q0 x q hr hq => ?_, fun r q0 x hr ho => ?_,
    fun r q0 x q y hr ho hq => ?_, fun r q0 x y qx qy hr hr' ho hqx hqy hhx hhy => ?_⟩
  · obtain ⟨r, q0, hq0, hs, hreach⟩ := rooted hi.tree hx t k q hq
    exact ⟨r, q0, hq0, hs, hreach⟩
  · obtain ⟨q', hq', he⟩ := only_of_reach hi.tree hx hr.held hr.reach
    cases hq.symm.trans hq'
    rw [he]
  · obtain ⟨q, hq, he⟩ := only_of_reach hi.tree hx hr.held hr.reach
    obtain ⟨p, hp⟩ := isSome_iff_exists.1 (upgrade_of_locate hq)
    have hedges : w.edges x.1 = p.heirs := by simp [World.edges, hp]
    refine length_le_one ((hedges ▸ (hi.neat x.1 p hp).pairs.of_map).filter _) fun a ha b hb => ?_
    rw [List.mem_filter, decide_eq_true_eq] at ha hb
    have hha := hx.edge ha.1 (by rw [ha.2]; exact hq) (he.trans ho)
    have hhb := hx.edge hb.1 (by rw [hb.2]; exact hq) (he.trans ho)
    cases a
    cases b
    simp_all
  · obtain ⟨q', hq', he⟩ := only_of_reach hi.tree hx hr.held hr.reach
    cases hq.symm.trans hq'
    rw [← child_iff_heir hi.tree hx hq (he.trans ho)]
    refine ⟨And.left, fun hc => ⟨hc, ?_⟩⟩
    obtain ⟨q', hq', _⟩ := hi.tree.edge hc.1 hc.2
    exact ⟨q', hq'⟩
  · exact user_unique hi.tree hx hr.held ho hr.reach hr'.reach hqx hqy hhx hhy

/-- An exclusive root of task 1, handed over to task 2. -/
theorem exclusive_handed_over : ∃ w q, ReflTransGen Settled {} w ∧ w.locate 1 1 = some q ∧
    q.heir = some ⟨2, 2⟩ ∧ q.permission.contains .only = true ∧ Chains w := by
  have h := ((((ReflTransGen.refl (r := Settled) (a := {})).tail (.operation .create)).tail
    (.operation .create)).tail
    (.operation (@Operation.tryNew _ _ {} (.hole 0) 0 ⟨15#32⟩ _ rfl))).tail
    (.operation (@Operation.insert _ _ {} 1 _ _ (List.mem_singleton.2 rfl) rfl rfl))
  have h' := h.tail (.operation (@Operation.publish _ _ {} 1 2 1 ⟨9#32⟩ 0 none _ rfl))
  exact ⟨_, _, h', rfl, rfl, rfl, exclusive_chains _ h'⟩

end Sqware.Ledger
