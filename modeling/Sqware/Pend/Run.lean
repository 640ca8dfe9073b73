import Sqware.Pend.Attempt

/-!
# Runs of the ledger operations

An operation is one committed operation of any task, with any answers of the tasks and resources it
asks; `release` and `revoke` are `reap` and `cull`, `doom` marks the ledger and culls, and `accord`
and `derive` are `publish`.  Root pies are built before they are inserted.  A step is an operation
or a task that vanishes with its ledger when the last reference to it goes.
-/

namespace Sqware.Ledger

open Relation List Option

def cullCall (task : TaskId) (token : Token) (caller : Option TaskId) : Call :=
  ⟨task, token, true, caller⟩

def forgetCall (task : TaskId) (token : Token) : Call := ⟨task, token, false, none⟩

/-- A call of the ledger that runs to its end alone. -/
inductive Operation : World → World → Prop
  | create {w : World} :
      Operation w { w with
        pends := fun u => if u = w.nextTask then some {} else w.pends u
        nextTask := w.nextTask + 1 }
  | tryNew {w w' : World} {f : Facts} {mail : Mail} {mark : Mark} {permission : Permission}
      {pie : Pie} (h : tryNewWindow f w mail mark permission none none = some (.ok pie, w')) :
      Operation w { w' with loose := pie :: w'.loose }
  | tryNewFails {w w' : World} {f : Facts} {mail : Mail} {mark : Mark} {permission : Permission}
      {e : PieFail} (h : tryNewWindow f w mail mark permission none none = some (.error e, w')) :
      Operation w w'
  | insert {w w' : World} {f : Facts} {t : TaskId} {pie : Pie} {r : Except PieFail Unit}
      (hm : pie ∈ w.loose) (ht : w.upgrade t = true)
      (h : insert f { w with loose := w.loose.erase pie } t pie = (r, w')) : Operation w w'
  | publish {w w' : World} {f : Facts} {caller dst : TaskId} {src : Token} {subset : Permission}
      {mark : Mark} {requested : Option Window} {r : Except PieFail Token}
      (h : publish f w caller src dst subset mark requested = some (r, w')) : Operation w w'
  | reap {w w' : World} {f : Facts} {t : TaskId} {token : Token} {r : Except PieFail (Option Pie)}
      (h : reap f w t token = (r, w')) : Operation w w'
  | cull {w w' : World} {t : TaskId} {token : Token} {caller : Option TaskId} {closing : Bool}
      {r : Except PieFail (List Pie × List TaskId)}
      (h : ReflTransGen (Turn (cullCall t token caller)
        (cullLocked (cullCall t token caller) closing) fun _ _ => False)
        (w, .locate retries) (w', .done r)) : Operation w w'
  | doom {w : World} (t : TaskId) : Operation w (w.changed t)
  | forget {w w' : World} {t : TaskId} {token : Token} {r : Except PieFail Pie}
      (h : ReflTransGen (Turn (forgetCall t token) (forgetLocked (forgetCall t token))
        fun _ _ => False) (w, .locate retries) (w', .done r)) : Operation w w'
  | reduce {w w' : World} {f : Facts} {t : TaskId} {token : Token} {subset : Permission}
      {r : Except PieFail Unit} (h : reduce f w t token subset = (r, w')) : Operation w w'
  | clearHeir {w w' : World} {t : TaskId} {token : Token} {x : Heir} {b : Bool}
      (h : clearHeir w t token x = (b, w')) : Operation w w'

def World.vanish (w : World) (t : TaskId) : World :=
  { w with pends := fun u => if u = t then none else w.pends u }

/-- An operation, or a task that is gone. -/
inductive Step : World → World → Prop
  | operation {w w' : World} (h : Operation w w') : Step w w'
  | vanish {w : World} (t : TaskId) : Step w (w.vanish t)

/-! ## Steps are moves -/

/-- What every step does. -/
structure Does (w w' : World) : Prop where
  inv : Inv w'
  move : Move w.grove w'.grove
  drift : Drift w w'

/-- What every operation does: no task goes. -/
structure Operates (w w' : World) : Prop extends Does w w' where
  upgrade : ∀ t, w.upgrade t = true → w'.upgrade t = true

variable {w : World}

theorem Acts.operates {w' : World} (h : Acts w w') : Operates w w' :=
  ⟨⟨h.inv, h.move, h.drift⟩, fun t ht => (h.upgrade t).trans ht⟩

section
variable {w w' : World} (hi : Inv w)
include hi

/-- A step after which there are other tasks, and the pends of the old ones as they were. -/
theorem does_of_pends (hm : Move w.grove w'.grove) (htoken : w'.nextToken = w.nextToken)
    (hloose : w'.loose = w.loose)
    (hun : ∀ k, w.grove.Unused k → w'.grove.Unused k)
    (hpends : ∀ t p, w'.pends t = some p → w.pends t = some p ∨ w.nextTask ≤ t ∧ p = {}) :
    Does w w' := by
  refine ⟨⟨fun t p hp => ?_, tree_move hi.tree hm, fun k hk => ?_, ?_, fun q hq => ?_⟩, hm,
    fun t ht p hp => ?_⟩
  · rcases hpends t p hp with hp | ⟨_, rfl⟩
    · exact hi.neat t p hp
    · exact ⟨by simp, by simp [Multi.Sorted], by simp⟩
  · exact hun k (hi.fresh k (htoken ▸ hk))
  · rw [hloose]
    exact hi.loose_nodup
  · rw [hloose] at hq
    obtain ⟨hroot, hlt, hfree⟩ := hi.loose q hq
    exact ⟨hroot, htoken ▸ hlt, hun _ hfree⟩
  · rcases hpends t p hp with hp | ⟨hle, _⟩
    · exact ⟨p, hp, le_rfl, .inl rfl⟩
    · exact absurd ht (Nat.not_lt.2 hle)

/-- The world with a new task. -/
def World.created (w : World) : World :=
  { w with
    pends := fun u => if u = w.nextTask then some {} else w.pends u
    nextTask := w.nextTask + 1 }

theorem create_operates : Operates w w.created := by
  have hnone : w.pends w.nextTask = none := by
    by_contra hs
    have := hi.tree.present_known (isSome_iff_ne_none.2 hs)
    exact (lt_irrefl _ this).elim
  have hpends : ∀ u, w.created.pends u = if u = w.nextTask then some {} else w.pends u :=
    fun _ => rfl
  have hg : w.created.grove = w.grove.enter w.nextTask := by
    refine Grove.ext (fun t => Nat.lt_succ_iff_lt_or_eq) (fun t => ?_) (fun t k => ?_) fun t e => ?_
    · simp only [World.grove, World.upgrade, hpends, Grove.enter]
      by_cases ht : t = w.nextTask <;> simp [ht]
    · simp only [World.grove, World.locate, hpends, Grove.enter]
      by_cases ht : t = w.nextTask
      · simp [ht, hnone, Keyed.get]
      · simp [ht]
    simp only [World.grove, World.edges, hpends, Grove.enter]
    by_cases ht : t = w.nextTask
    · simp [ht, hnone]
    · simp [ht]
  refine ⟨does_of_pends hi (hg ▸ .enter (lt_irrefl _)) rfl rfl
    (fun k hk => hg ▸ hk.enter _) fun t p hp => ?_, fun t ht => ?_⟩
  · rw [hpends] at hp
    split at hp
    · next ht => exact .inr ⟨ht.ge, (some.inj hp).symm⟩
    · exact .inl hp
  rw [World.upgrade, hpends]
  split
  · rfl
  · exact ht

theorem vanish_does (t : TaskId) : Does w (w.vanish t) := by
  have hpends : ∀ u, (w.vanish t).pends u = if u = t then none else w.pends u := fun _ => rfl
  have hg : (w.vanish t).grove = w.grove.leave t := by
    refine Grove.ext (fun u => .rfl) (fun u => ?_) (fun u k => ?_) fun u e => ?_
    · simp only [World.grove, World.upgrade, hpends, Grove.leave]
      by_cases hu : u = t <;> simp [hu]
    · simp only [World.grove, World.locate, hpends, Grove.leave]
      by_cases hu : u = t <;> simp [hu]
    · simp only [World.grove, World.edges, hpends, Grove.leave]
      by_cases hu : u = t <;> simp [hu]
  refine does_of_pends hi (hg ▸ .leave t) rfl rfl (fun k hk => hg ▸ hk.leave t)
    fun u p hp => ?_
  rw [hpends] at hp
  split at hp
  · cases hp
  · exact .inl hp

theorem tryNew_operates {f : Facts} {mail : Mail} {mark : Mark}
    {permission : Permission} {pie : Pie}
    (h : tryNewWindow f w mail mark permission none none = some (.ok pie, w')) :
    Operates w { w' with loose := pie :: w'.loose } := by
  obtain ⟨next, hnext, heq⟩ := map_eq_some_iff.1 h
  obtain ⟨rfl, _⟩ := checkedAdd_eq_some.1 hnext
  obtain ⟨hr, rfl⟩ := Prod.mk.inj heq
  have hle : w.nextToken ≤ w.nextToken + 1 := Nat.le_succ _
  have hpie : pie.Root ∧ pie.token = w.nextToken := by
    cases hng : f.newGrant mail with
    | error e => simp [hng, Except.map] at hr
    | ok u =>
      rw [hng] at hr
      cases hr
      exact ⟨⟨rfl, rfl, rfl, rfl⟩, rfl⟩
  refine ⟨⟨⟨hi.neat, hi.tree, fun k hk => hi.fresh k (hle.trans hk), ?_, fun q hq => ?_⟩, .rest,
    fun t _ p' hp' => ⟨p', hp', le_rfl, .inl rfl⟩⟩, fun _ => id⟩
  · refine nodup_cons.2 ⟨fun hm => ?_, hi.loose_nodup⟩
    obtain ⟨q, hq, he⟩ := List.mem_map.1 hm
    exact (hi.loose q hq).2.1.ne (he.trans hpie.2)
  · rcases mem_cons.1 hq with rfl | hq
    · exact ⟨hpie.1, hpie.2 ▸ Nat.lt_succ_self _, hi.fresh _ hpie.2.ge⟩
    · exact ⟨(hi.loose q hq).1, (hi.loose q hq).2.1.trans_le hle, (hi.loose q hq).2.2⟩

variable {t : TaskId} {token : Token}

theorem below_children {p : Pend} (hp : w.pends t = some p) (k : Token) :
    Below w (t, k) (w.children p k) := by
  refine ⟨?_, fun y => ?_⟩
  · -- the edges of one parent have distinct children
    have hn := hi.neat t p hp
    have hsub : ((Multi.run Edge.parent p.heirs k).filter fun e => w.upgrade e.task).Sublist
        p.heirs := by
      rw [Multi.run_eq_filter hn.sorted]
      exact filter_sublist.trans filter_sublist
    have hpar : ∀ e ∈ (Multi.run Edge.parent p.heirs k).filter fun e => w.upgrade e.task,
        e.parent = k := fun e he => ((Multi.mem_run hn.sorted).1 (mem_filter.1 he).1).2
    unfold World.children
    have hpairs := hn.pairs.sublist (hsub.map _)
    rw [show ((Multi.run Edge.parent p.heirs k).filter fun e => w.upgrade e.task).map
        (fun e => (e.parent, e.token)) = (((Multi.run Edge.parent p.heirs k).filter
        fun e => w.upgrade e.task).map Edge.token).map fun j => (k, j) by
      rw [List.map_map]
      exact map_congr_left fun e he => by rw [hpar e he]; rfl] at hpairs
    rw [List.map_map]
    exact hpairs.of_map
  · rw [mem_children hi.neat hp]
    simp only [Grove.Child, World.grove, World.edges, hp, map_some, getD_some]

/-- What a walk that nobody disturbed collects for `forget`. -/
theorem below_of_shallow {tasks : List (TaskId × Nat)} {nodes : List (TaskId × Token)}
    (hseen : Seen (forgetCall t token) w tasks nodes nodes.length)
    (hshallow : Shallow (forgetCall t token) w nodes nodes.length) :
    Below w (t, token) nodes.tail := by
  have hpos : 0 < nodes.length := by
    have := hseen.head
    cases nodes with
    | nil => simp at this
    | cons => simp
  obtain ⟨p, hp, htail⟩ := (hshallow rfl).2 hpos
  exact htail ▸ below_children hi hp token

theorem operation_operates (h : Operation w w') : Operates w w' := by
  cases h with
  | create => exact create_operates hi
  | tryNew h => exact tryNew_operates hi h
  | tryNewFails h =>
    obtain ⟨next, hnext, heq⟩ := map_eq_some_iff.1 h
    obtain ⟨rfl, _⟩ := checkedAdd_eq_some.1 hnext
    obtain ⟨_, rfl⟩ := Prod.mk.inj heq
    exact (hi.mint (Nat.le_succ _)).operates
  | @insert _ f t pie r hm ht h =>
    obtain ⟨hr, hlt, hun⟩ := hi.loose pie hm
    have hnd : w.loose.Nodup := hi.loose_nodup.of_map
    have hi0 : Inv { w with loose := w.loose.erase pie } :=
      ⟨hi.neat, hi.tree, hi.fresh, hi.loose_nodup.sublist (erase_sublist.map _),
        fun q hq => hi.loose q (mem_of_mem_erase hq)⟩
    have hacts := insert_acts hi0 ht hr hlt hun (fun q hq he => ?_) h
    · exact ⟨⟨hacts.inv, hacts.move, hacts.drift⟩, fun u hu => (hacts.upgrade u).trans hu⟩
    · have hq' := (List.Nodup.mem_erase_iff hnd).1 hq
      exact hq'.1 (inj_on_of_nodup_map hi.loose_nodup hq'.2 hm he)
  | publish h => exact (publish_acts hi h).operates
  | reap h => exact (reap_acts hi h).operates
  | cull h =>
    rcases alone_run hi (fun _ _ _ _ _ _ => cullLocked_kept) h with
      ⟨rfl, _⟩ | ⟨r, f, tasks, nodes, _, hseen, hcur, _, hfin⟩
    · exact hi.rest.operates
    cases r with
    | error e =>
      have := (cullLocked_kept hfin).resolve_left (by simp)
      exact this ▸ hi.rest.operates
    | ok x => exact (cullLocked_spec hi (fun _ => hseen.of_versions rfl hcur) hfin).acts.operates
  | doom t =>
    have hw := ((Writes.refl hi.neat).changed t).mono fun u hu => hu.1
    have hg : (w.changed t).grove = w.grove :=
      hw.frame.grove (fun u j => locate_changed) fun u e => edges_changed.symm ▸ .rfl
    exact (hi.acts (hg ▸ .rest) hw fun k hk => hg ▸ hk).operates
  | forget h =>
    rcases alone_run hi (fun _ _ _ _ _ _ => forgetLocked_kept) h with
      ⟨rfl, _⟩ | ⟨r, f, tasks, nodes, _, hseen, _, hshallow, hfin⟩
    · exact hi.rest.operates
    cases r with
    | error e =>
      have := (forgetLocked_kept hfin).resolve_left (by simp)
      exact this ▸ hi.rest.operates
    | ok x =>
      exact (forgetLocked_spec hi (below_of_shallow hi hseen hshallow) hfin).acts.operates
  | reduce h => exact (reduce_acts hi h).operates
  | clearHeir h => exact (clearHeir_acts hi h).operates

theorem step_does (h : Step w w') : Does w w' := by
  cases h with
  | operation h => exact (operation_operates hi h).toDoes
  | vanish t => exact vanish_does hi t

end

theorem inv_init : Inv {} where
  neat t p hp := by simp at hp
  tree := by
    constructor <;> simp [World.grove, World.locate, World.edges, World.upgrade]
  fresh k _ := ⟨fun t => rfl, fun he => by simp [World.grove, World.edges] at he,
    fun hq => by simp [World.grove, World.locate] at hq⟩
  loose_nodup := by simp
  loose := by simp

theorem inv_run (h : ReflTransGen Step {} w) : Inv w := by
  induction h with
  | refl => exact inv_init
  | tail _ hs ih => exact (step_does ih hs).inv

/-! ## Top theorems -/

/-- The parent that a pie names. -/
def Above (w : World) (x y : TaskId × Token) : Prop :=
  ∃ q, w.locate y.1 y.2 = some q ∧ q.sire = some x.2 ∧ q.lord = some x.1

/-- Pies and edges match across all ledgers. -/
structure Consistent (w : World) : Prop where
  distinct : ∀ t p, w.pends t = some p → (p.pies.map Pie.token).Nodup
  apart : ∀ t u p p' q q', w.pends t = some p → w.pends u = some p' → q ∈ p.pies → q' ∈ p'.pies →
    q.token = q'.token → t = u
  sorted : ∀ t p, w.pends t = some p → p.heirs.Pairwise fun e e' => e.parent ≤ e'.parent
  child : ∀ t p q parent lord pl, w.pends t = some p → q ∈ p.pies → q.sire = some parent →
    q.lord = some lord → w.pends lord = some pl →
    pl.heirs.count ⟨parent, t, q.token⟩ = 1 ∧ ∃ r ∈ pl.pies, r.token = parent
  edge : ∀ t p e pc, w.pends t = some p → e ∈ p.heirs → w.pends e.task = some pc →
    ∃ q ∈ pc.pies, q.token = e.token ∧ q.sire = some e.parent ∧ q.lord = some t
  acyclic : ∀ x, ¬ TransGen (Above w) x x

theorem locate_of_mem (hn : w.Neat) {t : TaskId} {p : Pend} {q : Pie}
    (hp : w.pends t = some p) (hq : q ∈ p.pies) : w.locate t q.token = some q := by
  simp [World.locate, hp, Keyed.get_of_mem (hn t p hp).tokens hq]

theorem mem_of_locate {t : TaskId} {k : Token} {p : Pend} {q : Pie}
    (hp : w.pends t = some p) (hq : w.locate t k = some q) : q ∈ p.pies ∧ q.token = k := by
  rw [World.locate, hp, bind_some] at hq
  exact ⟨Keyed.mem_of_get hq, Keyed.key_of_get hq⟩

theorem Inv.consistent (hi : Inv w) : Consistent w where
  distinct t p hp := (hi.neat t p hp).tokens
  apart t u p p' q q' hp hp' hq hq' he :=
    hi.tree.apart (locate_of_mem hi.neat hp hq) (he ▸ locate_of_mem hi.neat hp' hq')
  sorted t p hp := (hi.neat t p hp).sorted
  child t p q parent lord pl hp hq hs hl hpl := by
    have hup : w.upgrade lord = true := by rw [World.upgrade, hpl, isSome_some]
    obtain ⟨he, r, hr⟩ := hi.tree.child (locate_of_mem hi.neat hp hq) hs hl hup
    obtain ⟨pl', hpl', he⟩ := mem_edges.1 he
    cases hpl.symm.trans hpl'
    exact ⟨count_eq_one_of_mem (hi.neat lord pl hpl).pairs.of_map he, r, mem_of_locate hpl hr⟩
  edge t p e pc hp he hpc := by
    have hup : w.upgrade e.task = true := by rw [World.upgrade, hpc, isSome_some]
    obtain ⟨q, hq, hs, hl⟩ := hi.tree.edge (mem_edges.2 ⟨p, hp, he⟩) hup
    have hm := mem_of_locate hpc hq
    exact ⟨q, hm.1, hm.2, hs, hl⟩
  acyclic := by
    -- a pie is younger than its parent, and tokens grow
    refine Forest.acyclic Prod.snd fun x y hxy => ?_
    obtain ⟨q, hq, hs, _⟩ := hxy
    exact hi.tree.order hq hs

/-- In every world that operations and tasks that vanish can lead to, the ledgers agree: a token is
held once, a pie whose lord lives has one edge there and its parent beside it, an edge to a living
task has its pie, and no pie is its own ancestor. -/
theorem ledgers_consistent (w : World) (hrun : ReflTransGen Step {} w) : Consistent w :=
  (inv_run hrun).consistent

/-- Two tasks, a root pie of the first, a pie vested in the second. -/
theorem ledgers_consistent_vested : ∃ w q, ReflTransGen Step {} w ∧ w.locate 2 2 = some q ∧
    q.sire = some 1 ∧ q.lord = some 1 ∧ Consistent w := by
  have h := ((((ReflTransGen.refl (r := Step) (a := {})).tail (.operation .create)).tail
    (.operation .create)).tail
    (.operation (@Operation.tryNew _ _ {} (.hole 0) 0 ⟨7#32⟩ _ rfl))).tail
    (.operation (@Operation.insert _ _ {} 1 _ _ (mem_singleton.2 rfl) rfl rfl))
  have h' := h.tail (.operation (@Operation.publish _ _ {} 1 2 1 ⟨3#32⟩ 0 none _ rfl))
  exact ⟨_, _, h', rfl, rfl, rfl, ledgers_consistent _ h'⟩

end Sqware.Ledger
