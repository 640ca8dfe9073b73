import Sqware.Lib.Forest
import Sqware.Pend.Ledger

/-!
# The forest the ledgers stand for

A grove says which tasks there are, which pies they hold and which edges they keep, without the
vectors and versions of the ledgers.  The operations on ledgers are few moves on a grove
(`Move`): a root is planted, a pie grafts another, a set closed under children is pruned, a pie is
spliced out, one is narrowed, one drops an heir that is gone.  `Tree` says that both records of the
parent relation agree.
-/

namespace Sqware.Ledger

/-! ## Groves -/

/-- An heir among the pies named is given up. -/
def Pie.disown (l : List (TaskId × Token)) (q : Pie) : Pie :=
  q.setHeir (q.heir.filter fun h => (h.task, h.token) ∉ l)

variable {q : Pie} {l : List (TaskId × Token)}

theorem disown_of_ne (h : ∀ x, q.heir = some x → (x.task, x.token) ∉ l) : q.disown l = q := by
  have hf : q.heir.filter (fun x => (x.task, x.token) ∉ l) = q.heir := by
    cases hx : q.heir with
    | none => rfl
    | some x => simp [Option.filter, h x hx]
  rw [Pie.disown, hf]
  rfl

/-- The source pie after it vested another. -/
def Pie.vested (pie : Pie) (dst : TaskId) (granted : Token) : Pie :=
  if pie.permission.contains .only then pie.setHeir (some ⟨dst, granted⟩) else pie

/-- `known` are the tasks there ever were; `edge t e` is that the ledger of `t` has the edge `e`. -/
structure Grove where
  known : TaskId → Prop
  present : TaskId → Prop
  pie : TaskId → Token → Option Pie
  edge : TaskId → Edge → Prop

namespace Grove

variable (g : Grove)

/-- A new task. -/
def enter (t : TaskId) : Grove :=
  { g with known := fun u => g.known u ∨ u = t, present := fun u => g.present u ∨ u = t }

/-- A task goes with its pies and edges. -/
def leave (t : TaskId) : Grove :=
  { g with
    present := fun u => g.present u ∧ u ≠ t
    pie := fun u j => if u = t then none else g.pie u j
    edge := fun u e => g.edge u e ∧ u ≠ t }

/-- A pie that has no parent. -/
def plant (t : TaskId) (pie : Pie) : Grove :=
  { g with pie := fun u j => if u = t ∧ j = pie.token then some pie else g.pie u j }

/-- A pie under another, which names it as heir if it is exclusive. -/
def graft (caller : TaskId) (pie : Pie) (dst : TaskId) (granted : Pie) : Grove :=
  { g with
    pie := fun u j =>
      if u = dst ∧ j = granted.token then some granted
      else if u = caller ∧ j = pie.token then some (pie.vested dst granted.token)
      else g.pie u j
    edge := fun u e => g.edge u e ∨ u = caller ∧ e = ⟨pie.token, dst, granted.token⟩ }

/-- A pie with the edge from its parent. -/
def sprout (t : TaskId) (pie : Pie) : Grove :=
  { g.plant t pie with
    edge := fun u e => g.edge u e ∨
      pie.sire = some e.parent ∧ pie.lord = some u ∧ e.task = t ∧ e.token = pie.token }

/-- Pies go with the edges from and to them. -/
def prune (l : List (TaskId × Token)) : Grove :=
  { g with
    pie := fun u j => if (u, j) ∈ l then none else (g.pie u j).map (Pie.disown l)
    edge := fun u e => g.edge u e ∧ (u, e.parent) ∉ l ∧ (e.task, e.token) ∉ l }

/-- A pie whose parent is spliced out, under the new parent. -/
def adopt (t : TaskId) (k : Token) (lord : TaskId) (parent : Token) (q : Pie) : Pie :=
  if q.sire = some k ∧ q.lord = some t then q.parent parent lord else q

/-- A pie goes, and its children become those of its parent. -/
def splice (t : TaskId) (k : Token) (lord : TaskId) (parent : Token) : Grove :=
  { g with
    pie := fun u j =>
      if u = t ∧ j = k then none
      else (g.pie u j).map fun q => (adopt t k lord parent q).disown [(t, k)]
    edge := fun u e =>
      g.edge u e ∧ ¬ (u = t ∧ e.parent = k) ∧ ¬ (e.task = t ∧ e.token = k) ∨
        u = lord ∧ e.parent = parent ∧ g.edge t ⟨k, e.task, e.token⟩ ∧ g.present e.task }

def set (t : TaskId) (k : Token) (pie : Pie) : Grove :=
  { g with pie := fun u j => if u = t ∧ j = k then some pie else g.pie u j }

/-- A pie forgets its heir, and the edge to it goes. -/
def clear (t : TaskId) (k : Token) (pie : Pie) (x : Heir) : Grove :=
  { g with
    pie := fun u j => if u = t ∧ j = k then some (pie.setHeir none) else g.pie u j
    edge := fun u e => g.edge u e ∧ ¬ (u = t ∧ e = ⟨k, x.task, x.token⟩) }

/-- The token is not held, and neither an edge nor a pie names it. -/
structure Unused (k : Token) : Prop where
  held : ∀ t, g.pie t k = none
  edge : ∀ {t e}, g.edge t e → e.token ≠ k
  sire : ∀ {t j q}, g.pie t j = some q → q.sire ≠ some k

/-- The child relation that `collect` follows. -/
def Child (x y : TaskId × Token) : Prop := g.edge x.1 ⟨x.2, y.1, y.2⟩ ∧ g.present y.1

end Grove

/-! ## The tree -/

/-- What the child says of its parent (`sire`, `lord`) and what the parent's ledger says of the
child agree, as far as both tasks are there. -/
structure Tree (g : Grove) : Prop where
  held : ∀ {t k q}, g.pie t k = some q → q.token = k ∧ g.present t
  apart : ∀ {t u k q r}, g.pie t k = some q → g.pie u k = some r → t = u
  owner : ∀ {t e}, g.edge t e → g.present t
  named : ∀ {t e u q}, g.edge t e → g.pie u e.token = some q → u = e.task
  edge : ∀ {t e}, g.edge t e → g.present e.task →
    ∃ q, g.pie e.task e.token = some q ∧ q.sire = some e.parent ∧ q.lord = some t
  child : ∀ {t k q p l}, g.pie t k = some q → q.sire = some p → q.lord = some l → g.present l →
    g.edge l ⟨p, t, k⟩ ∧ ∃ r, g.pie l p = some r
  order : ∀ {t k q p}, g.pie t k = some q → q.sire = some p → p < k
  heir : ∀ {t k q h}, g.pie t k = some q → q.heir = some h → g.edge t ⟨k, h.task, h.token⟩
  paired : ∀ {t k q}, g.pie t k = some q → (q.sire = none ↔ q.lord = none)
  sired : ∀ {t k q p l u r}, g.pie t k = some q → q.sire = some p → q.lord = some l →
    g.pie u p = some r → u = l
  present_known : ∀ {t}, g.present t → g.known t
  edge_known : ∀ {t e}, g.edge t e → g.known e.task
  lord_known : ∀ {t k q l}, g.pie t k = some q → q.lord = some l → g.known l

/-- The part of `Tree` that survives taking any pies at all, parents before children or not. -/
structure Index (g : Grove) : Prop where
  named : ∀ {t e u q}, g.edge t e → g.pie u e.token = some q → u = e.task
  edge : ∀ {t e}, g.edge t e → g.present e.task →
    ∃ q, g.pie e.task e.token = some q ∧ q.sire = some e.parent ∧ q.lord = some t
  heir : ∀ {t k q h}, g.pie t k = some q → q.heir = some h → g.edge t ⟨k, h.task, h.token⟩

theorem Tree.index {g : Grove} (hg : Tree g) : Index g := ⟨hg.named, hg.edge, hg.heir⟩

/-! ## Moves -/

/-- A pie as it is made. -/
def Pie.Root (q : Pie) : Prop :=
  q.sire = none ∧ q.lord = none ∧ q.heir = none ∧ q.grant.window = none

/-- What `publish` makes of a pie. -/
structure Vests (caller : TaskId) (pie granted : Pie) : Prop where
  sire : granted.sire = some pie.token
  lord : granted.lord = some caller
  heir : granted.heir = none
  mail : granted.mail = pie.mail
  permission : narrows pie.permission granted.permission = true
  window : granted.grant.window = pie.grant.window ∨
    ∃ outer inner, pie.mail.source = some outer ∧ granted.grant.window = some inner ∧
      (pie.grant.window.getD outer).offset ≤ inner.offset ∧ inner.offset + inner.count ≤
        (pie.grant.window.getD outer).offset + (pie.grant.window.getD outer).count
  free : pie.heir = none

/-- A set of pies closed under children. -/
def Closed (g : Grove) (l : List (TaskId × Token)) : Prop :=
  ∀ {t k q p d}, g.pie t k = some q → q.sire = some p → q.lord = some d → (d, p) ∈ l → (t, k) ∈ l

/-- What a section can do to the grove. -/
inductive Move (g : Grove) : Grove → Prop
  | rest : Move g g
  | enter {t : TaskId} (ht : ¬ g.known t) : Move g (g.enter t)
  | leave (t : TaskId) : Move g (g.leave t)
  | plant {t : TaskId} {pie : Pie} (ht : g.present t) (hr : pie.Root) (hk : g.Unused pie.token) :
      Move g (g.plant t pie)
  | graft {caller dst : TaskId} {pie granted : Pie} (hp : g.pie caller pie.token = some pie)
      (hd : g.present dst) (hv : Vests caller pie granted) (hk : g.Unused granted.token)
      (hlt : pie.token < granted.token) : Move g (g.graft caller pie dst granted)
  | prune {l : List (TaskId × Token)} (hl : Closed g l) : Move g (g.prune l)
  | splice {t lord : TaskId} {k parent : Token} {pie replacement : Pie}
      (hp : g.pie t k = some pie) (ho : pie.permission.contains .only = false)
      (hs : pie.sire = some parent) (hl : pie.lord = some lord)
      (hr : g.pie lord parent = some replacement) (hm : replacement.mail = pie.mail) :
      Move g (g.splice t k lord parent)
  | narrow {t : TaskId} {k : Token} {pie : Pie} {p : Permission} (hp : g.pie t k = some pie)
      (hn : narrows pie.permission p = true) :
      Move g (g.set t k { pie with grant := { pie.grant with permission := p } })
  | clear {t : TaskId} {k : Token} {pie : Pie} {x : Heir} (hp : g.pie t k = some pie)
      (hx : pie.heir = some x) (hd : ¬ g.present x.task) : Move g (g.clear t k pie x)

/-! ## Moves keep the tree -/

theorem disown_heir {h : Heir} :
    (q.disown l).heir = some h ↔ q.heir = some h ∧ (h.task, h.token) ∉ l := by
  simp [Pie.disown, Pie.setHeir, Option.filter_eq_some_iff]

variable {pie : Pie} {dst : TaskId} {k : Token}

theorem vested_sire (pie : Pie) (dst : TaskId) (k : Token) :
    (pie.vested dst k).sire = pie.sire := by
  unfold Pie.vested
  split <;> rfl

theorem vested_lord (pie : Pie) (dst : TaskId) (k : Token) :
    (pie.vested dst k).lord = pie.lord := by
  unfold Pie.vested
  split <;> rfl

theorem adopt_token (t lord : TaskId) (k parent : Token) (q : Pie) :
    (Grove.adopt t k lord parent q).token = q.token := by
  unfold Grove.adopt
  split <;> rfl

theorem adopt_heir (t lord : TaskId) (k parent : Token) (q : Pie) :
    (Grove.adopt t k lord parent q).heir = q.heir := by
  unfold Grove.adopt
  split <;> rfl

variable {lord t : TaskId} {parent : Token}

theorem splice_parent {l : TaskId} {p : Token}
    (hs : ((Grove.adopt t k lord parent q).disown [(t, k)]).sire = some p)
    (hl : ((Grove.adopt t k lord parent q).disown [(t, k)]).lord = some l) :
    q.sire = some k ∧ q.lord = some t ∧ p = parent ∧ l = lord ∨
      ¬ (p = k ∧ l = t) ∧ q.sire = some p ∧ q.lord = some l := by
  unfold Grove.adopt at hs hl
  split at hs
  · next hc =>
    rw [if_pos hc] at hl
    exact .inl ⟨hc.1, hc.2, (Option.some.inj hs).symm, (Option.some.inj hl).symm⟩
  next hc =>
  rw [if_neg hc] at hl
  refine .inr ⟨?_, hs, hl⟩
  rintro ⟨rfl, rfl⟩
  exact hc ⟨hs, hl⟩

section
variable {g : Grove} (hg : Tree g)
include hg

theorem Tree.enter (ht : ¬ g.known t) : Tree (g.enter t) where
  held hq := ⟨(hg.held hq).1, .inl (hg.held hq).2⟩
  apart := hg.apart
  owner he := .inl (hg.owner he)
  named := hg.named
  edge he hp := by
    rcases hp with hp | rfl
    · exact hg.edge he hp
    · exact (ht (hg.edge_known he)).elim
  child hq hs hl hp := by
    rcases hp with hp | rfl
    · exact hg.child hq hs hl hp
    · exact (ht (hg.lord_known hq hl)).elim
  order := hg.order
  heir := hg.heir
  paired := hg.paired
  sired := hg.sired
  present_known hp := hp.imp_left hg.present_known
  edge_known he := .inl (hg.edge_known he)
  lord_known hq hl := .inl (hg.lord_known hq hl)

/-- Pies and edges go; a pie that stays keeps its token and its parent. -/
theorem Tree.less {g' : Grove} (hpresent : ∀ {u}, g'.present u → g.present u)
    (hknown : g'.known = g.known)
    (hpie : ∀ {u k q}, g'.pie u k = some q → g'.present u ∧
      ∃ q0, g.pie u k = some q0 ∧ q.token = q0.token ∧ q.sire = q0.sire ∧ q.lord = q0.lord)
    (hedge : ∀ {u e}, g'.edge u e → g.edge u e ∧ g'.present u ∧
      (g'.present e.task → ∃ q, g'.pie e.task e.token = some q))
    (hchild : ∀ {u k q p l r}, g'.pie u k = some q → q.sire = some p → q.lord = some l →
      g'.present l → g.edge l ⟨p, u, k⟩ → g.pie l p = some r →
        g'.edge l ⟨p, u, k⟩ ∧ ∃ r', g'.pie l p = some r')
    (hheir : ∀ {u k q h}, g'.pie u k = some q → q.heir = some h → g'.edge u ⟨k, h.task, h.token⟩) :
    Tree g' where
  held hq := by
    obtain ⟨hp, q0, hq0, hk, _⟩ := hpie hq
    exact ⟨hk.trans (hg.held hq0).1, hp⟩
  apart hq hr := by
    obtain ⟨_, q0, hq0, _⟩ := hpie hq
    obtain ⟨_, r0, hr0, _⟩ := hpie hr
    exact hg.apart hq0 hr0
  owner he := (hedge he).2.1
  named he hq := by
    obtain ⟨_, q0, hq0, _⟩ := hpie hq
    exact hg.named (hedge he).1 hq0
  edge he hp := by
    obtain ⟨hold, _, hstay⟩ := hedge he
    obtain ⟨q, hq⟩ := hstay hp
    obtain ⟨_, q0, hq0, _, hs, hl⟩ := hpie hq
    obtain ⟨q1, hq1, hs1, hl1⟩ := hg.edge hold (hpresent hp)
    cases hq0.symm.trans hq1
    exact ⟨q, hq, hs.trans hs1, hl.trans hl1⟩
  child hq hs hl hp := by
    obtain ⟨_, q0, hq0, _, hs0, hl0⟩ := hpie hq
    obtain ⟨he, r, hr⟩ := hg.child hq0 (hs0 ▸ hs) (hl0 ▸ hl) (hpresent hp)
    exact hchild hq hs hl hp he hr
  order hq hs := by
    obtain ⟨_, q0, hq0, _, hs0, _⟩ := hpie hq
    exact hg.order hq0 (hs0 ▸ hs)
  heir := hheir
  paired hq := by
    obtain ⟨_, q0, hq0, _, hs0, hl0⟩ := hpie hq
    rw [hs0, hl0]
    exact hg.paired hq0
  sired hq hs hl hr := by
    obtain ⟨_, q0, hq0, _, hs0, hl0⟩ := hpie hq
    obtain ⟨_, r0, hr0, _⟩ := hpie hr
    exact hg.sired hq0 (hs0 ▸ hs) (hl0 ▸ hl) hr0
  present_known hp := hknown ▸ hg.present_known (hpresent hp)
  edge_known he := hknown ▸ hg.edge_known (hedge he).1
  lord_known hq hl := by
    obtain ⟨_, q0, hq0, _, _, hl0⟩ := hpie hq
    exact hknown ▸ hg.lord_known hq0 (hl0 ▸ hl)

theorem Tree.leave (t : TaskId) : Tree (g.leave t) := by
  have hpie : ∀ {u k q}, (g.leave t).pie u k = some q ↔ u ≠ t ∧ g.pie u k = some q := by
    intro u k q
    by_cases hu : u = t <;> simp [Grove.leave, hu]
  refine hg.less And.left rfl (fun hq => ?_) (fun he => ?_)
    (fun _ _ _ hp he hr => ⟨⟨he, hp.2⟩, _, hpie.2 ⟨hp.2, hr⟩⟩) fun hq hh => ?_
  · obtain ⟨hu, hq⟩ := hpie.1 hq
    exact ⟨⟨(hg.held hq).2, hu⟩, _, hq, rfl, rfl, rfl⟩
  · refine ⟨he.1, ⟨hg.owner he.1, he.2⟩, fun hp => ?_⟩
    obtain ⟨q, hq, _⟩ := hg.edge he.1 hp.1
    exact ⟨q, hpie.2 ⟨hp.2, hq⟩⟩
  · obtain ⟨hu, hq⟩ := hpie.1 hq
    exact ⟨hg.heir hq hh, hu⟩

/-- A pie is added, and the edge from its parent if it has one. -/
theorem Tree.sprout (ht : g.present t) (hk : g.Unused pie.token) (hnone : pie.heir = none)
    (hroot : pie.sire = none → pie.lord = none) (hparent : ∀ p, pie.sire = some p →
      p < pie.token ∧ ∃ l r, pie.lord = some l ∧ g.pie l p = some r) : Tree (g.sprout t pie) := by
  have hold : ∀ {u k q}, g.pie u k = some q → (g.sprout t pie).pie u k = some q := by
    intro u k q hq
    refine (if_neg ?_).trans hq
    rintro ⟨rfl, rfl⟩
    simp [hk.1] at hq
  have hpie : ∀ {u k q}, (g.sprout t pie).pie u k = some q →
      u = t ∧ k = pie.token ∧ q = pie ∨ k ≠ pie.token ∧ g.pie u k = some q := by
    intro u k q hq
    simp only [Grove.sprout, Grove.plant] at hq
    split at hq
    · next hx => exact .inl ⟨hx.1, hx.2, (Option.some.inj hq).symm⟩
    · refine .inr ⟨?_, hq⟩
      rintro rfl
      simp [hk.1] at hq
  -- the parent the pie names, if it names one
  have hlord : ∀ {p l}, pie.sire = some p → pie.lord = some l → ∃ r, g.pie l p = some r := by
    intro p l hs hl
    obtain ⟨_, l', r, hl', hr⟩ := hparent p hs
    cases hl.symm.trans hl'
    exact ⟨r, hr⟩
  have hsire : ∀ {l}, pie.lord = some l → ∃ p, pie.sire = some p := by
    intro l hl
    refine Option.ne_none_iff_exists'.1 fun hs => ?_
    rw [hroot hs] at hl
    cases hl
  constructor
  case held =>
    intro u k q hq
    rcases hpie hq with ⟨rfl, rfl, rfl⟩ | ⟨_, hq⟩
    · exact ⟨rfl, ht⟩
    · exact hg.held hq
  case apart =>
    intro u v k q r hq hr'
    rcases hpie hq with ⟨rfl, rfl, rfl⟩ | ⟨hne, hq⟩
    · rcases hpie hr' with ⟨rfl, _, _⟩ | ⟨hne, _⟩
      · rfl
      · exact (hne rfl).elim
    · rcases hpie hr' with ⟨_, rfl, _⟩ | ⟨_, hr'⟩
      · exact (hne rfl).elim
      · exact hg.apart hq hr'
  case owner =>
    rintro u e (he | ⟨hs, hl, _⟩)
    · exact hg.owner he
    · obtain ⟨r, hr⟩ := hlord hs hl
      exact (hg.held hr).2
  case named =>
    rintro u e v q (he | ⟨_, _, htask, htok⟩) hq
    · rcases hpie hq with ⟨_, hx, _⟩ | ⟨_, hq⟩
      · exact (hk.2 he hx).elim
      · exact hg.named he hq
    · rcases hpie hq with ⟨rfl, _⟩ | ⟨hne, _⟩
      · exact htask.symm
      · exact (hne htok).elim
  case edge =>
    rintro u e (he | ⟨hs, hl, htask, htok⟩) hp
    · obtain ⟨q, hq, hs⟩ := hg.edge he hp
      exact ⟨q, hold hq, hs⟩
    · exact ⟨pie, if_pos ⟨htask, htok⟩, hs, hl⟩
  case child =>
    intro u k q p l hq hs hl hp
    rcases hpie hq with ⟨rfl, rfl, rfl⟩ | ⟨_, hq⟩
    · obtain ⟨r, hr⟩ := hlord hs hl
      exact ⟨.inr ⟨hs, hl, rfl, rfl⟩, r, hold hr⟩
    · obtain ⟨he, r, hr⟩ := hg.child hq hs hl hp
      exact ⟨.inl he, r, hold hr⟩
  case order =>
    intro u k q p hq hs
    rcases hpie hq with ⟨_, rfl, rfl⟩ | ⟨_, hq⟩
    · exact (hparent p hs).1
    · exact hg.order hq hs
  case heir =>
    intro u k q h hq hh
    rcases hpie hq with ⟨_, _, rfl⟩ | ⟨_, hq⟩
    · simp [hnone] at hh
    · exact .inl (hg.heir hq hh)
  case paired =>
    intro u k q hq
    rcases hpie hq with ⟨_, _, rfl⟩ | ⟨_, hq⟩
    · refine ⟨hroot, fun hl => Option.eq_none_iff_forall_ne_some.2 fun p hs => ?_⟩
      obtain ⟨_, l, _, hl', _⟩ := hparent p hs
      cases hl.symm.trans hl'
    · exact hg.paired hq
  case sired =>
    intro u k q p l v r hq hs hl hr'
    rcases hpie hq with ⟨_, _, rfl⟩ | ⟨_, hq⟩
    · obtain ⟨r0, hr0⟩ := hlord hs hl
      rcases hpie hr' with ⟨_, hx, _⟩ | ⟨_, hr'⟩
      · exact ((hparent p hs).1.ne hx).elim
      · exact hg.apart hr' hr0
    rcases hpie hr' with ⟨_, rfl, _⟩ | ⟨_, hr'⟩
    · exact (hk.sire hq hs).elim
    · exact hg.sired hq hs hl hr'
  case present_known => exact hg.present_known
  case edge_known =>
    rintro u e (he | ⟨_, _, htask, _⟩)
    · exact hg.edge_known he
    · rw [htask]
      exact hg.present_known ht
  case lord_known =>
    intro u k q l hq hl
    rcases hpie hq with ⟨_, _, rfl⟩ | ⟨_, hq⟩
    · obtain ⟨p, hs⟩ := hsire hl
      obtain ⟨r, hr⟩ := hlord hs hl
      exact hg.present_known (hg.held hr).2
    · exact hg.lord_known hq hl

theorem Tree.plant (ht : g.present t) (hr : pie.Root) (hk : g.Unused pie.token) :
    Tree (g.plant t pie) := by
  have heq : g.sprout t pie = g.plant t pie := by simp [Grove.sprout, Grove.plant, hr.1]
  exact heq ▸ hg.sprout ht hk hr.2.2.1 (fun _ => hr.2.1) fun p hs => by simp [hr.1] at hs

variable {granted : Pie} {caller u : TaskId}

omit hg in
theorem graft_pie (hp : g.pie caller pie.token = some pie) (hk : g.Unused granted.token)
    (hq : (g.graft caller pie dst granted).pie u k = some q) :
    u = dst ∧ k = granted.token ∧ q = granted ∨ k ≠ granted.token ∧ (g.pie u k = some q ∨
      u = caller ∧ k = pie.token ∧ q = pie.vested dst granted.token) := by
  simp only [Grove.graft] at hq
  split at hq
  · next hx => exact .inl ⟨hx.1, hx.2, (Option.some.inj hq).symm⟩
  right
  split at hq
  · next hx =>
    refine ⟨?_, .inr ⟨hx.1, hx.2, (Option.some.inj hq).symm⟩⟩
    intro hke
    rw [← hx.2, hke, hk.1] at hp
    simp at hp
  · refine ⟨?_, .inl hq⟩
    rintro rfl
    simp [hk.1] at hq

omit hg in
theorem prune_pie :
    (g.prune l).pie u k = some q ↔ (u, k) ∉ l ∧ ∃ q0, g.pie u k = some q0 ∧ q0.disown l = q := by
  by_cases hm : (u, k) ∈ l <;> simp [Grove.prune, hm]

omit hg in
theorem Index.prune (hg : Index g) (l : List (TaskId × Token)) : Index (g.prune l) := by
  constructor
  case named =>
    intro u e v q he hq
    obtain ⟨_, q0, hq0, _⟩ := prune_pie.1 hq
    exact hg.named he.1 hq0
  case edge =>
    rintro u e ⟨he, _, hne⟩ hp
    obtain ⟨q, hq, hs⟩ := hg.edge he hp
    exact ⟨q.disown l, prune_pie.2 ⟨hne, q, hq, rfl⟩, hs⟩
  case heir =>
    intro u k q h hq hh
    obtain ⟨hne, q0, hq0, rfl⟩ := prune_pie.1 hq
    obtain ⟨hh, hhl⟩ := disown_heir.1 hh
    exact ⟨hg.heir hq0 hh, hne, hhl⟩

theorem Tree.prune (hl : Closed g l) : Tree (g.prune l) := by
  have hi := hg.index.prune l
  refine hg.less id rfl (fun hq => ?_) (fun he => ?_) (fun hq hs hd hp he hr => ?_) hi.heir
  · obtain ⟨_, q0, hq0, rfl⟩ := prune_pie.1 hq
    exact ⟨(hg.held hq0).2, q0, hq0, rfl, rfl, rfl⟩
  · refine ⟨he.1, hg.owner he.1, fun hp => ?_⟩
    obtain ⟨q, hq, _⟩ := hi.edge he hp
    exact ⟨q, hq⟩
  · obtain ⟨hne, q0, hq0, rfl⟩ := prune_pie.1 hq
    have hpl := fun hm => hne (hl hq0 hs hd hm)
    exact ⟨⟨he, hpl, hne⟩, _, prune_pie.2 ⟨hpl, _, hr, rfl⟩⟩

omit hg in
theorem splice_pie {j : Token} :
    (g.splice t k lord parent).pie u j = some q ↔ ¬ (u = t ∧ j = k) ∧
      ∃ q0, g.pie u j = some q0 ∧ (Grove.adopt t k lord parent q0).disown [(t, k)] = q := by
  by_cases hx : u = t ∧ j = k <;> simp [Grove.splice, hx]

theorem Tree.splice {replacement : Pie} (hp : g.pie t k = some pie)
    (hs : pie.sire = some parent) (hr : g.pie lord parent = some replacement) :
    Tree (g.splice t k lord parent) := by
  have hlt : parent < k := hg.order hp hs
  have hlord : g.present lord := (hg.held hr).2
  have ht : g.present t := (hg.held hp).2
  constructor
  case held =>
    intro u j q hq
    obtain ⟨_, q0, hq0, rfl⟩ := splice_pie.1 hq
    exact ⟨(adopt_token _ _ _ _ _).trans (hg.held hq0).1, (hg.held hq0).2⟩
  case apart =>
    intro u v j q r hq hr'
    obtain ⟨_, q0, hq0, _⟩ := splice_pie.1 hq
    obtain ⟨_, r0, hr0, _⟩ := splice_pie.1 hr'
    exact hg.apart hq0 hr0
  case owner =>
    rintro u e (⟨he, _⟩ | ⟨rfl, _⟩)
    · exact hg.owner he
    · exact hlord
  case named =>
    rintro u e v q he hq
    obtain ⟨_, q0, hq0, _⟩ := splice_pie.1 hq
    rcases he with ⟨he, _⟩ | ⟨_, _, he, _⟩
    · exact hg.named he hq0
    · exact hg.named (e := ⟨k, e.task, e.token⟩) he hq0
  case edge =>
    rintro u e (⟨he, hnp, hnc⟩ | ⟨rfl, rfl, he, _⟩) hpr
    · obtain ⟨q, hq, hs', hl'⟩ := hg.edge he hpr
      have hno : Grove.adopt t k lord parent q = q := by
        refine if_neg fun hc => hnp ?_
        rw [hs', hl', Option.some.injEq, Option.some.injEq] at hc
        exact ⟨hc.2, hc.1⟩
      exact ⟨_, splice_pie.2 ⟨hnc, q, hq, rfl⟩, by rw [hno]; exact hs', by rw [hno]; exact hl'⟩
    obtain ⟨q, hq, hs', hl'⟩ := hg.edge he hpr
    have hgt : k < e.token := hg.order hq hs'
    have hyes : Grove.adopt t k u e.parent q = q.parent e.parent u := if_pos ⟨hs', hl'⟩
    exact ⟨_, splice_pie.2 ⟨fun hx => hgt.ne hx.2.symm, q, hq, rfl⟩, by rw [hyes]; rfl,
      by rw [hyes]; rfl⟩
  case child =>
    intro u j q p l hq hs' hl' hpr
    obtain ⟨hne, q0, hq0, rfl⟩ := splice_pie.1 hq
    rcases splice_parent hs' hl' with ⟨hs0, hl0, rfl, rfl⟩ | ⟨hnp, hs0, hl0⟩
    · have he := (hg.child hq0 hs0 hl0 ht).1
      exact ⟨.inr ⟨rfl, rfl, he, (hg.held hq0).2⟩, _,
        splice_pie.2 ⟨fun hx => hlt.ne hx.2, replacement, hr, rfl⟩⟩
    · obtain ⟨he, r, hr'⟩ := hg.child hq0 hs0 hl0 hpr
      exact ⟨.inl ⟨he, fun hx => hnp ⟨hx.2, hx.1⟩, hne⟩, _,
        splice_pie.2 ⟨fun hx => hnp ⟨hx.2, hx.1⟩, r, hr', rfl⟩⟩
  case order =>
    intro u j q p hq hs'
    obtain ⟨_, q0, hq0, rfl⟩ := splice_pie.1 hq
    unfold Grove.adopt at hs'
    split at hs'
    · next hc =>
      cases hs'
      exact hlt.trans (hg.order hq0 hc.1)
    · exact hg.order hq0 hs'
  case heir =>
    intro u j q h hq hh
    obtain ⟨hne, q0, hq0, rfl⟩ := splice_pie.1 hq
    obtain ⟨hh, hhl⟩ := disown_heir.1 hh
    rw [adopt_heir] at hh
    refine .inl ⟨hg.heir hq0 hh, hne, ?_⟩
    simpa using hhl
  case paired =>
    intro u j q hq
    obtain ⟨_, q0, hq0, rfl⟩ := splice_pie.1 hq
    change (Grove.adopt t k lord parent q0).sire = none ↔
        (Grove.adopt t k lord parent q0).lord = none
    unfold Grove.adopt
    split
    · simp [Pie.parent]
    · exact hg.paired hq0
  case sired =>
    intro u j q p l v r hq hs' hl' hr'
    obtain ⟨_, q0, hq0, rfl⟩ := splice_pie.1 hq
    obtain ⟨_, r0, hr0, _⟩ := splice_pie.1 hr'
    rcases splice_parent hs' hl' with ⟨_, _, rfl, rfl⟩ | ⟨_, hs0, hl0⟩
    · exact hg.apart hr0 hr
    · exact hg.sired hq0 hs0 hl0 hr0
  case present_known => exact hg.present_known
  case edge_known =>
    rintro u e (⟨he, _⟩ | ⟨_, _, he, _⟩)
    · exact hg.edge_known he
    · exact hg.edge_known (e := ⟨k, e.task, e.token⟩) he
  case lord_known =>
    intro u j q l hq hl'
    obtain ⟨_, q0, hq0, rfl⟩ := splice_pie.1 hq
    unfold Grove.adopt at hl'
    split at hl'
    · cases hl'
      exact hg.present_known hlord
    · exact hg.lord_known hq0 hl'

omit hg in
theorem set_pie {j : Token} (h : (g.set t k pie).pie u j = some q) :
    u = t ∧ j = k ∧ q = pie ∨ g.pie u j = some q := by
  simp only [Grove.set] at h
  split at h
  · next hx => exact .inl ⟨hx.1, hx.2, (Option.some.inj h).symm⟩
  · exact .inr h

/-- Replacing a pie by one with the same token and parent, whose heir has an edge. -/
theorem Tree.set {pie' : Pie} (hp : g.pie t k = some pie) (hk : pie'.token = pie.token)
    (hs : pie'.sire = pie.sire) (hl : pie'.lord = pie.lord)
    (hh : ∀ h, pie'.heir = some h → g.edge t ⟨k, h.task, h.token⟩) : Tree (g.set t k pie') := by
  have hold : ∀ {u j q}, g.pie u j = some q → ∃ q', (g.set t k pie').pie u j = some q' := by
    intro u j q hq
    by_cases hx : u = t ∧ j = k
    · exact ⟨pie', if_pos hx⟩
    · exact ⟨q, (if_neg hx).trans hq⟩
  refine hg.less id rfl (fun hq => ?_) (fun he => ?_) (fun _ _ _ _ he hr => ⟨he, hold hr⟩)
    fun hq hx => ?_
  · rcases set_pie hq with ⟨rfl, rfl, rfl⟩ | hq
    · exact ⟨(hg.held hp).2, pie, hp, hk, hs, hl⟩
    · exact ⟨(hg.held hq).2, _, hq, rfl, rfl, rfl⟩
  · refine ⟨he, hg.owner he, fun hp => ?_⟩
    obtain ⟨q, hq, _⟩ := hg.edge he hp
    exact hold hq
  · rcases set_pie hq with ⟨rfl, rfl, rfl⟩ | hq
    · exact hh _ hx
    · exact hg.heir hq hx

theorem Tree.graft (hp : g.pie caller pie.token = some pie) (hd : g.present dst)
    (hv : Vests caller pie granted) (hk : g.Unused granted.token)
    (hlt : pie.token < granted.token) :
    Tree (g.graft caller pie dst granted) := by
  have hnew : Tree (g.sprout dst granted) := by
    refine hg.sprout hd hk hv.heir (fun hs => ?_) fun p hs => ?_
    · rw [hv.sire] at hs
      cases hs
    · cases hv.sire.symm.trans hs
      exact ⟨hlt, caller, pie, hv.lord, hp⟩
  have heq : g.graft caller pie dst granted =
      (g.sprout dst granted).set caller pie.token (pie.vested dst granted.token) := by
    unfold Grove.graft Grove.set Grove.sprout Grove.plant
    congr 1
    · funext u j
      by_cases hj : j = granted.token
      · simp [hj, hlt.ne']
      · simp [hj]
    · funext u e
      obtain ⟨p, d, k⟩ := e
      simp only [hv.sire, hv.lord, Option.some.injEq, Edge.mk.injEq, eq_iff_iff]
      tauto
  rw [heq]
  refine hnew.set ((if_neg fun hx => hlt.ne hx.2).trans hp) ?_ (vested_sire _ _ _)
    (vested_lord _ _ _) fun h hh => ?_
  · unfold Pie.vested
    split <;> rfl
  unfold Pie.vested at hh
  split at hh
  · cases hh
    exact .inr ⟨hv.sire, hv.lord, rfl, rfl⟩
  · simp [hv.free] at hh

/-- Every move keeps `Tree`. -/
theorem tree_move {g' : Grove} (h : Move g g') : Tree g' := by
  cases h with
  | rest => exact hg
  | enter ht => exact hg.enter ht
  | leave t => exact hg.leave t
  | plant ht hr hk => exact hg.plant ht hr hk
  | graft hp hd hv hk hlt => exact hg.graft hp hd hv hk hlt
  | prune hl => exact hg.prune hl
  | splice hp _ hs _ hr _ => exact hg.splice hp hs hr
  | narrow hp _ => exact hg.set hp rfl rfl rfl fun h hh => hg.heir hp hh
  | @clear t k pie x hp hx hd =>
    have hset : Tree (g.set t k (pie.setHeir none)) :=
      hg.set hp rfl rfl rfl fun h hh => by simp [Pie.setHeir] at hh
    refine hset.less id rfl (fun hq => ?_) (fun he => ?_)
      (fun hq _ _ _ he hr => ⟨⟨he, ?_⟩, _, hr⟩) fun {_ _ q _} hq hh => ⟨hset.heir hq hh, ?_⟩
    · exact ⟨(hset.held hq).2, _, hq, rfl, rfl, rfl⟩
    · refine ⟨he.1, hset.owner he.1, fun hp => ?_⟩
      obtain ⟨q, hq, _⟩ := hset.edge he.1 hp
      exact ⟨q, hq⟩
    · rintro ⟨_, he⟩
      obtain ⟨rfl, rfl, rfl⟩ := Edge.mk.inj he
      exact hd (hset.held hq).2
    · rintro ⟨rfl, he⟩
      obtain ⟨rfl, -, -⟩ := Edge.mk.inj he
      obtain rfl : pie.setHeir none = q := by simpa [Grove.clear, Grove.set] using hq
      simp [Pie.setHeir] at hh

theorem rank_child {x y : TaskId × Token} (h : g.Child x y) : x.2 < y.2 := by
  obtain ⟨q, hq, hs, _⟩ := hg.edge h.1 h.2
  exact hg.order hq hs

end

/-! ## Pruning in steps, and tokens in use -/

theorem disown_disown (l l' : List (TaskId × Token)) (q : Pie) :
    (q.disown l).disown l' = q.disown (l' ++ l) := by
  have h : (q.heir.filter fun h => (h.task, h.token) ∉ l).filter (fun h => (h.task, h.token) ∉ l') =
      q.heir.filter fun h => (h.task, h.token) ∉ l' ++ l := by
    cases hq : q.heir with
    | none => rfl
    | some h =>
      by_cases hm : (h.task, h.token) ∈ l <;> by_cases hm' : (h.task, h.token) ∈ l' <;>
        simp [Option.filter, hm, hm']
  show Pie.setHeir _ _ = Pie.setHeir _ _
  rw [← h]
  rfl

theorem disown_congr {l' : List (TaskId × Token)} (h : ∀ x, x ∈ l ↔ x ∈ l') (q : Pie) :
    q.disown l = q.disown l' := by
  simp only [Pie.disown, h]

theorem prune_prune (g : Grove) (l l' : List (TaskId × Token)) :
    (g.prune l).prune l' = g.prune (l' ++ l) := by
  unfold Grove.prune
  congr 1
  · funext u j
    by_cases hm : (u, j) ∈ l <;> by_cases hm' : (u, j) ∈ l' <;>
      simp [hm, hm', Function.comp_def, disown_disown]
  · funext u e
    simp only [List.mem_append, not_or, eq_iff_iff]
    tauto

theorem prune_congr (g : Grove) {l' : List (TaskId × Token)} (h : ∀ x, x ∈ l ↔ x ∈ l') :
    g.prune l = g.prune l' := by
  unfold Grove.prune
  simp only [h, funext (disown_congr h)]

theorem prune_nil (g : Grove) : g.prune [] = g := by
  have hd : (Pie.disown [] : Pie → Pie) = id := by
    funext q
    exact disown_of_ne fun _ _ => List.not_mem_nil
  unfold Grove.prune
  simp [hd]

section
variable {g : Grove} {k : Token} (hk : g.Unused k)
include hk

theorem Grove.Unused.prune (l : List (TaskId × Token)) : (g.prune l).Unused k := by
  refine ⟨fun t => ?_, fun he => hk.edge he.1, fun hq => ?_⟩
  · simp [Grove.prune, hk.held]
  · obtain ⟨_, q0, hq0, rfl⟩ := prune_pie.1 hq
    exact hk.sire (q := q0) hq0

theorem Grove.Unused.splice {replacement : Pie} (hr : g.pie lord parent = some replacement)
    (t : TaskId) (j : Token) : (g.splice t j lord parent).Unused k := by
  refine ⟨fun u => ?_, fun {_ e} he => ?_, fun hq => ?_⟩
  · simp [Grove.splice, hk.held]
  · rcases he with ⟨he, _⟩ | ⟨_, _, he, _⟩
    · exact hk.edge he
    · exact hk.edge (e := ⟨j, e.task, e.token⟩) he
  obtain ⟨_, q0, hq0, rfl⟩ := splice_pie.1 hq
  show (adopt t j lord parent q0).sire ≠ some k
  unfold adopt
  split
  · rintro ⟨⟩
    simp [hk.held] at hr
  · exact hk.sire hq0

theorem Grove.Unused.set {j : Token} {pie' : Pie} (hp : g.pie t j = some pie)
    (hs : pie'.sire = pie.sire) : (g.set t j pie').Unused k := by
  refine ⟨fun u => ?_, hk.edge, fun hq => ?_⟩
  · simp only [Grove.set]
    split
    · next hx =>
      rw [← hx.1, ← hx.2, hk.held] at hp
      simp at hp
    · exact hk.held u
  · rcases set_pie hq with ⟨_, _, rfl⟩ | hq
    · exact hs ▸ hk.sire hp
    · exact hk.sire hq

theorem Grove.Unused.clear {j : Token} (hp : g.pie t j = some pie) (x : Heir) :
    (g.clear t j pie x).Unused k :=
  have hset : (g.set t j (pie.setHeir none)).Unused k := hk.set hp rfl
  ⟨hset.held, fun he => hk.edge he.1, hset.sire⟩

theorem Grove.Unused.plant (hr : pie.Root) (hne : k ≠ pie.token) (t : TaskId) :
    (g.plant t pie).Unused k := by
  refine ⟨fun u => ?_, hk.edge, fun hq => ?_⟩
  · simp [Grove.plant, hk.held, hne]
  simp only [Grove.plant] at hq
  split at hq
  · rw [← Option.some.inj hq, hr.1]
    simp
  · exact hk.sire hq

theorem Grove.Unused.graft {caller : TaskId} {granted : Pie}
    (hp : g.pie caller pie.token = some pie) (hs : granted.sire = some pie.token)
    (hne : k ≠ granted.token) (dst : TaskId) : (g.graft caller pie dst granted).Unused k := by
  have hne' : k ≠ pie.token := by
    rintro rfl
    simp [hk.held] at hp
  refine ⟨fun u => ?_, fun he => ?_, fun hq => ?_⟩
  · simp [Grove.graft, hk.held, hne, hne']
  · rcases he with he | ⟨_, rfl⟩
    · exact hk.edge he
    · exact hne.symm
  simp only [Grove.graft] at hq
  split at hq
  · rw [← Option.some.inj hq, hs]
    simpa using hne'.symm
  split at hq
  · rw [← Option.some.inj hq, vested_sire]
    exact hk.sire hp
  · exact hk.sire hq

theorem Grove.Unused.enter (t : TaskId) : (g.enter t).Unused k := ⟨hk.held, hk.edge, hk.sire⟩

theorem Grove.Unused.leave (t : TaskId) : (g.leave t).Unused k := by
  refine ⟨fun u => ?_, fun he => hk.edge he.1, fun hq => ?_⟩
  · simp [Grove.leave, hk.held]
  simp only [Grove.leave] at hq
  split at hq
  · simp at hq
  · exact hk.sire hq

end

end Sqware.Ledger
