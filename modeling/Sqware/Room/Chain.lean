import Sqware.Lib.Stack

/-!
# Chains of tasks

A chain is a queue of tasks that hang together by the one `next` link each task has, so all chains
write to the same links.  `Holds w lists` reads every chain as a list: no task is in two of them or
in one twice, a tail is the last task, and the link of a task outside is empty, unless it left with
the whole of its chain (`taken`).

    push_spec, pop_spec, detach_spec      one chain, and the links that stay
-/

namespace Sqware.Room

open Stacks List Function

abbrev TaskId := Nat

structure Chain where
  head : Option TaskId := none
  tail : Option TaskId := none

namespace Chain

variable (m : Memory) (c : Chain)

def push (task : TaskId) : Memory × Chain :=
  match c.tail with
  | none => (m, ⟨some task, some task⟩)
  | some last => (update m last (some task), { c with tail := some task })

def pop : Option TaskId × Memory × Chain :=
  match c.head with
  | none => (none, m, c)
  | some head =>
    (some head, update m head none, ⟨m head, if (m head).isNone then none else c.tail⟩)

/-- The hit of `remove_if`, with the task before it. -/
def detach (prev : Option TaskId) (node : TaskId) : Memory × Chain :=
  let next := m node
  let m := update m node none
  let (m, c) := match prev with
    | some p => (update m p next, c)
    | none => (m, { c with head := next })
  (m, if next.isNone then { c with tail := prev } else c)

/-- The loop of `remove_if`; `none` when the fuel does not reach. -/
def removeLoop (hit : TaskId → Bool) :
    Nat → (prev cur : Option TaskId) → Option (Option TaskId × Memory × Chain)
  | _, _, none => some (none, m, c)
  | 0, _, some _ => none
  | fuel + 1, prev, some node =>
    if hit node then some (some node, c.detach m prev node)
    else removeLoop hit fuel (some node) (m node)

end Chain

/-- The links of the tasks and the chains by name; `taken` has the tasks that left with their whole
chain and were not pushed since. -/
structure World where
  next : Memory := fun _ => none
  chains : Nat → Chain := fun _ => {}
  taken : List TaskId := []

namespace World

variable (w : World) (i : Nat)

def put (r : Memory × Chain) : World := { w with next := r.1, chains := update w.chains i r.2 }

def push (task : TaskId) : World :=
  { w.put i ((w.chains i).push w.next task) with taken := w.taken.filter (· ≠ task) }

def pop : Option TaskId × World :=
  let (task, r) := (w.chains i).pop w.next
  (task, w.put i r)

def removeIf (fuel : Nat) (hit : TaskId → Bool) : Option (Option TaskId × World) :=
  ((w.chains i).removeLoop w.next hit fuel none (w.chains i).head).map fun (task, r) =>
    (task, w.put i r)

/-- `take`; `l` has the tasks that leave. -/
def take (l : List TaskId) : Option TaskId × World :=
  ((w.chains i).head, { w.put i (w.next, {}) with taken := l ++ w.taken })

/-- The link of a task is emptied by whoever holds it. -/
def clear (task : TaskId) : World := { w with next := update w.next task none }

/-- The task is in no chain. -/
def Outside (task : TaskId) : Prop := ∀ i l, Stacks.Chain w.next (w.chains i).head l → task ∉ l

end World

/-- Tasks are pushed when they are outside, with an empty link. -/
inductive Reached : World → Prop
  | init : Reached {}
  | push {w : World} (h : Reached w) (i : Nat) {task : TaskId} (hout : w.Outside task)
      (hlink : w.next task = none) : Reached (w.push i task)
  | pop {w : World} (h : Reached w) (i : Nat) : Reached (w.pop i).2
  | take {w : World} (h : Reached w) (i : Nat) {l : List TaskId}
      (hl : Stacks.Chain w.next (w.chains i).head l) : Reached (w.take i l).2
  | removeIf {w w' : World} (h : Reached w) {i fuel : Nat} {hit : TaskId → Bool}
      {task : Option TaskId} (hr : w.removeIf i fuel hit = some (task, w')) : Reached w'
  | clear {w : World} (h : Reached w) {task : TaskId} (hout : w.Outside task) :
      Reached (w.clear task)

/-! ## One chain -/

/-- The chain is this list. -/
structure Represents (m : Memory) (c : Chain) (l : List TaskId) : Prop where
  chain : Stacks.Chain m c.head l
  nodup : l.Nodup
  tail : c.tail = l.getLast?

/-- A chain becomes another list: tasks elsewhere keep their links, and one that leaves has none or
was taken. -/
structure Turns (m : Memory) (l : List TaskId) (r : Memory × Chain) (l' taken : List TaskId) :
    Prop where
  represents : Represents r.1 r.2 l'
  other : ∀ x, x ∉ l → r.1 x = m x
  gone : ∀ x ∈ l, x ∉ l' → r.1 x = none ∨ x ∈ taken

variable {m : Memory} {c : Chain} {l taken : List TaskId} {task : TaskId}

theorem push_spec (h : Represents m c l) (hx : task ∉ l) (hlink : m task = none) :
    Turns m l (c.push m task) (l ++ [task]) taken := by
  obtain ⟨hc, hn, ht⟩ := h
  have hn' : (l ++ [task]).Nodup := hn.append (nodup_singleton _) (by simpa using hx)
  have hgone : ∀ {m' : Memory}, ∀ x ∈ l, x ∉ l ++ [task] → m' x = none ∨ x ∈ taken :=
    fun x hx hx' => absurd (mem_append_left _ hx) hx'
  have hone : Stacks.Chain m (some task) [task] := ⟨rfl, hlink⟩
  rcases eq_nil_or_concat l with rfl | ⟨l, last, rfl⟩
  · rw [Chain.push, ht]
    exact ⟨⟨hone, hn', rfl⟩, fun _ _ => rfl, hgone⟩
  rw [concat_eq_append] at *
  rw [Chain.push, ht, getLast?_concat]
  refine ⟨⟨?_, hn', by simp⟩, fun x hx => ?_, hgone⟩
  · rw [append_assoc]
    refine chain_splice hc hone (fun hm => ?_) fun hm => ?_
    · exact (disjoint_of_nodup_append hn) hm (mem_singleton_self _)
    · exact hx (mem_append_right _ (mem_singleton.1 hm ▸ mem_singleton_self _))
  · exact update_of_ne (by rintro rfl; exact hx (by simp)) _ _

variable {l1 l2 : List TaskId} {node : TaskId}

theorem detach_none : c.detach m none node =
    (update m node none, ⟨m node, if (m node).isNone then none else c.tail⟩) := by
  unfold Chain.detach
  dsimp only
  split <;> rfl

theorem detach_some {p : TaskId} : c.detach m (some p) node =
    (update (update m node none) p (m node),
      ⟨c.head, if (m node).isNone then some p else c.tail⟩) := by
  unfold Chain.detach
  dsimp only
  split <;> rfl

theorem detach_spec (h : Represents m c (l1 ++ node :: l2)) :
    Turns m (l1 ++ node :: l2) (c.detach m l1.getLast? node) (l1 ++ l2) taken := by
  obtain ⟨hc, hn, ht⟩ := h
  have hbelow := hc.below
  obtain ⟨hnode, hn'⟩ := nodup_cons.1 (nodup_middle.1 hn)
  -- a task that leaves is the one that was hit
  have hhit : ∀ x ∈ l1 ++ node :: l2, x ∉ l1 ++ l2 → x = node := by
    intro x hx hx'
    simp only [mem_append, mem_cons, not_or] at hx hx'
    tauto
  have htail : (if (m node).isNone then l1.getLast? else c.tail) = (l1 ++ l2).getLast? := by
    rw [hbelow.head_eq, ht]
    cases l2 <;> simp [getLast?_append]
  rcases eq_nil_or_concat l1 with rfl | ⟨l1, p, rfl⟩
  · rw [getLast?_nil, detach_none]
    refine ⟨⟨chain_update hbelow hnode none, hn', htail⟩, fun x hx => ?_, fun x hx hx' => .inl ?_⟩
    · exact update_of_ne (by rintro rfl; exact hx (by simp)) _ _
    · rw [hhit x hx hx']
      exact update_self _ _ _
  rw [concat_eq_append] at *
  rw [getLast?_concat] at htail ⊢
  rw [append_assoc] at hn' hc
  have hp : p ≠ node := by
    rintro rfl
    exact hnode (by simp)
  have hnp : p ∉ l1 ++ l2 := (nodup_cons.1 (nodup_middle.1 hn')).1
  rw [mem_append, not_or] at hnp
  have hchain := chain_update (chain_splice hc hbelow hnp.1 hnp.2) (by simpa using hnode) none
  rw [detach_some, update_comm hp.symm]
  refine ⟨⟨?_, by rwa [append_assoc], htail⟩, fun x hx => ?_, fun x hx hx' => .inl ?_⟩
  · rwa [append_assoc]
  · simp only [mem_append, mem_cons, not_or] at hx
    exact (update_of_ne hx.2.1 _ _).trans (update_of_ne hx.1.2.1 _ _)
  · rw [hhit x hx hx']
    exact update_self _ _ _

theorem pop_spec (h : Represents m c l) :
    (c.pop m).1 = l.head? ∧ Turns m l (c.pop m).2 l.tail taken := by
  unfold Chain.pop
  rw [h.chain.head_eq]
  cases l with
  | nil => exact ⟨rfl, h, fun _ _ => rfl, nofun⟩
  | cons x l =>
    have hd := @detach_spec _ _ taken [] _ _ h
    rw [getLast?_nil, detach_none] at hd
    exact ⟨rfl, hd⟩

theorem removeLoop_spec {hit : TaskId → Bool} {fuel : Nat} {cur : Option TaskId}
    (hl : Stacks.Chain m cur l2) :
    (c.removeLoop m hit fuel l1.getLast? cur = none ∧ fuel < l2.length) ∨
    (c.removeLoop m hit fuel l1.getLast? cur = some (none, m, c) ∧ ∀ x ∈ l2, ¬hit x) ∨
    ∃ a node b, l2 = a ++ node :: b ∧ (∀ x ∈ a, ¬hit x) ∧ hit node ∧
      c.removeLoop m hit fuel l1.getLast? cur =
        some (some node, c.detach m (l1 ++ a).getLast? node) := by
  induction l2 generalizing l1 cur fuel with
  | nil =>
    obtain rfl : cur = none := hl
    exact .inr (.inl ⟨by cases fuel <;> rfl, nofun⟩)
  | cons x l2 ih =>
    obtain ⟨rfl, hl⟩ := hl
    cases fuel with
    | zero => exact .inl ⟨rfl, Nat.succ_pos _⟩
    | succ fuel =>
    rw [Chain.removeLoop]
    by_cases hx : hit x
    · exact .inr (.inr ⟨[], x, l2, rfl, nofun, hx, by rw [if_pos hx, append_nil]⟩)
    have hih := @ih (l1 ++ [x]) fuel _ hl
    rw [getLast?_concat] at hih
    rw [if_neg hx]
    rcases hih with ⟨he, hf⟩ | ⟨he, hall⟩ | ⟨a, node, b, rfl, hall, hnode, he⟩
    · exact .inl ⟨he, Nat.succ_lt_succ hf⟩
    · exact .inr (.inl ⟨he, forall_mem_cons.2 ⟨hx, hall⟩⟩)
    · rw [append_assoc] at he
      exact .inr (.inr ⟨x :: a, node, b, rfl, forall_mem_cons.2 ⟨hx, hall⟩, hnode, he⟩)

/-! ## All chains -/

/-- The chains of a world as lists. -/
structure Holds (w : World) (lists : Nat → List TaskId) : Prop where
  chains : ∀ i, Represents w.next (w.chains i) (lists i)
  apart : ∀ i j, i ≠ j → ∀ x ∈ lists i, x ∉ lists j
  held : ∀ i, ∀ x ∈ lists i, x ∉ w.taken
  link : ∀ x, (∀ i, x ∉ lists i) → x ∉ w.taken → w.next x = none

variable {w : World} {lists : Nat → List TaskId} {i : Nat}

theorem Holds.outside (h : Holds w lists) : w.Outside task ↔ ∀ i, task ∉ lists i :=
  ⟨fun ho i => ho i _ (h.chains i).chain,
    fun ho i _ hl => (h.chains i).chain.unique hl ▸ ho i⟩

theorem Holds.turn (h : Holds w lists) {r : Memory × Chain} {l' : List TaskId}
    (ht : Turns w.next (lists i) r l' taken) (hnew : ∀ x ∈ l', x ∈ lists i ∨ ∀ j, x ∉ lists j)
    (hheld : ∀ x ∈ l', x ∉ taken) (hmore : ∀ x ∈ taken, x ∈ w.taken ∨ x ∈ lists i)
    (hkeep : ∀ x ∈ w.taken, x ∉ l' → x ∈ taken) :
    Holds { w.put i r with taken } (update lists i l') := by
  have haway : ∀ j, j ≠ i → ∀ x ∈ lists j, x ∉ l' := by
    intro j hj x hx hx'
    rcases hnew x hx' with hi | hno
    · exact h.apart j i hj x hx hi
    · exact hno j hx
  refine ⟨fun j => ?_, fun a b hab x hx hx' => ?_, fun j x hx hm => ?_, fun x hx hx' => ?_⟩
  · by_cases hj : j = i
    · subst hj
      simpa [World.put] using ht.represents
    obtain ⟨hc, hn, htail⟩ := h.chains j
    simp only [World.put, update_of_ne hj]
    exact ⟨(chain_congr fun x hx => ht.other x (h.apart j i hj x hx)).2 hc, hn, htail⟩
  · by_cases ha : a = i
    · subst ha
      rw [update_self] at hx
      rw [update_of_ne hab.symm] at hx'
      exact haway b hab.symm x hx' hx
    rw [update_of_ne ha] at hx
    by_cases hb : b = i
    · subst hb
      rw [update_self] at hx'
      exact haway a ha x hx hx'
    · rw [update_of_ne hb] at hx'
      exact h.apart a b hab x hx hx'
  · by_cases hj : j = i
    · subst hj
      rw [update_self] at hx
      exact hheld x hx hm
    rw [update_of_ne hj] at hx
    rcases hmore x hm with hm | hm
    · exact h.held j x hx hm
    · exact h.apart j i hj x hx hm
  · have hx0 : x ∉ l' := by simpa using hx i
    by_cases hi : x ∈ lists i
    · exact (ht.gone x hi hx0).resolve_right hx'
    refine (ht.other x hi).trans (h.link x (fun j => ?_) fun hm => hx' (hkeep x hm hx0))
    by_cases hj : j = i
    · exact hj ▸ hi
    · simpa [hj] using hx j

section

variable (h : Holds w lists)

include h

theorem holds_push (hout : w.Outside task) (hlink : w.next task = none) :
    Holds (w.push i task) (update lists i (lists i ++ [task])) := by
  have hno := h.outside.1 hout
  refine h.turn (push_spec (h.chains i) (hno i) hlink) (fun x hx => ?_) (fun x hx hm => ?_)
    (fun x hm => .inl (mem_filter.1 hm).1) fun x hm hx => ?_
  · rcases mem_append.1 hx with hx | hx
    · exact .inl hx
    · exact .inr (mem_singleton.1 hx ▸ hno)
  · obtain ⟨hm, hne⟩ := mem_filter.1 hm
    rcases mem_append.1 hx with hx | hx
    · exact h.held i x hx hm
    · exact of_decide_eq_true hne (mem_singleton.1 hx)
  · exact mem_filter.2 ⟨hm, decide_eq_true fun he => hx (by simp [he])⟩

theorem holds_put {r : Memory × Chain} {l' : List TaskId} (hsub : l' ⊆ lists i)
    (ht : Turns w.next (lists i) r l' w.taken) : Holds (w.put i r) (update lists i l') :=
  h.turn ht (fun _ hx => .inl (hsub hx)) (fun x hx => h.held i x (hsub hx)) (fun _ hm => .inl hm)
    fun _ hm _ => hm

theorem holds_pop :
    (w.pop i).1 = (lists i).head? ∧ Holds (w.pop i).2 (update lists i (lists i).tail) := by
  obtain ⟨hhead, ht⟩ := @pop_spec _ _ _ w.taken (h.chains i)
  exact ⟨hhead, holds_put h (tail_sublist _).subset ht⟩

theorem holds_removeIf {hit : TaskId → Bool} {fuel : Nat} :
    (w.removeIf i fuel hit = none ∧ fuel < (lists i).length) ∨
    ∃ w', w.removeIf i fuel hit = some ((lists i).find? hit, w') ∧
      Holds w' (update lists i ((lists i).eraseP hit)) := by
  have hrep := h.chains i
  have hput := @holds_put _ _ i h
  unfold World.removeIf
  generalize lists i = l at hrep hput ⊢
  rcases @removeLoop_spec _ (w.chains i) [] _ hit fuel _ hrep.chain with
    ⟨he, hf⟩ | ⟨he, hall⟩ | ⟨a, node, b, rfl, hall, hnode, he⟩
  all_goals
    rw [getLast?_nil] at he
    rw [he]
  · exact .inl ⟨rfl, hf⟩
  · rw [find?_eq_none.2 hall, eraseP_of_forall_not hall]
    exact .inr ⟨_, rfl, hput (Subset.refl _) ⟨hrep, fun _ _ => rfl, fun x hx hx' => absurd hx hx'⟩⟩
  · rw [find?_append, find?_eq_none.2 hall, find?_cons_of_pos hnode, eraseP_append_right _ hall,
      eraseP_cons_of_pos hnode]
    refine .inr ⟨_, rfl, hput (fun x hx => ?_) (detach_spec hrep)⟩
    simp only [mem_append, mem_cons] at hx ⊢
    tauto

theorem holds_take : Holds (w.take i (lists i)).2 (update lists i []) :=
  h.turn ⟨⟨rfl, nodup_nil, rfl⟩, fun _ _ => rfl, fun _ hx _ => .inr (mem_append_left _ hx)⟩ nofun
    nofun (fun _ hm => (mem_append.1 hm).symm) fun _ hm _ => mem_append_right _ hm

theorem holds_clear (hout : w.Outside task) : Holds (w.clear task) lists := by
  have hno := h.outside.1 hout
  refine ⟨fun i => ?_, h.apart, h.held, fun x hx hx' => ?_⟩
  · obtain ⟨hc, hn, ht⟩ := h.chains i
    exact ⟨chain_update hc (hno i) none, hn, ht⟩
  · by_cases he : x = task
    · rw [he]
      exact update_self _ _ _
    · exact (update_of_ne he _ _).trans (h.link x hx hx')

end

theorem holds_init : Holds {} fun _ => [] :=
  ⟨fun _ => ⟨rfl, nodup_nil, rfl⟩, nofun, nofun, fun _ _ _ => rfl⟩

theorem reached_holds (h : Reached w) : ∃ lists, Holds w lists := by
  induction h with
  | init => exact ⟨_, holds_init⟩
  | push _ i hout hlink ih =>
    obtain ⟨lists, h⟩ := ih
    exact ⟨_, holds_push h hout hlink⟩
  | pop _ i ih =>
    obtain ⟨lists, h⟩ := ih
    exact ⟨_, (holds_pop h).2⟩
  | take _ i hl ih =>
    obtain ⟨lists, h⟩ := ih
    obtain rfl := (h.chains i).chain.unique hl
    exact ⟨_, holds_take h⟩
  | removeIf _ hr ih =>
    obtain ⟨lists, h⟩ := ih
    rcases holds_removeIf h with ⟨he, -⟩ | ⟨w', he, h'⟩ <;> rw [hr] at he <;> cases he
    exact ⟨_, h'⟩
  | clear _ hout ih =>
    obtain ⟨lists, h⟩ := ih
    exact ⟨lists, holds_clear h hout⟩

/-- Every chain of a world reached is a list, and each step does to the lists what it should. -/
theorem chains_refine_lists (h : Reached w) :
    ∃ lists, Holds w lists ∧
      (∀ i task, w.Outside task → w.next task = none →
        Holds (w.push i task) (update lists i (lists i ++ [task]))) ∧
      (∀ i, (w.pop i).1 = (lists i).head? ∧ Holds (w.pop i).2 (update lists i (lists i).tail)) ∧
      (∀ i fuel hit, (lists i).length ≤ fuel → ∃ w',
        w.removeIf i fuel hit = some ((lists i).find? hit, w') ∧
        Holds w' (update lists i ((lists i).eraseP hit))) ∧
      ∀ i l, Stacks.Chain w.next (w.chains i).head l → l = lists i ∧
        (w.take i l).1 = l.head? ∧ Holds (w.take i l).2 (update lists i []) := by
  obtain ⟨lists, h⟩ := reached_holds h
  refine ⟨lists, h, fun i task => holds_push h, fun i => holds_pop h, fun i fuel hit hf => ?_,
    fun i l hl => ?_⟩
  · exact (holds_removeIf h).resolve_left fun hr => Nat.not_lt.2 hf hr.2
  · obtain rfl := (h.chains i).chain.unique hl
    exact ⟨rfl, hl.head_eq, holds_take h⟩

/-- Tasks 1, 2 and 3 in one chain and 4 in another. -/
private def queued : World := ({} : World).push 0 1 |>.push 0 2 |>.push 1 4 |>.push 0 3

private theorem queued_holds : Reached queued ∧ ∃ lists, Holds queued lists ∧
    lists 0 = [1, 2, 3] ∧ lists 1 = [4] := by
  have hpush : ∀ {w lists} (i task), Reached w ∧ Holds w lists → (∀ i, task ∉ lists i) →
      w.next task = none → Reached (w.push i task) ∧
        Holds (w.push i task) (update lists i (lists i ++ [task])) := fun i _ h hno hlink =>
    have hout := h.2.outside.2 hno
    ⟨h.1.push i hout hlink, holds_push h.2 hout hlink⟩
  have h := hpush 0 3 (hpush 1 4 (hpush 0 2 (hpush 0 1 ⟨.init, holds_init⟩ (by simp) rfl)
    ?_ rfl) ?_ rfl) ?_ rfl
  · exact ⟨h.1, _, h.2, by simp, by simp⟩
  all_goals
    intro i
    simp only [update_apply]
    repeat' split
    all_goals simp

/-- The second task is taken out of its chain: the tasks around it stay, and the other chain. -/
theorem chains_refine_lists_removed : ∃ w' lists,
    queued.removeIf 0 3 (· = 2) = some (some 2, w') ∧ Holds w' lists ∧ lists 0 = [1, 3] ∧
      lists 1 = [4] := by
  obtain ⟨hr, known, hk, h0, h1⟩ := queued_holds
  obtain ⟨lists, h, -, -, hremove, -⟩ := chains_refine_lists hr
  obtain rfl : lists = known := funext fun i => (h.chains i).chain.unique (hk.chains i).chain
  obtain ⟨w', hw, h'⟩ := hremove 0 3 (· = 2) (by simp [h0])
  refine ⟨w', _, by rw [hw, h0]; rfl, h', ?_, ?_⟩
  · rw [update_self, h0]
    rfl
  · rw [update_of_ne (by decide), h1]

end Sqware.Room
