import Mathlib.Data.List.Nodup

/-!
# Doubly linked lists in memory

Nodes are naturals and the memory gives every node a `prev` and a `next`.  `Linked m p h l` says
that from the head `h` the list runs through exactly the nodes `l`, in this order, with `p`
before the first of them.
-/

namespace Links

open List Function

/-- What a node says of its neighbours. -/
structure Link where
  prev : Option Nat
  next : Option Nat
  deriving DecidableEq, Repr

abbrev Memory := Nat → Link

/-- The nodes `l` from the head to the end of the list, after the node before the head. -/
def Linked (m : Memory) : Option Nat → Option Nat → List Nat → Prop
  | _, h, [] => h = none
  | p, h, x :: l => h = some x ∧ (m x).prev = p ∧ Linked m (some x) (m x).next l

/-- The nodes `l` in a row, with `q` after the last of them. -/
def Part (m : Memory) : Option Nat → Option Nat → List Nat → Option Nat → Prop
  | _, h, [], q => h = q
  | p, h, x :: l, q => h = some x ∧ (m x).prev = p ∧ Part m (some x) (m x).next l q

def setPrev (m : Memory) (node prev : Option Nat) : Memory :=
  match node with
  | some x => update m x { m x with prev }
  | none => m

def setNext (m : Memory) (node next : Option Nat) : Memory :=
  match node with
  | some x => update m x { m x with next }
  | none => m

/-- Writes `x` in front of the head `h`. -/
def push (m : Memory) (x : Nat) (h : Option Nat) : Memory :=
  setPrev (update m x ⟨none, h⟩) h (some x)

/-- Writes `x` in between `prev` and `next`. -/
def between (m : Memory) (x : Nat) (prev next : Option Nat) : Memory :=
  setPrev (setNext (update m x ⟨prev, next⟩) prev (some x)) next (some x)

/-- Takes `x` out from between its neighbours. -/
def unlink (m : Memory) (x : Nat) : Memory :=
  setPrev (setNext m (m x).prev (m x).next) (m x).next (m x).prev

/-- Follows `next` until the target or the end; `none` when the fuel does not reach. -/
def walk (m : Memory) (target : Nat) : Nat → Option Nat → Option Bool
  | _, none => some false
  | 0, some _ => none
  | fuel + 1, some x => if x = target then some true else walk m target fuel (m x).next

/-! ## Lemmas -/

variable {m : Memory} {y : Nat}

theorem setPrev_of_ne {node prev : Option Nat} (h : node ≠ some y) :
    setPrev m node prev y = m y := by
  cases node with
  | none => rfl
  | some x => exact update_of_ne (fun he => h (by rw [he])) _ _

theorem setNext_of_ne {node next : Option Nat} (h : node ≠ some y) :
    setNext m node next y = m y := by
  cases node with
  | none => rfl
  | some x => exact update_of_ne (fun he => h (by rw [he])) _ _

@[simp] theorem setPrev_self (m : Memory) (x : Nat) (prev : Option Nat) :
    setPrev m (some x) prev x = ⟨prev, (m x).next⟩ := by
  simp [setPrev]

@[simp] theorem setNext_self (m : Memory) (x : Nat) (next : Option Nat) :
    setNext m (some x) next x = ⟨(m x).prev, next⟩ := by
  simp [setNext]

@[simp] theorem setPrev_next (m : Memory) (node prev : Option Nat) (y : Nat) :
    (setPrev m node prev y).next = (m y).next := by
  by_cases h : node = some y
  · rw [h, setPrev_self]
  · rw [setPrev_of_ne h]

@[simp] theorem setNext_prev (m : Memory) (node next : Option Nat) (y : Nat) :
    (setNext m node next y).prev = (m y).prev := by
  by_cases h : node = some y
  · rw [h, setNext_self]
  · rw [setNext_of_ne h]

variable {l : List Nat} {h p : Option Nat}

theorem linked_congr {m' : Memory} (hm : ∀ x ∈ l, m' x = m x) :
    Linked m' p h l ↔ Linked m p h l := by
  induction l generalizing p h with
  | nil => rfl
  | cons x l ih =>
    simp only [Linked]
    rw [hm x mem_cons_self, ih fun y hy => hm y (mem_cons_of_mem _ hy)]

theorem linked_setPrev {p' : Option Nat} (hl : Linked m p h l) (hn : l.Nodup) :
    Linked (setPrev m h p') p' h l := by
  cases l with
  | nil => exact hl
  | cons x l =>
    obtain ⟨rfl, _, hl⟩ := hl
    refine ⟨rfl, by simp, ?_⟩
    rw [setPrev_next]
    refine (linked_congr fun y hy => setPrev_of_ne ?_).2 hl
    rintro ⟨⟩
    exact (nodup_cons.1 hn).1 hy

variable {x : Nat}

/-- Writing a new head. -/
theorem linked_push (hl : Linked m none h l) (hn : l.Nodup) (hx : x ∉ l) :
    Linked (push m x h) none (some x) (x :: l) := by
  have hup : Linked (update m x ⟨none, h⟩) none h l :=
    (linked_congr fun y hy => update_of_ne (ne_of_mem_of_not_mem hy hx) _ _).2 hl
  have hne : h ≠ some x := by
    rintro rfl
    cases l with
    | nil => exact absurd hl (by simp [Linked])
    | cons y l =>
      obtain ⟨he, _⟩ := hl
      exact hx (by rw [Option.some.inj he]; exact mem_cons_self)
  have hval : push m x h x = ⟨none, h⟩ := by
    rw [push, setPrev_of_ne hne, update_self]
  refine ⟨rfl, by rw [hval], ?_⟩
  rw [hval]
  exact linked_setPrev hup hn

theorem Linked.head_eq (hl : Linked m p h l) : h = l.head? := by
  cases l with
  | nil => exact hl
  | cons x l => exact hl.1

variable {l1 l2 : List Nat}

theorem Linked.next_eq (hl : Linked m p h (l1 ++ x :: l2)) : (m x).next = l2.head? := by
  induction l1 generalizing p h with
  | nil => exact hl.2.2.head_eq
  | cons z l1 ih => exact ih hl.2.2

theorem getLast?_cons_or : (x :: l).getLast?.or p = l.getLast?.or (some x) := by
  rw [List.getLast?_cons, Option.or_some]
  rfl

theorem Linked.prev_eq (hl : Linked m p h (l1 ++ x :: l2)) : (m x).prev = l1.getLast?.or p := by
  induction l1 generalizing p h with
  | nil => exact hl.2.1
  | cons z l1 ih => rw [ih hl.2.2, getLast?_cons_or]

variable {q : Option Nat}

theorem part_congr {m' : Memory} (hm : ∀ x ∈ l, m' x = m x) : Part m' p h l q ↔ Part m p h l q := by
  induction l generalizing p h with
  | nil => rfl
  | cons x l ih =>
    simp only [Part]
    rw [hm x mem_cons_self, ih fun y hy => hm y (mem_cons_of_mem _ hy)]

theorem linked_append :
    Linked m p h (l1 ++ l2) ↔ ∃ q, Part m p h l1 q ∧ Linked m (l1.getLast?.or p) q l2 := by
  induction l1 generalizing p h with
  | nil => simp [Part]
  | cons x l1 ih =>
    simp only [cons_append, Linked, Part, ih, getLast?_cons_or]
    constructor
    · rintro ⟨h1, h2, q, h3, h4⟩
      exact ⟨q, ⟨h1, h2, h3⟩, h4⟩
    · rintro ⟨q, ⟨h1, h2, h3⟩, h4⟩
      exact ⟨h1, h2, q, h3, h4⟩

theorem part_setNext (hp : Part m p h l q) (hn : l.Nodup) (q' : Option Nat) :
    Part (setNext m l.getLast? q') p (if l = [] then q' else h) l q' := by
  induction l generalizing p h with
  | nil => simp [Part]
  | cons x l ih =>
    obtain ⟨rfl, hx, hp⟩ := hp
    obtain ⟨hxl, hn⟩ := nodup_cons.1 hn
    rcases eq_nil_or_concat l with rfl | ⟨l', w, rfl⟩
    · exact ⟨rfl, by simpa using hx, by simp [Part]⟩
    rw [concat_eq_append] at *
    have hw : (x :: (l' ++ [w])).getLast? = (l' ++ [w]).getLast? := by
      rw [← cons_append, List.getLast?_concat, List.getLast?_concat]
    have hne : (l' ++ [w]).getLast? ≠ some x := by
      rw [List.getLast?_concat]
      rintro ⟨⟩
      exact hxl (by simp)
    refine ⟨by simp, by rw [hw, setNext_prev, hx], ?_⟩
    have := ih hp hn
    rw [if_neg (by simp)] at this
    rw [hw, setNext_of_ne hne]
    exact this

/-- Writing a node in between. -/
theorem linked_between {n : Option Nat} (hp : Part m none h l1 q) (hl : Linked m p n l2)
    (hn : (l1 ++ y :: l2).Nodup) :
    Linked (between m y l1.getLast? n) none (if l1 = [] then some y else h) (l1 ++ y :: l2) := by
  obtain ⟨hn1, hn2, hdis⟩ := nodup_append.1 hn
  obtain ⟨hy2, hn2⟩ := nodup_cons.1 hn2
  have hy1 : y ∉ l1 := fun h => hdis y h y mem_cons_self rfl
  have hnext : ∀ x, n = some x → x ∈ l2 := fun x hx => mem_of_head? (hl.head_eq ▸ hx)
  have hlast : ∀ x, l1.getLast? = some x → x ∈ l1 := fun x hx => mem_of_getLast? hx
  have hval : between m y l1.getLast? n y = ⟨l1.getLast?, n⟩ := by
    rw [between, setPrev_of_ne fun h => hy2 (hnext y h), setNext_of_ne fun h => hy1 (hlast y h),
      update_self]
  refine linked_append.2 ⟨some y, ?_, rfl, ?_, ?_⟩
  · refine (part_congr fun x hx => setPrev_of_ne fun h => ?_).2
      (part_setNext ((part_congr fun x hx => ?_).2 hp) hn1 (some y))
    · exact hdis x hx x (mem_cons_of_mem _ (hnext x h)) rfl
    · exact update_of_ne (ne_of_mem_of_not_mem hx hy1) _ _
  · rw [hval, Option.or_none]
  rw [hval]
  refine linked_setPrev ((linked_congr fun x hx => ?_).2 hl) hn2
  rw [setNext_of_ne fun h => hdis x (hlast x h) x (mem_cons_of_mem _ hx) rfl,
    update_of_ne (ne_of_mem_of_not_mem hx hy2)]

/-- Taking out a node, by the two writes to its neighbours. -/
theorem linked_unlink (hl : Linked m none h (l1 ++ x :: l2)) (hn : (l1 ++ x :: l2).Nodup) :
    Linked (unlink m x) none (if l1 = [] then (m x).next else h) (l1 ++ l2) := by
  obtain ⟨hn1, hn2, hdis⟩ := nodup_append.1 hn
  obtain ⟨hx2, hn2⟩ := nodup_cons.1 hn2
  have hprev := hl.prev_eq
  have hnext := hl.next_eq
  rw [Option.or_none] at hprev
  obtain ⟨q, hp, rfl, _, hl2⟩ := linked_append.1 hl
  have hlast : ∀ y, (m x).prev = some y → y ∈ l1 := fun y hy =>
    mem_of_getLast? (hprev ▸ hy)
  have hhead : ∀ y, (m x).next = some y → y ∈ l2 := fun y hy => mem_of_head? (hnext ▸ hy)
  refine linked_append.2 ⟨(m x).next, ?_, ?_⟩
  · refine (part_congr fun y hy => setPrev_of_ne fun h => ?_).2
      (hprev ▸ part_setNext hp hn1 (m x).next)
    exact hdis y hy y (mem_cons_of_mem _ (hhead y h)) rfl
  · rw [Option.or_none, ← hprev]
    refine linked_setPrev ((linked_congr fun y hy => setNext_of_ne fun h => ?_).2 hl2) hn2
    exact hdis y (hlast y h) y (mem_cons_of_mem _ hy) rfl

/-- Following `next` finds exactly the nodes of the list. -/
theorem walk_eq (hl : Linked m p h l) (target : Nat) {fuel : Nat} (hf : l.length ≤ fuel) :
    walk m target fuel h = some (decide (target ∈ l)) := by
  induction l generalizing p h fuel with
  | nil =>
    obtain rfl : h = none := hl
    simp [walk]
  | cons x l ih =>
    obtain ⟨rfl, _, hl⟩ := hl
    cases fuel with
    | zero => simp at hf
    | succ fuel =>
      rw [walk]
      split
      · next he => simp [he]
      · next hne =>
        rw [ih hl (by simpa using hf)]
        simp [Ne.symm hne]

end Links
