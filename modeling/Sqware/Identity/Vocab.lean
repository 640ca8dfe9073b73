import Mathlib.Data.List.Chain
import Mathlib.Data.List.Sort

/-!
# The vocabulary of identities

Principals and coalitions are named by the authority that keeps them and a slot.  A coalition set
is a short list in canonical form: sorted, without repetition, of one authority that is not zero;
its constructor checks that, and its operations keep it.
-/

namespace Sqware.Identity

open List

abbrev TaskId : Type := Nat
abbrev PieToken : Type := Nat

inductive Fail
  | bad | unknownPrincipal | unknownCoalition | wrongAuthority | denied | notManager | notNarrower
  | notEligible | full | changed
  deriving DecidableEq, Repr

structure PrincipalId where
  authority : Nat
  slot : Nat
  deriving DecidableEq, Repr

structure CoalitionId where
  authority : Nat
  slot : Nat
  deriving DecidableEq, Repr

namespace CoalitionId

/-- The derived order: the authority first. -/
def le (a b : CoalitionId) : Prop :=
  a.authority < b.authority ∨ a.authority = b.authority ∧ a.slot ≤ b.slot

def lt (a b : CoalitionId) : Prop := le a b ∧ a ≠ b

instance : DecidableRel le := fun a b =>
  inferInstanceAs (Decidable (a.authority < b.authority ∨ a.authority = b.authority ∧ _))

instance : DecidableRel lt := fun a b => inferInstanceAs (Decidable (le a b ∧ a ≠ b))

instance : Std.Total le := ⟨fun a b => by unfold le; omega⟩

instance : IsTrans CoalitionId le := ⟨fun a b c => by unfold le; omega⟩

theorem le_antisymm {a b : CoalitionId} (h : le a b) (h' : le b a) : a = b := by
  cases a
  cases b
  simp only [le, mk.injEq] at *
  omega

instance : IsTrans CoalitionId lt := ⟨by
  rintro a b c ⟨hab, hne⟩ ⟨hbc, -⟩
  refine ⟨IsTrans.trans _ _ _ hab hbc, ?_⟩
  rintro rfl
  exact hne (le_antisymm hab hbc)⟩

end CoalitionId

/-! ## Coalition sets -/

def MAX_ACTIVE_COALITIONS : Nat := 16

structure Canonical (items : List CoalitionId) : Prop where
  sorted : items.Pairwise CoalitionId.lt
  small : items.length ≤ MAX_ACTIVE_COALITIONS
  owned : ∀ c ∈ items, c.authority ≠ 0
  alike : ∀ c ∈ items, ∀ d ∈ items, c.authority = d.authority

variable {l : List CoalitionId}

theorem Canonical.sublist {l' : List CoalitionId} (h : Canonical l) (hs : l'.Sublist l) :
    Canonical l' where
  sorted := h.sorted.sublist hs
  small := hs.length_le.trans h.small
  owned c hc := h.owned c (hs.subset hc)
  alike c hc d hd := h.alike c (hs.subset hc) d (hs.subset hd)

structure CoalitionSet where
  items : List CoalitionId
  canonical : Canonical items
  deriving DecidableEq

/-- The checks of `CoalitionSet::new` on the values one after the other. -/
def checkValues (first : Nat) : List CoalitionId → Except Fail Unit
  | [] => .ok ()
  | c :: l =>
    if c.authority = 0 then .error .bad
    else if first ≠ c.authority then .error .wrongAuthority
    else checkValues first l

theorem checkValues_ok {first : Nat} (h : checkValues first l = .ok ()) :
    ∀ c ∈ l, c.authority = first ∧ c.authority ≠ 0 := by
  induction l with
  | nil => simp
  | cons c l ih =>
    unfold checkValues at h
    split at h
    · cases h
    next hz =>
    split at h
    · cases h
    next hf =>
    rw [not_not] at hf
    intro d hd
    rcases mem_cons.1 hd with rfl | hd
    · exact ⟨hf.symm, hz⟩
    · exact ih h d hd

theorem isChain_lt (h : l.IsChain CoalitionId.le) (hn : l.IsChain (· ≠ ·)) :
    l.IsChain CoalitionId.lt := by
  induction h with
  | nil => exact .nil
  | singleton c => exact .singleton c
  | cons_cons hle _ ih =>
    rw [isChain_cons_cons] at hn
    exact .cons_cons ⟨hle, hn.1⟩ (ih hn.2)

/-- Sorted values of which no two neighbours are equal are canonical. -/
theorem canonical_sorted {first : Nat} (hlen : l.length ≤ MAX_ACTIVE_COALITIONS)
    (hv : checkValues first l = .ok ()) (hn : (l.insertionSort CoalitionId.le).IsChain (· ≠ ·)) :
    Canonical (l.insertionSort CoalitionId.le) where
  sorted := by
    have hs := (pairwise_insertionSort CoalitionId.le l).isChain
    exact isChain_iff_pairwise.1 (isChain_lt hs hn)
  small := by rwa [length_insertionSort]
  owned c hc := (checkValues_ok hv c ((mem_insertionSort _).1 hc)).2
  alike c hc d hd := by
    rw [(checkValues_ok hv c ((mem_insertionSort _).1 hc)).1,
      (checkValues_ok hv d ((mem_insertionSort _).1 hd)).1]

namespace CoalitionSet

def empty : CoalitionSet := ⟨[], .nil, Nat.zero_le _, by simp, by simp⟩

def new (values : List CoalitionId) : Except Fail CoalitionSet :=
  if hlen : MAX_ACTIVE_COALITIONS < values.length then .error .full
  else
    match hv : checkValues (values.head?.elim 0 (·.authority)) values with
    | .error f => .error f
    | .ok () =>
      if hn : (values.insertionSort CoalitionId.le).IsChain (· ≠ ·) then
        .ok ⟨values.insertionSort CoalitionId.le, canonical_sorted (Nat.le_of_not_lt hlen) hv hn⟩
      else .error .bad

-- a binary search, on a sorted list
def contains (set : CoalitionSet) (c : CoalitionId) : Bool := set.items.contains c

def remove (set : CoalitionSet) (c : CoalitionId) : CoalitionSet :=
  ⟨set.items.filter (· ≠ c), set.canonical.sublist filter_sublist⟩

instance : Membership CoalitionId CoalitionSet := ⟨fun set c => c ∈ set.items⟩

instance : HasSubset CoalitionSet := ⟨fun s t => ∀ c, c ∈ s → c ∈ t⟩

variable {c : CoalitionId} {set : CoalitionSet}

theorem mem_def : c ∈ set ↔ c ∈ set.items := Iff.rfl

theorem contains_iff : set.contains c = true ↔ c ∈ set :=
  contains_iff_mem

theorem mem_remove {d : CoalitionId} : d ∈ set.remove c ↔ d ∈ set ∧ d ≠ c := by
  simp [mem_def, remove]

theorem not_mem_empty (c : CoalitionId) : c ∉ empty := not_mem_nil

theorem mem_new {values : List CoalitionId} (h : new values = .ok set) : c ∈ set ↔ c ∈ values := by
  unfold new at h
  split at h
  · cases h
  split at h
  · cases h
  split at h
  · cases h
    exact mem_insertionSort _
  · cases h

theorem new_nil : new [] = .ok empty := rfl

end CoalitionSet

/-! ## Subjects and bindings -/

structure Subject where
  principal : PrincipalId
  coalitions : CoalitionSet
  deriving DecidableEq

def Subject.validate (s : Subject) : Except Fail Unit :=
  if s.principal.authority = 0 then .error .bad
  else if s.coalitions.items.any fun c => c.authority ≠ s.principal.authority then
    .error .wrongAuthority
  else .ok ()

def Subject.new (principal : PrincipalId) (coalitions : List CoalitionId) :
    Except Fail Subject := do
  let set ← CoalitionSet.new coalitions
  let subject : Subject := ⟨principal, set⟩
  subject.validate
  return subject

/-- Of two steps that succeed, the first does. -/
theorem ok_of_bind {α β : Type} {x : Except Fail α} {f : α → Except Fail β} {b : β}
    (h : x >>= f = .ok b) : ∃ a, x = .ok a ∧ f a = .ok b := by
  cases x with
  | error e => cases h
  | ok a => exact ⟨a, rfl, h⟩

theorem Subject.new_ok {p : PrincipalId} {s : Subject} (h : Subject.new p l = .ok s) :
    s.principal = p ∧ ∀ c, c ∈ s.coalitions ↔ c ∈ l := by
  unfold Subject.new at h
  obtain ⟨set, hset, h⟩ := ok_of_bind h
  obtain ⟨_, _, h⟩ := ok_of_bind h
  cases h
  exact ⟨rfl, fun c => CoalitionSet.mem_new hset⟩

structure Binding where
  origin : Subject
  current : Subject
  deriving DecidableEq

inductive Selector
  | exact (p : PrincipalId)
  | descendantOf (p : PrincipalId)
  | memberOf (c : CoalitionId)
  deriving DecidableEq, Repr

inductive Install
  | authorized (subject : Subject)
  | inherit (parent : TaskId)
  | restrict (parent : TaskId) (subject : Subject)
  | derive (parent : PrincipalId)
  deriving DecidableEq

structure InstallSpec where
  task : TaskId
  install : Install
  deriving DecidableEq

inductive InstallState
  | unseen | pending | installed | retiring | retired | cancelled | failed | closed
  deriving DecidableEq, Repr

structure InstallStatus where
  state : InstallState
  binding : Option Binding
  failure : Option Fail
  deriving DecidableEq

end Sqware.Identity
