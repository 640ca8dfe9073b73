import Mathlib.Algebra.Group.Nat.Defs
import Mathlib.Tactic.Common

/-!
# Machine words

`usize` values are naturals below `usizeSize`; the operations the kernel uses on them are the
checked ones, which answer `none` where the machine result would not fit.  `nextId` is the
guarded counter of `machine::sync`: it hands out `1, 2, …` and stops before it could wrap.
-/

namespace Sqware

def usizeSize : Nat := 2 ^ 64

def isizeMax : Nat := 2 ^ 63 - 1

def pageSize : Nat := 4096

theorem pageSize_pos : 0 < pageSize := by decide

theorem pageSize_pow : pageSize.isPowerOfTwo := ⟨12, rfl⟩

def checkedAdd (a b : Nat) : Option Nat := if a + b < usizeSize then some (a + b) else none

def checkedSub (a b : Nat) : Option Nat := if b ≤ a then some (a - b) else none

/-- `usize::checked_next_multiple_of`. -/
def checkedNextMultipleOf (a m : Nat) : Option Nat :=
  if m = 0 then none
  else if a % m = 0 then some a
  else checkedAdd a (m - a % m)

def saturatingAdd (a b : Nat) : Nat := min (a + b) (usizeSize - 1)

-- on words, and without `%`, so that reducing a term never counts up to the modulus
def wrappingAdd (a b : Nat) : Nat := if a + b < usizeSize then a + b else a + b - usizeSize

def wrappingSub (a b : Nat) : Nat := if b ≤ a then a - b else a + usizeSize - b

/-- `machine::sync::next_id`: the value handed out and the counter after it. -/
def nextId (next : Nat) : Option (Nat × Nat) :=
  if next ≠ 0 ∧ next ≤ isizeMax then some (next, next + 1) else none

/-- What an allocation asks for. -/
structure Layout where
  size : Nat
  align : Nat

structure AllocError where
  deriving DecidableEq, Repr

theorem checkedAdd_eq_some {a b c : Nat} :
    checkedAdd a b = some c ↔ c = a + b ∧ a + b < usizeSize := by
  unfold checkedAdd
  split <;> simp_all [eq_comm]

theorem checkedSub_eq_some {a b c : Nat} : checkedSub a b = some c ↔ b ≤ a ∧ c = a - b := by
  unfold checkedSub
  split
  · next h => simp [h, eq_comm]
  · next h => simp [h]

theorem wrappingAdd_eq {a b : Nat} (h : a + b < usizeSize) : wrappingAdd a b = a + b := if_pos h

theorem wrappingSub_eq {a b : Nat} (h : b ≤ a) : wrappingSub a b = a - b := if_pos h

theorem nextId_eq_some {n i n' : Nat} :
    nextId n = some (i, n') ↔ i = n ∧ n' = n + 1 ∧ n ≠ 0 ∧ n ≤ isizeMax := by
  unfold nextId
  split
  · next h => simp [h, eq_comm]
  next h =>
  simp only [reduceCtorEq, false_iff]
  rintro ⟨-, -, hn⟩
  exact h hn

end Sqware
