import Mathlib.Algebra.Order.Group.Nat
import Mathlib.Tactic.Common

/-!
# Digits and blocks

The numbers in base `b`: `digit b k p` is the digit of `p` at place `k`, and the numbers that agree
with `p` in all digits from place `t` on are the block `p / b ^ t`.  A tree with `b` children a node
is walked by digits; `Agree` is how far two walks go together.
-/

namespace Radix

variable {b : Nat}

def digit (b k p : Nat) : Nat := p / b ^ k % b

theorem digit_lt (hb : 0 < b) (k p : Nat) : digit b k p < b := Nat.mod_lt _ hb

/-- The digits of `p` and `q` at the places from `t` to `l` are the same. -/
def Agree (b l t p q : Nat) : Prop := ∀ k, t ≤ k → k ≤ l → digit b k p = digit b k q

theorem Agree.symm {l t p q : Nat} (h : Agree b l t p q) : Agree b l t q p :=
  fun k hk hl => (h k hk hl).symm

theorem Agree.mono {l t t' p q : Nat} (h : Agree b l t p q) (ht : t ≤ t') : Agree b l t' p q :=
  fun k hk hl => h k (ht.trans hk) hl

theorem agree_succ {l t p q : Nat} (ht : t ≤ l + 1) :
    Agree b (l + 1) t p q ↔ digit b (l + 1) p = digit b (l + 1) q ∧ Agree b l t p q := by
  constructor
  · exact fun h => ⟨h _ ht le_rfl, fun k hk hl => h k hk (hl.trans (Nat.le_succ l))⟩
  rintro ⟨hd, h⟩ k hk hl
  rcases Nat.lt_or_eq_of_le hl with hl | rfl
  · exact h k hk (Nat.lt_succ_iff.1 hl)
  · exact hd

theorem agree_self {l p q : Nat} : Agree b l l p q ↔ digit b l p = digit b l q := by
  constructor
  · exact fun h => h l le_rfl le_rfl
  · intro h k hk hl
    obtain rfl := Nat.le_antisymm hl hk
    exact h

theorem div_pow_succ (k p : Nat) : p / b ^ (k + 1) = p / b ^ k / b := by
  rw [pow_succ, Nat.div_div_eq_div_mul]

theorem div_pow_eq (k p : Nat) : p / b ^ k = b * (p / b ^ (k + 1)) + digit b k p := by
  rw [div_pow_succ, digit, Nat.div_add_mod]

/-- Below `b ^ (l + 1)` a block is what agrees up to place `l`. -/
theorem agree_iff {l t p q : Nat} (hp : p < b ^ (l + 1)) (hq : q < b ^ (l + 1)) (ht : t ≤ l) :
    Agree b l t p q ↔ p / b ^ t = q / b ^ t := by
  constructor
  · intro h
    induction ht using Nat.decreasingInduction with
    | self =>
      rw [div_pow_eq, div_pow_eq l q, Nat.div_eq_of_lt hp, Nat.div_eq_of_lt hq, h l le_rfl le_rfl]
    | of_succ k hk ih =>
      rw [div_pow_eq, div_pow_eq k q, ih (h.mono (Nat.le_succ k)), h k le_rfl hk.le]
  · intro h k hk _
    obtain ⟨d, rfl⟩ := Nat.exists_eq_add_of_le hk
    rw [digit, digit, pow_add, ← Nat.div_div_eq_div_mul, h, Nat.div_div_eq_div_mul]

theorem agree_of_div {l t p q : Nat} (h : p / b ^ t = q / b ^ t) : Agree b l t p q := by
  intro k hk _
  obtain ⟨d, rfl⟩ := Nat.exists_eq_add_of_le hk
  rw [digit, digit, pow_add, ← Nat.div_div_eq_div_mul, h, Nat.div_div_eq_div_mul]

theorem same_block_iff {t p q : Nat} (hb : 0 < b) (hp : b ^ t ∣ p) :
    q / b ^ t = p / b ^ t ↔ p ≤ q ∧ q < p + b ^ t := by
  obtain ⟨c, rfl⟩ := hp
  have hpos : 0 < b ^ t := Nat.pow_pos hb
  rw [Nat.mul_div_cancel_left c hpos, Nat.div_eq_iff hpos, Nat.mul_comm c]
  omega

end Radix
