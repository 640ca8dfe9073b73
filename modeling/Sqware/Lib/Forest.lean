import Mathlib.Data.Set.Basic

/-!
# Forests given by a child relation

Children rank above their parents, so no node is its own descendant, and a set that holds a root,
holds the children of its nodes and, the root aside, only children of its nodes is the set of what
the root reaches.  Where the nodes below a root have one child each, they form a chain.
-/

namespace Forest

open Relation

variable {α : Type*} {child : α → α → Prop} (rank : α → Nat)

theorem rank_lt_of_transGen (h : ∀ x y, child x y → rank x < rank y) {x y : α}
    (hxy : TransGen child x y) : rank x < rank y := by
  induction hxy with
  | single hc => exact h _ _ hc
  | tail _ hc ih => exact ih.trans (h _ _ hc)

theorem acyclic (h : ∀ x y, child x y → rank x < rank y) (x : α) : ¬ TransGen child x x :=
  fun hx => (rank_lt_of_transGen rank h hx).ne rfl

theorem mem_iff_reach (h : ∀ x y, child x y → rank x < rank y) {root : α} {s : Set α}
    (hroot : root ∈ s) (hchild : ∀ x ∈ s, ∀ y, child x y → y ∈ s)
    (hparent : ∀ y ∈ s, y ≠ root → ∃ x ∈ s, child x y) (y : α) :
    y ∈ s ↔ ReflTransGen child root y := by
  constructor
  · intro hy
    -- the parents lie in the set too and rank lower, so going up ends at the root
    induction hn : rank y using Nat.strong_induction_on generalizing y with
    | _ n ih =>
      by_cases he : y = root
      · rw [he]
      · obtain ⟨x, hx, hxy⟩ := hparent y hy he
        exact (ih (rank x) (hn ▸ h x y hxy) x hx rfl).tail hxy
  intro hy
  induction hy with
  | refl => exact hroot
  | tail _ hc ih => exact hchild _ ih _ hc

/-- Where every node below the root has at most one child, of two such nodes one is below the
other. -/
theorem chain {root x y : α}
    (huniq : ∀ a b c, ReflTransGen child root a → child a b → child a c → b = c)
    (hx : ReflTransGen child root x) (hy : ReflTransGen child root y) :
    ReflTransGen child x y ∨ ReflTransGen child y x := by
  induction hx with
  | refl => exact .inl hy
  | @tail b c hb hbc ih =>
    rcases ih with hby | hyb
    · rcases ReflTransGen.cases_head hby with rfl | ⟨d, hbd, hdy⟩
      · exact .inr (.single hbc)
      · exact .inl (huniq b c d hb hbc hbd ▸ hdy)
    · exact .inr (hyb.tail hbc)

end Forest
