import Mathlib.Data.List.Basic

/-!
# Segments joined by a separator

Words that hold no separator, joined by single ones.  As long as no word is empty the joined text
says which words they were, and one text continues another after a separator exactly when its words
continue the other's.
-/

namespace Segments

open List

variable {α : Type*} {sep : α}

/-- No word is empty or holds the separator. -/
def Proper (sep : α) (l : List (List α)) : Prop := ∀ w ∈ l, w ≠ [] ∧ sep ∉ w

def join (sep : α) : List (List α) → List α
  | [] => []
  | [w] => w
  | w :: v :: l => w ++ sep :: join sep (v :: l)

variable {l : List (List α)}

theorem join_cons_of_ne_nil (w : List α) (h : l ≠ []) :
    join sep (w :: l) = w ++ sep :: join sep l := by
  cases l with
  | nil => exact absurd rfl h
  | cons v l => rfl

variable {l' : List (List α)}

theorem join_append (h : l ≠ []) (h' : l' ≠ []) :
    join sep (l ++ l') = join sep l ++ sep :: join sep l' := by
  induction l with
  | nil => exact absurd rfl h
  | cons w l ih =>
    cases l with
    | nil => exact join_cons_of_ne_nil w h'
    | cons v l =>
      rw [cons_append, join_cons_of_ne_nil w (by simp), ih (by simp),
        join_cons_of_ne_nil w (by simp), append_assoc, cons_append]

theorem join_concat (h : l ≠ []) (w : List α) : join sep (l ++ [w]) = join sep l ++ sep :: w :=
  join_append h (cons_ne_nil w [])

theorem Proper.left (h : Proper sep (l ++ l')) : Proper sep l :=
  fun w hw => h w (mem_append_left l' hw)

theorem Proper.right (h : Proper sep (l ++ l')) : Proper sep l' :=
  fun w hw => h w (mem_append_right l hw)

theorem Proper.append (h : Proper sep l) (h' : Proper sep l') :
    Proper sep (l ++ l') := fun w hw => (mem_append.1 hw).elim (h w) (h' w)

theorem join_eq_nil (h : Proper sep l) : join sep l = [] ↔ l = [] := by
  refine ⟨fun he => ?_, fun he => he ▸ rfl⟩
  match l, h with
  | [], _ => rfl
  | [w], h => exact absurd he (h w mem_cons_self).1
  | w :: v :: l, h => simp [join] at he

theorem not_mem_of_mem_splitOn [DecidableEq α] {s w : List α} (h : w ∈ s.splitOn sep) :
    sep ∉ w := by
  induction s generalizing w with
  | nil =>
    rw [splitOn_nil, mem_singleton] at h
    simp [h]
  | cons a s ih =>
    rw [splitOn_cons_eq_if_modifyHead] at h
    split at h
    · rcases mem_cons.1 h with rfl | h
      · exact not_mem_nil
      · exact ih h
    next ha =>
    cases hs : s.splitOn sep with
    | nil => exact absurd hs (splitOn_ne_nil sep s)
    | cons v l =>
      rw [hs, modifyHead_cons] at h
      rw [hs] at ih
      rcases mem_cons.1 h with rfl | h
      · have hv := ih mem_cons_self
        have hne : sep ≠ a := fun he => ha (by simp [he])
        simp [hv, hne]
      · exact ih (mem_cons_of_mem v h)

theorem splitOn_join [DecidableEq α] (h : Proper sep l) (hl : l ≠ []) :
    (join sep l).splitOn sep = l := by
  induction l with
  | nil => exact absurd rfl hl
  | cons w l ih =>
    have hw := (h w mem_cons_self).2
    by_cases hnil : l = []
    · subst hnil
      exact splitOn_eq_singleton hw
    · rw [join_cons_of_ne_nil w hnil, splitOn_append_cons_self_of_not_mem hw,
        ih (fun v hv => h v (mem_cons_of_mem w hv)) hnil]

/-- The text up to the first separator. -/
theorem head_unique {w w' t t' : List α} (hw : sep ∉ w) (hw' : sep ∉ w')
    (ht : ∀ a ∈ t.head?, a = sep) (ht' : ∀ a ∈ t'.head?, a = sep) (h : w ++ t = w' ++ t') :
    w = w' ∧ t = t' := by
  induction w generalizing w' with
  | nil =>
    cases w' with
    | nil => exact ⟨rfl, h⟩
    | cons b w' =>
      rw [nil_append, cons_append] at h
      have : b = sep := ht b (by rw [h]; rfl)
      exact absurd (this ▸ mem_cons_self) hw'
  | cons a w ih =>
    cases w' with
    | nil =>
      rw [nil_append, cons_append] at h
      have : a = sep := ht' a (by rw [← h]; rfl)
      exact absurd (this ▸ mem_cons_self) hw
    | cons b w' =>
      obtain ⟨rfl, ht⟩ := List.cons.inj h
      obtain ⟨rfl, rfl⟩ := ih (fun hm => hw (mem_cons_of_mem a hm))
        (fun hm => hw' (mem_cons_of_mem a hm)) ht
      exact ⟨rfl, rfl⟩

/-- The rest of a joined text after its first word. -/
def after (sep : α) (l : List (List α)) : List α := if l = [] then [] else sep :: join sep l

theorem join_cons (w : List α) (l : List (List α)) : join sep (w :: l) = w ++ after sep l := by
  unfold after
  split
  · next h => rw [h, append_nil, join]
  · next h => exact join_cons_of_ne_nil w h

theorem head_after (l : List (List α)) : ∀ a ∈ (after sep l).head?, a = sep := by
  unfold after
  split <;> simp

theorem after_inj (h : after sep l = after sep l') :
    l = [] ∧ l' = [] ∨ join sep l = join sep l' := by
  unfold after at h
  split at h <;> split at h
  · next hl hl' => exact .inl ⟨hl, hl'⟩
  · cases h
  · cases h
  · exact .inr (List.cons.inj h).2

theorem join_injective (h : Proper sep l) (h' : Proper sep l') (he : join sep l = join sep l') :
    l = l' := by
  induction l generalizing l' with
  | nil => exact ((join_eq_nil h').1 he.symm).symm
  | cons w l ih =>
    cases l' with
    | nil => exact (join_eq_nil h).1 he
    | cons w' l' =>
      rw [join_cons, join_cons] at he
      obtain ⟨rfl, hafter⟩ := head_unique (h w mem_cons_self).2 (h' w' mem_cons_self).2
        (head_after l) (head_after l') he
      rcases after_inj hafter with ⟨rfl, rfl⟩ | hjoin
      · rfl
      · rw [ih (fun v hv => h v (mem_cons_of_mem w hv))
          (fun v hv => h' v (mem_cons_of_mem w hv)) hjoin]

/-- A text that goes on after another and a separator. -/
theorem join_continues (h : Proper sep l) (h' : Proper sep l') (hl : l ≠ []) {t : List α}
    (he : join sep l' = join sep l ++ sep :: t) : ∃ r, l' = l ++ r ∧ t = join sep r := by
  induction l generalizing l' with
  | nil => exact absurd rfl hl
  | cons w l ih =>
    cases l' with
    | nil => simp [join] at he
    | cons w' l' =>
      rw [join_cons, join_cons, append_assoc] at he
      have hhead : ∀ a ∈ (after sep l ++ sep :: t).head?, a = sep := by
        unfold after
        split <;> simp
      obtain ⟨rfl, hafter⟩ := head_unique (h' w' mem_cons_self).2 (h w mem_cons_self).2
        (head_after l') hhead he
      unfold after at hafter
      by_cases hl' : l' = []
      · rw [if_pos hl'] at hafter
        simp at hafter
      rw [if_neg hl'] at hafter
      by_cases hl0 : l = []
      · rw [if_pos hl0, nil_append] at hafter
        exact ⟨l', by rw [hl0]; rfl, (List.cons.inj hafter).2.symm⟩
      rw [if_neg hl0, cons_append] at hafter
      obtain ⟨r, rfl, ht⟩ := ih (fun v hv => h v (mem_cons_of_mem w' hv))
        (fun v hv => h' v (mem_cons_of_mem w' hv)) hl0 (List.cons.inj hafter).2
      exact ⟨r, rfl, ht⟩

end Segments
