import Mathlib.Data.List.Pairwise
import Mathlib.Data.List.TakeWhile
import Mathlib.Tactic.Common

/-!
# Ordered tables of inclusive spans

A table of spans is a list of entries, each of which occupies the addresses from `lo` to `hi`,
both ends included.  `Ordered` says that the list is sorted and that no two entries meet;
`covering l a` is the entry that occupies the address `a`, if there is one.

The rules: an ordered table has at most one entry at an address (`covering_eq_some_iff`), and
the three ways of rewriting a table (inserting an entry at its place, filtering, cutting every
entry into parts of itself) keep it ordered and change `covering` in the obvious way.
-/

namespace Spans

open List Option

/-- Entries that occupy the inclusive span from `lo` to `hi`. -/
class Spanned (α : Type) where
  lo : α → Nat
  hi : α → Nat

export Spanned (lo hi)

variable {α : Type} [Spanned α]

/-- The entry occupies the address. -/
def Covers (s : α) (a : Nat) : Prop := lo s ≤ a ∧ a ≤ hi s

instance (s : α) (a : Nat) : Decidable (Covers s a) := inferInstanceAs (Decidable (_ ∧ _))

/-- Sorted by start, pairwise disjoint, no entry empty. -/
structure Ordered (l : List α) : Prop where
  nonempty : ∀ s ∈ l, lo s ≤ hi s
  before : l.Pairwise fun s t => hi s < lo t

/-- The entry at an address. -/
def covering (l : List α) (a : Nat) : Option α := l.find? fun s => Covers s a

/-! ## The entry at an address -/

theorem ordered_nil : Ordered ([] : List α) := ⟨by simp, List.Pairwise.nil⟩

variable {s : α}

theorem ordered_singleton (h : lo s ≤ hi s) : Ordered [s] :=
  ⟨by simpa using h, pairwise_singleton _ _⟩

variable {l : List α}

theorem ordered_cons : Ordered (s :: l) ↔ lo s ≤ hi s ∧ (∀ t ∈ l, hi s < lo t) ∧ Ordered l := by
  constructor
  · rintro ⟨hne, hb⟩
    rw [pairwise_cons] at hb
    exact ⟨hne s mem_cons_self, hb.1, fun t ht => hne t (mem_cons_of_mem _ ht), hb.2⟩
  rintro ⟨hs, hb, hl⟩
  refine ⟨fun t ht => ?_, pairwise_cons.2 ⟨hb, hl.before⟩⟩
  rcases mem_cons.1 ht with rfl | ht
  · exact hs
  · exact hl.nonempty t ht

variable {l1 l2 : List α}

theorem ordered_append :
    Ordered (l1 ++ l2) ↔
      Ordered l1 ∧ Ordered l2 ∧ ∀ s ∈ l1, ∀ t ∈ l2, hi s < lo t := by
  constructor
  · rintro ⟨hne, hb⟩
    obtain ⟨h1, h2, h3⟩ := pairwise_append.1 hb
    exact ⟨⟨fun s hs => hne s (mem_append_left _ hs), h1⟩,
      ⟨fun s hs => hne s (mem_append_right _ hs), h2⟩, h3⟩
  rintro ⟨h1, h2, h3⟩
  refine ⟨fun s hs => ?_, pairwise_append.2 ⟨h1.before, h2.before, h3⟩⟩
  rcases mem_append.1 hs with hs | hs
  · exact h1.nonempty s hs
  · exact h2.nonempty s hs

theorem Ordered.sublist (h : Ordered l2) (hs : l1.Sublist l2) : Ordered l1 :=
  ⟨fun s hm => h.nonempty s (hs.subset hm), h.before.sublist hs⟩

variable {a : Nat}

/-- Two entries of an ordered table that meet are one entry. -/
theorem Ordered.unique (h : Ordered l) {t : α} (hs : s ∈ l) (ht : t ∈ l) (hsa : Covers s a)
    (hta : Covers t a) : s = t := by
  induction l with
  | nil => simp at hs
  | cons u l ih =>
    obtain ⟨_, hb, hl⟩ := ordered_cons.1 h
    have apart : ∀ v ∈ l, Covers u a → Covers v a → False := by
      intro v hv hua hva
      have := hb v hv
      unfold Covers at hua hva
      omega
    rcases mem_cons.1 hs with rfl | hs' <;> rcases mem_cons.1 ht with rfl | ht'
    · rfl
    · exact (apart t ht' hsa hta).elim
    · exact (apart s hs' hta hsa).elim
    · exact ih hl hs' ht'

theorem mem_of_covering (h : covering l a = some s) : s ∈ l ∧ Covers s a :=
  ⟨mem_of_find?_eq_some h, by simpa using List.find?_some h⟩

@[simp] theorem covering_nil (a : Nat) : covering ([] : List α) a = none := rfl

theorem covering_cons (s : α) (l : List α) (a : Nat) :
    covering (s :: l) a = if Covers s a then some s else covering l a := by
  by_cases h : Covers s a <;> simp [covering, h]

theorem covering_eq_none_iff : covering l a = none ↔ ∀ s ∈ l, ¬ Covers s a := by
  simp [covering]

theorem covering_eq_some_iff (h : Ordered l) : covering l a = some s ↔ s ∈ l ∧ Covers s a := by
  refine ⟨mem_of_covering, fun ⟨hs, hsa⟩ => ?_⟩
  cases ht : covering l a with
  | none => exact absurd hsa (covering_eq_none_iff.1 ht s hs)
  | some t =>
    obtain ⟨ht, hta⟩ := mem_of_covering ht
    rw [h.unique ht hs hta hsa]

theorem isSome_covering_iff : (covering l a).isSome ↔ ∃ s ∈ l, Covers s a := by
  simp [covering, List.find?_isSome]

/-! ## Rewriting a table -/

theorem covering_filter (h : Ordered l) (p : α → Bool) (a : Nat) :
    covering (l.filter p) a = (covering l a).filter p := by
  cases hc : covering l a with
  | none =>
    rw [filter_none, covering_eq_none_iff]
    intro s hs
    exact covering_eq_none_iff.1 hc s (mem_filter.1 hs).1
  | some s =>
    obtain ⟨hs, hsa⟩ := mem_of_covering hc
    by_cases hp : p s
    · rw [filter_some, if_pos hp, covering_eq_some_iff (h.sublist filter_sublist)]
      exact ⟨mem_filter.2 ⟨hs, hp⟩, hsa⟩
    rw [filter_some, if_neg hp, covering_eq_none_iff]
    intro t ht hta
    obtain ⟨ht, hpt⟩ := mem_filter.1 ht
    rw [h.unique ht hs hta hsa] at hpt
    exact hp hpt

/-- Every part of an entry that `f` yields lies within the entry. -/
def Cuts (f : α → List α) (l : List α) : Prop :=
  ∀ s ∈ l, Ordered (f s) ∧ ∀ t ∈ f s, lo s ≤ lo t ∧ hi t ≤ hi s

theorem Ordered.flatMap (h : Ordered l) {f : α → List α} (hf : Cuts f l) :
    Ordered (l.flatMap f) := by
  induction l with
  | nil => exact ordered_nil
  | cons s l ih =>
    obtain ⟨_, hb, hl⟩ := ordered_cons.1 h
    rw [flatMap_cons, ordered_append]
    refine ⟨(hf s mem_cons_self).1,
      ih hl fun t ht => hf t (mem_cons_of_mem _ ht), fun u hu v hv => ?_⟩
    obtain ⟨t, ht, hvt⟩ := mem_flatMap.1 hv
    have h1 := (hf s mem_cons_self).2 u hu
    have h2 := (hf t (mem_cons_of_mem _ ht)).2 v hvt
    have h3 := hb t ht
    omega

theorem covering_flatMap (h : Ordered l) {f : α → List α} (hf : Cuts f l) (a : Nat) :
    covering (l.flatMap f) a = (covering l a).bind fun s => covering (f s) a := by
  have inside : ∀ s ∈ l, ∀ t ∈ f s, Covers t a → Covers s a := by
    intro s hs t ht hta
    have := (hf s hs).2 t ht
    unfold Covers at hta ⊢
    omega
  cases hc : covering l a with
  | none =>
    rw [bind_none, covering_eq_none_iff]
    intro t ht hta
    obtain ⟨s, hs, ht⟩ := mem_flatMap.1 ht
    exact covering_eq_none_iff.1 hc s hs (inside s hs t ht hta)
  | some s =>
    obtain ⟨hs, hsa⟩ := mem_of_covering hc
    rw [bind_some]
    cases hp : covering (f s) a with
    | none =>
      rw [covering_eq_none_iff]
      intro t ht hta
      obtain ⟨u, hu, ht⟩ := mem_flatMap.1 ht
      obtain rfl := h.unique hu hs (inside u hu t ht hta) hsa
      exact covering_eq_none_iff.1 hp t ht hta
    | some t =>
      obtain ⟨ht, hta⟩ := mem_of_covering hp
      rw [covering_eq_some_iff (h.flatMap hf)]
      exact ⟨mem_flatMap.2 ⟨s, hs, ht⟩, hta⟩

/-! ## Covering a window -/

/-- Whether entries in order cover all addresses from `a` to `b`. -/
def reaches : List α → (a b : Nat) → Bool
  | [], _, _ => false
  | s :: l, a, b =>
    if hi s < a then reaches l a b
    else if a < lo s then false
    else if b ≤ hi s then true
    else reaches l (hi s + 1) b

theorem reaches_iff (h : Ordered l) {b : Nat} (hab : a ≤ b) :
    reaches l a b = true ↔ ∀ x, a ≤ x → x ≤ b → ∃ s ∈ l, Covers s x := by
  induction l generalizing a with
  | nil =>
    simp only [reaches, Bool.false_eq_true, not_mem_nil, false_and, exists_false, imp_false,
      false_iff, not_forall]
    exact ⟨a, le_rfl, not_not.2 hab⟩
  | cons s l ih =>
    obtain ⟨hne, hb, hl⟩ := ordered_cons.1 h
    have away : ∀ t ∈ l, ∀ x ≤ hi s, ¬ Covers t x := by
      intro t ht x hx hc
      have h1 := hb t ht
      have h2 := hc.1
      omega
    unfold reaches
    split
    · next hlt =>
      rw [ih hl hab]
      refine forall_congr' fun x => forall_congr' fun hx => forall_congr' fun _ => ?_
      have : ¬ Covers s x := fun hc => by
        have := hc.2
        omega
      simp [this]
    split
    · next hlast hstart =>
      simp only [Bool.false_eq_true, false_iff, not_forall]
      refine ⟨a, le_rfl, hab, ?_⟩
      rintro ⟨t, ht, hc⟩
      rcases mem_cons.1 ht with rfl | ht
      · exact absurd hc.1 (by omega)
      · exact away t ht _ (by omega) hc
    split
    · next hlast hstart hhi =>
      simp only [true_iff]
      exact fun x hx hx' => ⟨s, mem_cons_self, by omega, by omega⟩
    next hlast hstart hhi =>
    rw [ih hl (by omega)]
    constructor
    · intro hall x hx hx'
      by_cases hs : x ≤ hi s
      · exact ⟨s, mem_cons_self, by omega, hs⟩
      · obtain ⟨t, ht, hc⟩ := hall x (by omega) hx'
        exact ⟨t, mem_cons_of_mem _ ht, hc⟩
    intro hall x hx hx'
    obtain ⟨t, ht, hc⟩ := hall x (by omega) hx'
    rcases mem_cons.1 ht with rfl | ht
    · exact absurd hc.2 (by omega)
    · exact ⟨t, ht, hc⟩

/-! ## Cutting at a window -/

section cut

variable {β : Type} {f : α → β} {b x : Nat} {v : Option β}

/-- At most one entry: with a value, the one that fills the span from `a` to `b` with it. -/
def Piece (f : α → β) (l : List α) (a b : Nat) (v : Option β) : Prop :=
  l = [] ∧ v = none ∨ ∃ t, l = [t] ∧ lo t = a ∧ hi t = b ∧ a ≤ b ∧ v = some (f t)

theorem Piece.mem (h : Piece f l a b v) (hs : s ∈ l) : lo s = a ∧ hi s = b ∧ a ≤ b := by
  obtain ⟨rfl, -⟩ | ⟨t, rfl, h1, h2, h3, -⟩ := h
  · cases hs
  · cases mem_singleton.1 hs
    exact ⟨h1, h2, h3⟩

theorem Piece.ordered (h : Piece f l a b v) : Ordered l := by
  obtain ⟨rfl, -⟩ | ⟨t, rfl, rfl, rfl, h3, -⟩ := h
  · exact ordered_nil
  · exact ordered_singleton h3

theorem Piece.covering (h : Piece f l a b v) :
    (covering l x).map f = if a ≤ x ∧ x ≤ b then v else none := by
  obtain ⟨rfl, rfl⟩ | ⟨t, rfl, rfl, rfl, -, rfl⟩ := h
  · simp
  · rw [covering_cons, covering_nil]
    exact apply_ite (Option.map f) (Covers t x) (some t) none

/-- Parts of `s` in order, with the value `v` in the window from `a` to `b` and that of `s`
elsewhere. -/
structure Cut (f : α → β) (a b : Nat) (v : Option β) (s : α) (parts : List α) : Prop where
  ordered : Ordered parts
  inside : ∀ t ∈ parts, lo s ≤ lo t ∧ hi t ≤ hi s
  value : ∀ x, Covers s x → (covering parts x).map f = if a ≤ x ∧ x ≤ b then v else some (f s)

theorem cut_apart (hs : lo s ≤ hi s) (h : ¬ (lo s ≤ b ∧ a ≤ hi s)) : Cut f a b v s [s] := by
  refine ⟨ordered_singleton hs, by simp, fun x hx => ?_⟩
  have hout : ¬ (a ≤ x ∧ x ≤ b) := by
    unfold Covers at hx
    omega
  rw [covering_cons, if_pos hx, if_neg hout, map_some]

/-- What is before, in and after a window that meets `s`. -/
theorem cut_parts {bs ms cs : List α} (hab : a ≤ b) (hlo : lo s ≤ b) (hhi : a ≤ hi s)
    (hb : Piece f bs (lo s) (a - 1) (if lo s < a then some (f s) else none))
    (hm : Piece f ms (max (lo s) a) (min (hi s) b) v)
    (hc : Piece f cs (b + 1) (hi s) (if b < hi s then some (f s) else none)) :
    Cut f a b v s (bs ++ ms ++ cs) := by
  have before : ∀ t ∈ bs, lo t = lo s ∧ hi t < a := by
    intro t ht
    have := hb.mem ht
    have hlt : lo s < a := by
      by_contra hn
      obtain ⟨rfl, -⟩ | ⟨_, -, -, -, -, h⟩ := hb
      · cases ht
      · simp [hn] at h
    omega
  refine ⟨?_, fun t ht => ?_, fun x ⟨hx, hx'⟩ => ?_⟩
  · rw [ordered_append, ordered_append]
    refine ⟨⟨hb.ordered, hm.ordered, fun t ht u hu => ?_⟩, hc.ordered, fun t ht u hu => ?_⟩
    · have := before t ht
      have := hm.mem hu
      omega
    have := hc.mem hu
    rcases mem_append.1 ht with ht | ht
    · have := before t ht
      omega
    · have := hm.mem ht
      omega
  · rcases mem_append.1 ht with ht | ht
    · rcases mem_append.1 ht with ht | ht
      · have := before t ht
        omega
      · have := hm.mem ht
        omega
    · have := hc.mem ht
      omega
  have happ : ∀ l1 l2 : List α, (covering (l1 ++ l2) x).map f =
      ((covering l1 x).map f).or ((covering l2 x).map f) := by
    intro l1 l2
    simp only [covering, List.find?_append, map_or]
  rw [happ, happ, hm.covering, hc.covering]
  by_cases h1 : x < a
  · rw [hb.covering, if_pos (by omega), if_pos (by omega), if_neg (by omega), if_neg (by omega),
      if_neg (by omega)]
    rfl
  have hnone : covering bs x = none := covering_eq_none_iff.2 fun t ht hx => by
    have h2 := before t ht
    have h3 := hx.2
    omega
  rw [hnone, map_none, none_or]
  by_cases h2 : x ≤ b
  · rw [if_pos (by omega), if_neg (by omega), if_pos (by omega), or_none]
  · rw [if_neg (by omega), if_pos (by omega), if_pos (by omega), if_neg (by omega), none_or]

variable {g : α → List α} {w : α → Option β}

theorem cuts_of_cut (hg : ∀ s ∈ l, Cut f a b (w s) s (g s)) : Cuts g l :=
  fun s hs => ⟨(hg s hs).ordered, (hg s hs).inside⟩

/-- A table whose entries are cut at a window has new values there, and the old ones elsewhere. -/
theorem covering_cut (h : Ordered l) (hg : ∀ s ∈ l, Cut f a b (w s) s (g s)) (x : Nat) :
    (covering (l.flatMap g) x).map f =
      if a ≤ x ∧ x ≤ b then (covering l x).bind w else (covering l x).map f := by
  rw [covering_flatMap h (cuts_of_cut hg)]
  cases hc : covering l x with
  | none => simp
  | some s =>
    obtain ⟨hs, hx⟩ := mem_of_covering hc
    exact (hg s hs).value x hx

end cut

omit [Spanned α] in
/-- A loop over a table that fails with the first entry that cannot be cut. -/
theorem flatMap_of_ok {ε : Type} {f : α → Except ε (List α)} {g : List α → Except ε (List α)}
    (h0 : g [] = .ok []) (h1 : ∀ s l out, g (s :: l) = .ok out →
      ∃ part rest, f s = .ok part ∧ g l = .ok rest ∧ out = part ++ rest)
    {out : List α} (h : g l = .ok out) :
    ∃ parts : α → List α, out = l.flatMap parts ∧ ∀ s ∈ l, f s = .ok (parts s) := by
  refine ⟨fun s => (f s).toOption.getD [], ?_⟩
  induction l generalizing out with
  | nil =>
    cases h0.symm.trans h
    exact ⟨rfl, by simp⟩
  | cons s l ih =>
    obtain ⟨part, rest, hs, hl, rfl⟩ := h1 s l out h
    obtain ⟨rfl, hall⟩ := ih hl
    have hpart : (f s).toOption.getD [] = part := by
      rw [hs]
      rfl
    refine ⟨by rw [flatMap_cons, hpart], fun t ht => ?_⟩
    rcases mem_cons.1 ht with rfl | ht
    · exact hs.trans (congrArg _ hpart.symm)
    · exact hall t ht

theorem Ordered.lt_lo_of_head? (h : Ordered l) (hb : ∀ t, l.head? = some t → a < lo t) :
    ∀ s ∈ l, a < lo s := by
  cases l with
  | nil => simp
  | cons t l =>
    have ht := hb t rfl
    obtain ⟨hne, hl, _⟩ := ordered_cons.1 h
    intro s hs
    rcases mem_cons.1 hs with rfl | hs
    · exact ht
    · have := hl s hs
      omega

/-- An entry between two neighbours it does not meet. -/
theorem Ordered.insert (h : Ordered (l1 ++ l2)) (hs : lo s ≤ hi s)
    (hl : ∀ t, l1.getLast? = some t → hi t < lo s) (hr : ∀ t, l2.head? = some t → hi s < lo t) :
    Ordered (l1 ++ s :: l2) := by
  obtain ⟨h1, h2, h3⟩ := ordered_append.1 h
  refine ordered_append.2 ⟨h1, ordered_cons.2 ⟨hs, h2.lt_lo_of_head? hr, h2⟩, fun t ht u hu => ?_⟩
  rcases mem_cons.1 hu with rfl | hu
  · -- the last entry of an ordered table bounds all of it
    rcases eq_nil_or_concat l1 with rfl | ⟨l, x, rfl⟩
    · simp at ht
    rw [concat_eq_append] at h1 ht hl
    have hx := hl x (by simp)
    obtain ⟨_, hlast, happ⟩ := ordered_append.1 h1
    rcases mem_append.1 ht with ht | ht
    · have hlt := happ t ht x mem_cons_self
      have := hlast.nonempty x mem_cons_self
      omega
    · rwa [mem_singleton.1 ht]
  · exact h3 t ht u hu

/-- Without one of its entries a table is free where that entry was. -/
theorem Ordered.covering_apart (h : Ordered (l1 ++ s :: l2)) (ha : Covers s a) :
    covering (l1 ++ l2) a = none := by
  obtain ⟨_, h2, h3⟩ := ordered_append.1 h
  obtain ⟨_, h4, _⟩ := ordered_cons.1 h2
  rw [covering_eq_none_iff]
  intro t ht hta
  unfold Covers at ha hta
  rcases mem_append.1 ht with ht | ht
  · have := h3 t ht s mem_cons_self
    omega
  · have := h4 t ht
    omega

theorem covering_insert (h : Ordered (l1 ++ s :: l2)) (a : Nat) :
    covering (l1 ++ s :: l2) a = if Covers s a then some s else covering (l1 ++ l2) a := by
  have hsub : (l1 ++ l2).Sublist (l1 ++ s :: l2) :=
    List.Sublist.append_left (sublist_cons_self s l2) l1
  split
  · next hc => exact (covering_eq_some_iff h).2 ⟨by simp, hc⟩
  next hc =>
  ext t
  rw [covering_eq_some_iff h, covering_eq_some_iff (h.sublist hsub)]
  simp only [mem_append, mem_cons]
  constructor
  · rintro ⟨hm | rfl | hm, ht⟩
    · exact ⟨.inl hm, ht⟩
    · exact absurd ht hc
    · exact ⟨.inr hm, ht⟩
  · rintro ⟨hm | hm, ht⟩
    · exact ⟨.inl hm, ht⟩
    · exact ⟨.inr (.inr hm), ht⟩

/-- An entry may be replaced by an ordered table of parts of itself. -/
theorem Ordered.replace {m : List α} (h : Ordered (l1 ++ s :: l2)) (hm : Ordered m)
    (hin : ∀ t ∈ m, lo s ≤ lo t ∧ hi t ≤ hi s) : Ordered (l1 ++ (m ++ l2)) := by
  obtain ⟨h1, h2, h3⟩ := ordered_append.1 h
  obtain ⟨_, h4, h5⟩ := ordered_cons.1 h2
  refine ordered_append.2 ⟨h1, ordered_append.2 ⟨hm, h5, fun t ht u hu => ?_⟩, fun t ht u hu => ?_⟩
  · have := hin t ht
    have := h4 u hu
    omega
  rcases mem_append.1 hu with hu | hu
  · have := h3 t ht s mem_cons_self
    have := hin u hu
    omega
  · exact h3 t ht u (mem_cons_of_mem _ hu)

theorem covering_replace {m : List α} (h : Ordered (l1 ++ s :: l2)) (hm : Ordered m)
    (hin : ∀ t ∈ m, lo s ≤ lo t ∧ hi t ≤ hi s) (a : Nat) :
    covering (l1 ++ (m ++ l2)) a =
      if Covers s a then covering m a else covering (l1 ++ s :: l2) a := by
  have hapart := fun ha => covering_eq_none_iff.1 (h.covering_apart (a := a) ha)
  have hout : ¬ Covers s a → ∀ t ∈ m, ¬ Covers t a := by
    intro hc t ht hta
    have := hin t ht
    unfold Covers at hc hta
    omega
  ext t
  rw [covering_eq_some_iff (h.replace hm hin)]
  simp only [mem_append]
  split
  · next hc =>
    rw [covering_eq_some_iff hm]
    constructor
    · rintro ⟨ht | ht | ht, hta⟩
      · exact absurd hta (hapart hc t (mem_append_left _ ht))
      · exact ⟨ht, hta⟩
      · exact absurd hta (hapart hc t (mem_append_right _ ht))
    · rintro ⟨ht, hta⟩
      exact ⟨.inr (.inl ht), hta⟩
  · next hc =>
    rw [covering_eq_some_iff h, mem_append, mem_cons]
    constructor
    · rintro ⟨ht | ht | ht, hta⟩
      · exact ⟨.inl ht, hta⟩
      · exact absurd hta (hout hc t ht)
      · exact ⟨.inr (.inr ht), hta⟩
    rintro ⟨ht | rfl | ht, hta⟩
    · exact ⟨.inl ht, hta⟩
    · exact absurd hta hc
    · exact ⟨.inr (.inr ht), hta⟩

end Spans
