import Sqware.Lib.Lists
import Sqware.Nest.Occupancy

/-!
# What the occupancy operations do to the address space

Read as a map from addresses to tags (`atlas`), an occupancy table is a partial function, and
every operation is an update of it on an interval:

    reserve     paints a free interval with a new generation       (reserve_spec)
    split       repaints one generation with two                   (split_spec)
    release     clears the interval of one un-retired slot         (release_spec)
    retire      gives a ticket to what a generation still uses     (retire_atlas)
    reclaim     clears what carries a ticket                       (reclaim_atlas)

Each of them needs the table to be ordered and leaves it so.
-/

namespace Sqware.Nest

open Spans List

/-- What a slot says of each of its addresses. -/
structure Tag where
  ticket : Nat
  id : Nat
  region : RegionId
  deriving DecidableEq, Repr

def Slot.tag (s : Slot) : Tag := ⟨s.ticket, s.id, s.region⟩

@[simp] theorem Slot.tag_id (s : Slot) : s.tag.id = s.id := rfl

/-- A partition of part of the address space into tagged addresses. -/
abbrev Atlas := Nat → Option Tag

namespace Atlas

/-- One tag over an interval. -/
def paint (m : Atlas) (start last : Nat) (tag : Option Tag) : Atlas :=
  fun a => if start ≤ a ∧ a ≤ last then tag else m a

def retire (m : Atlas) (ticket start last id : Nat) : Atlas := fun a =>
  (m a).map fun tag =>
    if start ≤ a ∧ a ≤ last ∧ tag.ticket = 0 ∧ tag.id = id then { tag with ticket } else tag

def reclaim (m : Atlas) (ticket : Nat) : Atlas := fun a => (m a).filter (·.ticket ≠ ticket)

end Atlas

namespace Occupancy

/-- What each address belongs to. -/
def atlas (o : Occupancy) : Atlas := fun a => (covering o.slots a).map Slot.tag

variable {a : Nat} {o : Occupancy}

theorem atlas_eq_some (h : Ordered o.slots) {tag : Tag} :
    o.atlas a = some tag ↔ ∃ s ∈ o.slots, Covers s a ∧ s.tag = tag := by
  unfold atlas
  simp only [Option.map_eq_some_iff, covering_eq_some_iff h]
  constructor
  · rintro ⟨s, ⟨hs, ha⟩, ht⟩
    exact ⟨s, hs, ha, ht⟩
  · rintro ⟨s, hs, ha, ht⟩
    exact ⟨s, ⟨hs, ha⟩, ht⟩

theorem atlas_eq_none : o.atlas a = none ↔ ∀ s ∈ o.slots, ¬ Covers s a := by
  unfold atlas
  rw [Option.map_eq_none_iff, covering_eq_none_iff]

/-! ## Reserve -/

variable {room : Bool} {id ids ids' last start : Nat} {o' : Occupancy}

theorem insert_spec {region : RegionId} (h : Ordered o.slots) (hle : start ≤ last)
    (he : o.insert ids room region start last = (.ok (o', id), ids')) :
    Ordered o'.slots ∧ o'.atlas = o.atlas.paint start last (some ⟨0, id, region⟩) ∧
      (∀ s, s ∈ o'.slots ↔ s = ⟨start, last, 0, id, region⟩ ∨ s ∈ o.slots) ∧
      (∀ a, start ≤ a → a ≤ last → o.atlas a = none) ∧ id = ids ∧ ids' = ids + 1 := by
  unfold insert at he
  simp only [] at he
  split at he
  · simp at he
  next hn =>
  split at he
  · simp at he
  split at he
  · simp at he
  next i n hid =>
  simp only [Prod.mk.injEq, Except.ok.injEq] at he
  obtain ⟨⟨rfl, rfl⟩, rfl⟩ := he
  obtain ⟨rfl, rfl, _, _⟩ := nextId_eq_some.1 hid
  simp only [Bool.or_eq_true, not_or, Bool.not_eq_true] at hn
  have happ := takeWhile_append_dropWhile (p := fun s : Slot => decide (s.start < start))
    (l := o.slots)
  have hord : Ordered (o.slots.takeWhile (·.start < start) ++
      (⟨start, last, 0, i, region⟩ : Slot) :: o.slots.dropWhile (·.start < start)) := by
    refine Ordered.insert (happ.symm ▸ h) hle (fun t ht => ?_) (fun t ht => ?_)
    · have := hn.1
      rw [ht] at this
      simpa using this
    · have := hn.2
      rw [ht] at this
      simpa using this
  have hmem : ∀ s, s ∈ o.slots.takeWhile (·.start < start) ++
      (⟨start, last, 0, i, region⟩ : Slot) :: o.slots.dropWhile (·.start < start) ↔
      s = ⟨start, last, 0, i, region⟩ ∨ s ∈ o.slots := by
    intro s
    conv => rhs; rhs; rw [← happ]
    simp only [mem_append, mem_cons]
    tauto
  refine ⟨hord, ?_, hmem, fun a h1 h2 => ?_, rfl, rfl⟩
  · funext a
    simp only [atlas, Atlas.paint]
    rw [covering_insert hord, happ, apply_ite (Option.map Slot.tag)]
    rfl
  · have hfree := hord.covering_apart (a := a) ⟨h1, h2⟩
    rw [happ] at hfree
    simp [atlas, hfree]

/-- A successful `reserve` takes an interval that was free, for a fresh generation. -/
theorem reserve_spec {r1 r2 : Bool} {p : Placement} (h : Ordered o.slots)
    (he : o.reserve ids r1 r2 p = (.ok (o', start, id), ids')) :
    ∃ last, last = start + (p.size - 1) ∧ last < usizeSize ∧ Ordered o'.slots ∧
      o'.atlas = o.atlas.paint start last (some ⟨0, id, p.region⟩) ∧
      (∀ s, s ∈ o'.slots ↔ s = ⟨start, last, 0, id, p.region⟩ ∨ s ∈ o.slots) ∧
      (∀ a, start ≤ a → a ≤ last → o.atlas a = none) ∧ id = ids ∧ ids' = ids + 1 := by
  unfold reserve at he
  split at he
  · simp at he
  next st hst =>
  split at he
  · simp at he
  next last hlast =>
  obtain ⟨rfl, hb⟩ := checkedAdd_eq_some.1 hlast
  split at he
  · simp at he
  next o1 id1 ids1 hins =>
  cases he
  obtain ⟨h1, h2, h3, h4, h5, h6⟩ := insert_spec h (Nat.le_add_right _ _) hins
  exact ⟨_, rfl, hb, h1, h2, h3, h4, h5, h6⟩

/-! ## Split and release -/

/-- The slot that `split` and `release` look for, as a cut of the table around it. -/
theorem exists_of_find_matches {i : Nat}
    (hi : o.slots.findIdx? (Slot.matches start last id) = some i) :
    ∃ l1 region l2, o.slots = l1 ++ ⟨start, last, 0, id, region⟩ :: l2 ∧ l1.length = i := by
  obtain ⟨l1, s, l2, hl, hlen, hs, -⟩ := Lists.exists_of_findIdx? hi
  obtain ⟨_, _, _, _, region⟩ := s
  simp only [Slot.matches, Bool.decide_and, Bool.and_eq_true, decide_eq_true_eq] at hs
  obtain ⟨rfl, rfl, rfl, rfl⟩ := hs
  exact ⟨l1, region, l2, hl, hlen⟩

theorem split_spec {leftSize right left' right' : Nat} (h : Ordered o.slots)
    (he : o.split ids room start last id leftSize = (.ok (o', right, left', right'), ids')) :
    ∃ region, Ordered o'.slots ∧ ⟨start, last, 0, id, region⟩ ∈ o.slots ∧
      o'.atlas = (o.atlas.paint start (right - 1) (some ⟨0, left', region⟩)).paint
        right last (some ⟨0, right', region⟩) ∧
      (∀ s ∈ o'.slots, s = ⟨start, right - 1, 0, left', region⟩ ∨
        s = ⟨right, last, 0, right', region⟩ ∨ s ∈ o.slots) ∧
      start < right ∧ right ≤ last ∧ left' = ids ∧ right' = ids + 1 ∧ ids' = ids + 2 := by
  unfold split at he
  simp only [] at he
  split at he
  · simp at he
  next hsize =>
  split at he
  · simp at he
  next i hfind =>
  split at he
  · simp at he
  split at he
  on_goal 2 => simp at he
  next i1 n1 slot hid1 hslot =>
  split at he
  · simp at he
  next i2 n2 hid2 =>
  simp only [Prod.mk.injEq, Except.ok.injEq] at he
  obtain ⟨⟨rfl, rfl, rfl, rfl⟩, rfl⟩ := he
  obtain ⟨rfl, rfl, _, _⟩ := nextId_eq_some.1 hid1
  obtain ⟨rfl, rfl, _, _⟩ := nextId_eq_some.1 hid2
  obtain ⟨l1, region, l2, hl, rfl⟩ := exists_of_find_matches hfind
  obtain rfl : slot = ⟨start, last, 0, id, region⟩ := by
    rw [hl] at hslot
    simpa using hslot.symm
  rw [hl] at h
  have hlt : leftSize ≠ 0 ∧ leftSize ≤ last - start := by
    have := Nat.mod_le (last - start + 1) usizeSize
    omega
  have hslots : (o.slots.set l1.length ⟨start, start + leftSize - 1, 0, i1, region⟩).insertIdx
      (l1.length + 1) ⟨start + leftSize, last, 0, i1 + 1, region⟩ =
      l1 ++ ([⟨start, start + leftSize - 1, 0, i1, region⟩,
        ⟨start + leftSize, last, 0, i1 + 1, region⟩] ++ l2) := by
    rw [hl]
    simp [Lists.insertIdx_append_cons]
  have hparts : Ordered [(⟨start, start + leftSize - 1, 0, i1, region⟩ : Slot),
      ⟨start + leftSize, last, 0, i1 + 1, region⟩] := by
    simp [ordered_cons, ordered_nil]
    omega
  have hin : ∀ t ∈ [(⟨start, start + leftSize - 1, 0, i1, region⟩ : Slot),
      ⟨start + leftSize, last, 0, i1 + 1, region⟩],
      lo (⟨start, last, 0, id, region⟩ : Slot) ≤ lo t ∧
        hi t ≤ hi (⟨start, last, 0, id, region⟩ : Slot) := by
    simp
    omega
  refine ⟨region, ?_, by rw [hl]; simp, ?_, ?_, by omega, by omega, rfl, rfl, rfl⟩
  · rw [hslots]
    exact h.replace hparts hin
  · funext a
    simp only [atlas, hslots]
    rw [covering_replace h hparts hin, ← hl]
    simp only [covering_cons, covering_nil, Atlas.paint, Covers, lo_slot, hi_slot, atlas]
    by_cases h1 : start ≤ a ∧ a ≤ last
    · by_cases h2 : start + leftSize ≤ a
      · have h3 : ¬ a ≤ start + leftSize - 1 := by omega
        simp [h1, h2, h3, Slot.tag]
      · have h3 : a ≤ start + leftSize - 1 := by omega
        simp [h1, h2, h3, Slot.tag]
    · have h2 : ¬ (start ≤ a ∧ a ≤ start + leftSize - 1) := by omega
      have h3 : ¬ (start + leftSize ≤ a ∧ a ≤ last) := by omega
      simp only [if_neg h1, if_neg h2, if_neg h3]
  · rw [hslots, hl]
    intro s
    simp only [mem_append, mem_cons, not_mem_nil]
    tauto

theorem release_spec (h : Ordered o.slots) (he : o.release start last id = (o', true)) :
    ∃ region, o'.slots.Sublist o.slots ∧
      ⟨start, last, 0, id, region⟩ ∈ o.slots ∧ o'.atlas = o.atlas.paint start last none := by
  unfold release at he
  split at he
  on_goal 2 => simp at he
  next i hfind =>
  simp only [Prod.mk.injEq, and_true] at he
  subst he
  obtain ⟨l1, region, l2, hl, rfl⟩ := exists_of_find_matches hfind
  have hsub : (l1 ++ l2).Sublist (l1 ++ (⟨start, last, 0, id, region⟩ : Slot) :: l2) :=
    List.Sublist.append_left (sublist_cons_self _ l2) l1
  rw [hl] at h
  simp only [hl, Lists.eraseIdx_append_cons]
  refine ⟨region, hsub, by simp, ?_⟩
  funext a
  simp only [atlas]
  rw [← nil_append l2, covering_replace h ordered_nil (by simp), ← hl,
    apply_ite (Option.map Slot.tag)]
  rfl

/-! ## Retire and reclaim -/

variable {ticket : Nat}

theorem cuts_cut {slots : List Slot} (h : Ordered slots) (hle : start ≤ last) :
    Cuts (cut start last id ticket) slots := by
  intro s hs
  have hne : s.start ≤ s.last := h.nonempty s hs
  unfold cut
  split
  · exact ⟨ordered_singleton hne, by simp⟩
  next hc =>
  constructor
  · split <;> split <;>
      simp only [nil_append, singleton_append, ordered_cons, ordered_nil, lo_slot,
        hi_slot, mem_cons, not_mem_nil, forall_eq_or_imp, or_false, forall_eq,
        IsEmpty.forall_iff, implies_true, and_true] <;>
      omega
  intro t ht
  simp only [mem_append, mem_cons] at ht
  rcases ht with ht | rfl | ht
  · split at ht
    · obtain rfl := mem_singleton.1 ht
      simp only [lo_slot, hi_slot]
      omega
    · simp at ht
  · simp only [lo_slot, hi_slot]
    omega
  split at ht
  · obtain rfl := mem_singleton.1 ht
    simp only [lo_slot, hi_slot]
    omega
  · simp at ht

/-- The part of a cut slot at an address, as a tag. -/
theorem covering_cut {s : Slot} (hle : start ≤ last) (ha : Covers s a) :
    (covering (cut start last id ticket s) a).map Slot.tag =
      some (if start ≤ a ∧ a ≤ last ∧ s.ticket = 0 ∧ s.id = id then { s.tag with ticket }
        else s.tag) := by
  have hord : Ordered (cut start last id ticket s) :=
    (cuts_cut (ordered_singleton (ha.1.trans ha.2)) hle s mem_cons_self).1
  obtain ⟨h1, h2⟩ := ha
  simp only [lo_slot, hi_slot] at h1 h2
  unfold cut at hord ⊢
  split at hord
  · next hc =>
    have hn : ¬ (start ≤ a ∧ a ≤ last ∧ s.ticket = 0 ∧ s.id = id) := by omega
    simp [covering_cons, Covers, h1, h2, hn, hc]
  next hc =>
  rw [if_neg hc]
  simp only [not_or, not_lt, ne_eq, not_not] at hc
  obtain ⟨ht, hid, h3, h4⟩ := hc
  -- the address lies left of the interval, in it, or right of it
  rcases lt_or_ge a start with h5 | h5
  · rw [(covering_eq_some_iff hord (s := { s with last := start - 1, ticket := 0 })).2]
    · simp [Slot.tag, ht, show ¬ start ≤ a by omega]
    · simp only [mem_append, mem_cons, if_pos (show s.start < start by omega)]
      exact ⟨by simp, h1, show a ≤ start - 1 by omega⟩
  rcases le_or_gt a last with h6 | h6
  · rw [(covering_eq_some_iff hord
      (s := { s with start := max s.start start, last := min s.last last, ticket })).2]
    · simp [Slot.tag, ht, hid, h5, h6]
    · simp only [mem_append, mem_cons]
      exact ⟨by simp, show max s.start start ≤ a by omega, show a ≤ min s.last last by omega⟩
  rw [(covering_eq_some_iff hord (s := { s with start := last + 1, ticket := 0 })).2]
  · simp [Slot.tag, ht, show ¬ a ≤ last by omega]
  · simp only [mem_append, mem_cons, if_pos (show last < s.last by omega)]
    exact ⟨by simp, show last + 1 ≤ a by omega, h2⟩

theorem retire_atlas (h : Ordered o.slots) (hle : start ≤ last) :
    (o.retire ticket start last id).atlas = o.atlas.retire ticket start last id := by
  funext a
  simp only [atlas, retire, Atlas.retire]
  rw [covering_flatMap h (cuts_cut h hle)]
  cases hc : covering o.slots a with
  | none => rfl
  | some s => exact covering_cut hle (mem_of_covering hc).2

theorem reclaim_slots (o : Occupancy) (ticket : Nat) :
    (o.reclaim ticket).slots = o.slots.filter (·.ticket ≠ ticket) := by
  unfold reclaim
  split
  · simp only []
    split <;> rfl
  · rfl

theorem reclaim_atlas (h : Ordered o.slots) (ticket : Nat) :
    (o.reclaim ticket).atlas = o.atlas.reclaim ticket := by
  funext a
  simp only [atlas, Atlas.reclaim]
  rw [reclaim_slots, covering_filter h, Option.filter_map]
  rfl

/-! ## Pieces -/

/-- Every address of the interval belongs to the generation. -/
def Tiled (slots : List Slot) (id start last : Nat) : Prop :=
  ∀ a, start ≤ a → a ≤ last → ∃ s ∈ slots, s.id = id ∧ Covers s a

theorem piecesFrom_ok_iff {slots : List Slot} (h : Ordered slots) {at' : Nat} (hat : at' ≤ last) :
    (∃ ps, piecesFrom last id slots at' = .ok ps) ↔ Tiled slots id at' last := by
  induction slots generalizing at' with
  | nil =>
    simp only [piecesFrom, reduceCtorEq, exists_false, false_iff]
    intro ht
    simpa using ht at' le_rfl hat
  | cons s slots ih =>
    obtain ⟨hne, hb, hl⟩ := ordered_cons.1 h
    simp only [lo_slot, hi_slot] at hne hb
    have first : Tiled (s :: slots) id at' last → at' ≤ s.last → s.id = id ∧ s.start ≤ at' := by
      intro ht hs
      obtain ⟨u, hu, hid, h1, h2⟩ := ht at' le_rfl hat
      simp only [lo_slot, hi_slot] at h1 h2
      rcases mem_cons.1 hu with rfl | hu
      · exact ⟨hid, h1⟩
      · have := hb u hu
        omega
    have later : ∀ x, s.last < x → (Tiled (s :: slots) id x last ↔ Tiled slots id x last) := by
      intro x hx
      constructor <;> intro ht a h1 h2 <;> obtain ⟨u, hu, hid, hc⟩ := ht a h1 h2
      · rcases mem_cons.1 hu with rfl | hu
        · exact absurd hc.2 (by simp only [hi_slot]; omega)
        · exact ⟨u, hu, hid, hc⟩
      · exact ⟨u, mem_cons_of_mem _ hu, hid, hc⟩
    unfold piecesFrom
    split
    · next hs => rw [ih hl hat, later at' hs]
    next hs =>
    split
    · next hlast =>
      simp only [reduceCtorEq, exists_false, false_iff]
      intro ht
      have := first ht (by omega)
      omega
    next hlast =>
    split
    · next hbad =>
      simp only [reduceCtorEq, exists_false, false_iff]
      intro ht
      have := first ht (by omega)
      omega
    next hgood =>
    simp only [not_or, not_lt, ne_eq, not_not] at hgood
    simp only []
    have covered : ∀ a, at' ≤ a → a ≤ s.last → ∃ u ∈ s :: slots, u.id = id ∧ Covers u a :=
      fun a h1 h2 => ⟨s, mem_cons_self, hgood.1, le_trans hgood.2 h1, h2⟩
    split
    · next hend =>
      simp only [Except.ok.injEq, exists_eq', true_iff]
      intro a h1 h2
      exact covered a h1 (by omega)
    next hend =>
    have hmin : min s.last last = s.last := by omega
    rw [hmin]
    have hrest : (∃ ps, (do
        let rest ← piecesFrom last id slots (s.last + 1)
        Except.ok ((at', s.last, s.ticket) :: rest) :
          Except NestError (List (Nat × Nat × Nat))) = .ok ps) ↔
        ∃ ps, piecesFrom last id slots (s.last + 1) = .ok ps := by
      cases piecesFrom last id slots (s.last + 1) <;> simp [bind, Except.bind]
    rw [hrest, ih hl (by omega), ← later _ (by omega)]
    constructor
    · intro ht a h1 h2
      by_cases ha : a ≤ s.last
      · exact covered a h1 ha
      · exact ht a (by omega) h2
    · intro ht a h1 h2
      exact ht a (by omega) h2

theorem pieces_ok_iff (h : Ordered o.slots) (hle : start ≤ last) :
    (∃ ps, o.pieces room start last id = .ok ps) ↔
      room = true ∧ Tiled o.slots id start last := by
  unfold pieces
  cases room with
  | false => simp
  | true => simpa using piecesFrom_ok_iff h hle

end Occupancy

end Sqware.Nest
