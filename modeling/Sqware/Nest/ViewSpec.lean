import Mathlib.Data.List.Chain
import Mathlib.Data.Set.List
import Sqware.Nest.View

/-!
# What the operations of a View do

The active ranges of a View are an ordered table of spans, and the permission at a page is that of
the range that covers it.
-/

namespace Sqware.Nest

open Spans List Option Function

instance : Spanned ActiveRange := ⟨ActiveRange.start, ActiveRange.last⟩

namespace ActiveRange

@[simp] theorem lo_range (r : ActiveRange) : lo r = r.start := rfl

@[simp] theorem hi_range (r : ActiveRange) : hi r = r.last := rfl

variable {p : Nat}

theorem contains_iff {r : ActiveRange} : r.contains p = true ↔ Covers r p := by
  simp [contains, Covers]

theorem start_le_last (r : ActiveRange) : r.start ≤ r.last := Nat.le_add_right _ _

theorem last_succ (r : ActiveRange) : r.last + 1 = r.start + r.size := by
  have := r.pos
  unfold last
  omega

theorem currentAt_eq (rs : List ActiveRange) (p : Nat) :
    currentAt rs p = (covering rs p).map (·.current) := by
  have hc : (fun r : ActiveRange => r.contains p) = fun r => decide (Covers r p) := by
    funext r
    rw [Bool.eq_iff_iff, contains_iff, decide_eq_true_eq]
  simp only [currentAt, covering, hc]

variable {rs : List ActiveRange}

theorem currentAt_eq_some (h : Ordered rs) {c : LeafAccess} :
    currentAt rs p = some c ↔ ∃ r ∈ rs, Covers r p ∧ r.current = c := by
  rw [currentAt_eq, map_eq_some_iff]
  constructor
  · rintro ⟨r, hr, hc⟩
    exact ⟨r, (mem_of_covering hr).1, (mem_of_covering hr).2, hc⟩
  · rintro ⟨r, hr, hp, hc⟩
    exact ⟨r, (covering_eq_some_iff h).2 ⟨hr, hp⟩, hc⟩

theorem isSome_currentAt : (currentAt rs p).isSome ↔ ∃ r ∈ rs, Covers r p := by
  rw [currentAt_eq, isSome_map, isSome_covering_iff]

/-! ## Covering a window -/

theorem cover_eq (rs : List ActiveRange) (from' hi : Nat) :
    cover rs from' hi = reaches rs from' hi := by
  induction rs generalizing from' with
  | nil => rfl
  | cons r rs ih => simp only [cover, reaches, ih, lo_range, hi_range]

/-! ## Splitting a range -/

theorem ordered_one (r : ActiveRange) : Ordered [r] := ordered_singleton r.start_le_last

variable {r : ActiveRange} {lo' hi' : Nat}

theorem overlaps_iff : r.overlaps lo' hi' = true ↔ lo r ≤ hi' ∧ lo' ≤ hi r := by
  simp [overlaps]

theorem cut_self (ho : r.overlaps lo' hi' = false) {c : Option LeafAccess} :
    Cut current lo' hi' c r [r] :=
  cut_apart r.start_le_last fun h => by simp [overlaps_iff.2 h] at ho

theorem piece_before : Piece current (r.before lo') (lo r) (lo' - 1)
    (if lo r < lo' then some r.current else none) := by
  unfold before
  split
  · next h =>
    refine .inr ⟨_, rfl, rfl, ?_, by simp only [lo_range]; omega, if_pos h⟩
    simp only [hi_range, last]
    omega
  · next h => exact .inl ⟨rfl, if_neg h⟩

theorem piece_after : Piece current (r.after hi') (hi' + 1) (hi r)
    (if hi' < hi r then some r.current else none) := by
  unfold after
  split
  · next h =>
    refine .inr ⟨_, rfl, rfl, ?_, h, if_pos h⟩
    change hi' + 1 + (r.last - hi' - 1) = r.last
    omega
  · next h => exact .inl ⟨rfl, if_neg h⟩

variable {ceiling : Access} {next : List ActiveRange}

theorem narrow_cons (h : narrow lo' hi' ceiling (r :: rs) = .ok next) : ∃ part rest,
    r.narrowOne lo' hi' ceiling = .ok part ∧ narrow lo' hi' ceiling rs = .ok rest ∧
      next = part ++ rest := by
  unfold narrow at h
  split at h
  · cases h
  next part hr =>
  split at h
  · cases h
  next rest hrs =>
  cases h
  exact ⟨part, rest, hr, hrs, rfl⟩

variable (hle : lo' ≤ hi')

include hle

theorem piece_middle (ho : r.overlaps lo' hi' = true) (ceiling : Access) (c : LeafAccess) :
    Piece current [r.middle lo' hi' ceiling c] (max (lo r) lo') (min (hi r) hi') (some c) := by
  have h1 := overlaps_iff.1 ho
  have h2 := r.start_le_last
  simp only [lo_range, hi_range] at *
  refine .inr ⟨_, rfl, rfl, ?_, by omega, rfl⟩
  simp only [hi_range, middle]
  rw [last]
  dsimp only
  omega

/-- What one range becomes: in order, inside it, and the same outside the window. -/
theorem splitOne_cut (r : ActiveRange) (access : Option LeafAccess) :
    Cut current lo' hi' access r (r.splitOne lo' hi' access) := by
  unfold splitOne
  cases ho : r.overlaps lo' hi' with
  | false => exact cut_self ho
  | true =>
    obtain ⟨h1, h2⟩ := overlaps_iff.1 ho
    refine cut_parts hle h1 h2 piece_before ?_ piece_after
    cases access with
    | none => exact .inl ⟨rfl, rfl⟩
    | some c => exact piece_middle hle ho r.ceiling c

/-- `split` takes pages out or changes their permission, and nothing else. -/
theorem split_spec (h : Ordered rs) (access : Option LeafAccess) :
    Ordered (split rs lo' hi' access) ∧ ∀ p, currentAt (split rs lo' hi' access) p =
      if lo' ≤ p ∧ p ≤ hi' then (currentAt rs p).bind fun _ => access else currentAt rs p := by
  have hcut := fun r (_ : r ∈ rs) => splitOne_cut hle r access
  refine ⟨h.flatMap (cuts_of_cut hcut), fun p => ?_⟩
  simp only [currentAt_eq, bind_map]
  exact covering_cut h hcut p

theorem split_inside {a b : Nat} (access : Option LeafAccess)
    (h : ∀ r ∈ rs, a ≤ r.start ∧ r.last ≤ b) :
    ∀ t ∈ split rs lo' hi' access, a ≤ t.start ∧ t.last ≤ b := by
  intro t ht
  obtain ⟨r, hr, ht⟩ := mem_flatMap.1 ht
  have h1 := (splitOne_cut hle r access).inside t ht
  have h2 := h r hr
  exact ⟨h2.1.trans h1.1, h1.2.trans h2.2⟩

/-! ## Narrowing -/

theorem narrowOne_cut {part : List ActiveRange} (h : r.narrowOne lo' hi' ceiling = .ok part) :
    ∃ c, Cut current lo' hi' (some c) r part := by
  unfold narrowOne at h
  cases ho : r.overlaps lo' hi' with
  | false =>
    cases (if_pos (by simp [ho])).symm.trans h
    exact ⟨r.current, cut_self ho⟩
  | true =>
    simp only [ho, Bool.not_true, Bool.false_eq_true, if_false] at h
    split at h
    · cases h
    split at h
    · next hleaf =>
      cases h
      obtain ⟨h1, h2⟩ := overlaps_iff.1 ho
      exact ⟨_, cut_parts hle h1 h2 piece_before (piece_middle hle ho ceiling _) piece_after⟩
    · cases h

theorem narrow_cut (hn : narrow lo' hi' ceiling rs = .ok next) :
    ∃ (g : ActiveRange → List ActiveRange) (w : ActiveRange → LeafAccess),
      next = rs.flatMap g ∧ ∀ r ∈ rs, Cut current lo' hi' (some (w r)) r (g r) := by
  have : Nonempty LeafAccess := ⟨.read, rfl⟩
  obtain ⟨g, rfl, hg⟩ := flatMap_of_ok (g := narrow lo' hi' ceiling) rfl
    (fun _ _ _ => narrow_cons) hn
  choose! w hw using fun r (hr : r ∈ rs) => narrowOne_cut hle (hg r hr)
  exact ⟨g, w, rfl, hw⟩

/-- `narrow` lowers permissions in the window only. -/
theorem narrow_spec (h : Ordered rs) (hn : narrow lo' hi' ceiling rs = .ok next) :
    Ordered next ∧ (∀ p, (currentAt next p).isSome = (currentAt rs p).isSome) ∧
      ∀ p, ¬ (lo' ≤ p ∧ p ≤ hi') → currentAt next p = currentAt rs p := by
  obtain ⟨g, w, rfl, hcut⟩ := narrow_cut hle hn
  have hcur := covering_cut (w := fun r => some (w r)) h hcut
  simp only [currentAt_eq]
  refine ⟨h.flatMap (cuts_of_cut hcut), fun p => ?_, fun p hp => by rw [hcur, if_neg hp]⟩
  rw [hcur]
  split
  · cases covering rs p <;> rfl
  · rfl

end ActiveRange

/-! ## Runs -/

variable {active : List ActiveRange} {base : Nat}

theorem joins_iff {current : LeafAccess} {previous next : Nat × Nat} :
    joins base active current previous next = true ↔
      next.1 = previous.1 + 1 ∧ next.2 = previous.2 + 1 ∧
        ActiveRange.currentAt active (base + next.1) = some current := by
  simp only [joins, Bool.and_eq_true, decide_eq_true_eq, and_assoc]
  refine and_congr_right fun _ => and_congr_right fun _ => ?_
  cases ActiveRange.currentAt active (base + next.1) with
  | none => simp
  | some c => simp [Subtype.ext_iff]

/-- The frames that go on a run are the next ones by page and by frame; the one after them does
not. -/
theorem joined_spec {current : LeafAccess} {previous : Nat × Nat} {rest : List (Nat × Nat)} :
    ∃ n left, joined base active current previous rest = (n, left) ∧
      rest = (List.range n).map (fun i => (previous.1 + i + 1, previous.2 + i + 1)) ++ left ∧
      (∀ i < n, ActiveRange.currentAt active (base + (previous.1 + i + 1)) = some current) ∧
      ∀ x ∈ left.head?, joins base active current (previous.1 + n, previous.2 + n) x = false := by
  induction rest generalizing previous with
  | nil => exact ⟨0, [], by simp [joined]⟩
  | cons next rest ih =>
    unfold joined
    split
    · next hj =>
      obtain ⟨h1, h2, h3⟩ := joins_iff.1 hj
      obtain ⟨n, left, hjoin, hrest, hcur, hleft⟩ := @ih next
      refine ⟨n + 1, left, by rw [hjoin], ?_, fun i hi => ?_, ?_⟩
      · rw [range_succ_eq_map, map_cons, cons_append, List.map_map]
        refine congrArg₂ _ (Prod.ext h1 h2) (hrest.trans (congrArg (· ++ left) ?_))
        refine map_congr_left fun i _ => ?_
        simp only [comp_apply, h1, h2, Nat.succ_eq_add_one, Prod.mk.injEq]
        omega
      · cases i with
        | zero => rwa [Nat.add_zero, ← h1]
        | succ i =>
          have := hcur i (by omega)
          rwa [h1, Nat.add_right_comm _ 1 i, Nat.add_assoc _ i 1] at this
      · rw [h1, h2] at hleft
        simpa only [Nat.add_assoc, Nat.add_comm 1] using hleft
    · next hj => exact ⟨0, _, rfl, rfl, by simp, by simpa using hj⟩

namespace FrameRun

variable (r s : FrameRun)

def Has (q : Nat) : Prop := r.start ≤ q ∧ q < r.start + r.size

/-- The frame a run puts behind a page. -/
def frameOf (q : Nat) : Nat := r.physical + (q - r.start)

/-- The pages of a run with the frames behind them. -/
def frames : List (Nat × Nat) := (List.range r.size).map fun i => (r.start + i, r.physical + i)

/-- One run could go on with the other. -/
def Joinable : Prop :=
  s.start = r.start + r.size ∧ s.physical = r.physical + r.size ∧ s.current = r.current

variable {r}

theorem mem_frames {x : Nat × Nat} : x ∈ r.frames ↔ r.Has x.1 ∧ x.2 = r.frameOf x.1 := by
  simp only [frames, List.mem_map, mem_range, Has, frameOf, Prod.ext_iff]
  constructor
  · rintro ⟨i, hi, h1, h2⟩
    omega
  · exact fun h => ⟨x.1 - r.start, by omega⟩

end FrameRun

/-- The frames one item of the iterator is about. -/
def Stretch (base : Nat) (active : List ActiveRange) (xs : List (Nat × Nat)) :
    Except NestError FrameRun → Prop
  | .ok r => 0 < r.size ∧ xs.map (fun x => (base + x.1, x.2)) = r.frames ∧
    ∀ x ∈ xs, ActiveRange.currentAt active (base + x.1) = some r.current
  | .error _ => ∃ x, xs = [x] ∧ ActiveRange.currentAt active (base + x.1) = none

section stretch

variable {xs : List (Nat × Nat)} {r : FrameRun} {q : Nat}

theorem Stretch.made (h : Stretch base active xs (.ok r)) (hq : r.Has q) :
    ∃ x ∈ xs, base + x.1 = q ∧ x.2 = r.frameOf q := by
  have hm : (q, r.frameOf q) ∈ r.frames := FrameRun.mem_frames.2 ⟨hq, rfl⟩
  rw [← h.2.1] at hm
  obtain ⟨x, hx, he⟩ := List.mem_map.1 hm
  exact ⟨x, hx, congrArg Prod.fst he, congrArg Prod.snd he⟩

theorem Stretch.has (h : Stretch base active xs (.ok r)) {x : Nat × Nat} (hx : x ∈ xs) :
    r.Has (base + x.1) := by
  have hm := List.mem_map_of_mem (f := fun x : Nat × Nat => (base + x.1, x.2)) hx
  rw [h.2.1] at hm
  exact (FrameRun.mem_frames.1 hm).1

theorem Stretch.head (h : Stretch base active xs (.ok r)) : ∃ x ∈ xs.head?,
    base + x.1 = r.start ∧ x.2 = r.physical := by
  obtain ⟨hpos, hmap, _⟩ := h
  obtain ⟨n, hn⟩ := Nat.exists_eq_succ_of_ne_zero hpos.ne'
  cases xs with
  | nil => simp [FrameRun.frames, hn, range_succ_eq_map] at hmap
  | cons x xs =>
    rw [FrameRun.frames, hn, range_succ_eq_map, map_cons, map_cons] at hmap
    have := (List.cons.inj hmap).1
    exact ⟨x, rfl, congrArg Prod.fst this, congrArg Prod.snd this⟩

end stretch

variable {frames : List (Nat × Nat)} {fuel : Nat}

/-- The iterator cuts the frames into stretches, each as long as it can be. -/
theorem frameRuns_parts (hf : frames.length ≤ fuel) :
    ∃ parts : List (List (Nat × Nat) × Except NestError FrameRun),
      frameRuns base active fuel frames = parts.map Prod.snd ∧ frames = parts.flatMap Prod.fst ∧
      (∀ p ∈ parts, Stretch base active p.1 p.2) ∧
      parts.IsChain fun p q => ∀ r s, p.2 = .ok r → q.2 = .ok s → ¬ r.Joinable s := by
  induction fuel generalizing frames with
  | zero =>
    obtain rfl := length_eq_zero_iff.1 (Nat.le_zero.1 hf)
    exact ⟨[], rfl, rfl, by simp, .nil⟩
  | succ n ih =>
    match frames, hf with
    | [], _ => exact ⟨[], rfl, rfl, by simp, .nil⟩
    | first :: rest, hf =>
      rw [length_cons, Nat.add_le_add_iff_right] at hf
      unfold frameRuns
      split
      · next hnone =>
        obtain ⟨parts, hruns, hrest, hall, hchain⟩ := ih hf
        refine ⟨([first], .error .noRegion) :: parts, by rw [hruns, map_cons],
          by rw [flatMap_cons, ← hrest]; rfl, ?_, isChain_cons.2 ⟨by simp, hchain⟩⟩
        exact forall_mem_cons.2 ⟨⟨first, rfl, hnone⟩, hall⟩
      next current hcur =>
      obtain ⟨more, left, hjoin, rfl, htaken, hnext⟩ := @joined_spec active base current first rest
      rw [hjoin]
      obtain ⟨parts, hruns, hleft, hall, hchain⟩ := @ih left (by
        rw [length_append] at hf
        omega)
      refine ⟨(first :: _, .ok ⟨base + first.1, first.2, more + 1, current⟩) :: parts,
        congrArg _ hruns, by rw [flatMap_cons, ← hleft, cons_append], ?_, ?_⟩
      · refine forall_mem_cons.2 ⟨⟨Nat.succ_pos _, ?_, ?_⟩, hall⟩
        · rw [FrameRun.frames, range_succ_eq_map, map_cons, map_cons, List.map_map, List.map_map]
          refine congrArg₂ _ rfl (map_congr_left fun i _ => ?_)
          simp only [comp_apply, Nat.succ_eq_add_one, Nat.add_assoc]
        · refine forall_mem_cons.2 ⟨hcur, fun x hx => ?_⟩
          obtain ⟨i, hi, rfl⟩ := List.mem_map.1 hx
          exact htaken i (mem_range.1 hi)
      refine isChain_cons.2 ⟨fun p hp r s hr hs hj => ?_, hchain⟩
      -- the first frame of the next stretch is the one that did not join
      cases parts with
      | nil => simp at hp
      | cons p' parts =>
        cases hp
        have hp := hall p mem_cons_self
        rw [hs] at hp
        obtain ⟨x, hx, h1, h2⟩ := hp.head
        cases hr
        obtain ⟨hj1, hj2, hj3⟩ := hj
        dsimp only at hj1 hj2
        have hno := hnext x (by rw [hleft, flatMap_cons, head?_append, hx]; rfl)
        have hc := hp.2.2 x (List.mem_of_mem_head? hx)
        have hyes : joins base active current (first.1 + more, first.2 + more) x = true :=
          joins_iff.2 ⟨by omega, by omega, by rw [hc, hj3]⟩
        cases hno.symm.trans hyes

/-- What the runs of some frames are: they lie in order, each is made of frames in a range, every
frame in a range is in one, and without a frame outside the ranges there is no error. -/
structure Groups (base : Nat) (active : List ActiveRange) (frames : List (Nat × Nat))
    (runs : List (Except NestError FrameRun)) : Prop where
  pos : ∀ r, .ok r ∈ runs → 0 < r.size
  apart : runs.Pairwise fun x y => ∀ r s, x = .ok r → y = .ok s → r.start + r.size ≤ s.start
  made : ∀ r, .ok r ∈ runs → ∀ q, r.Has q →
    ∃ x ∈ frames, base + x.1 = q ∧ x.2 = r.frameOf q ∧
      ActiveRange.currentAt active q = some r.current
  found : ∀ x ∈ frames, (ActiveRange.currentAt active (base + x.1)).isSome →
    ∃ r, .ok r ∈ runs ∧ r.Has (base + x.1)

/-- The runs are the frames that lie in a range. -/
theorem frameRuns_spec (hs : frames.Pairwise fun x y => x.1 < y.1) (hf : frames.length ≤ fuel) :
    Groups base active frames (frameRuns base active fuel frames) := by
  obtain ⟨parts, hruns, rfl, hall, -⟩ := @frameRuns_parts active base _ _ hf
  rw [hruns]
  have hpart : ∀ i, i ∈ parts.map Prod.snd → ∃ xs, (xs, i) ∈ parts := by
    intro i hi
    obtain ⟨⟨xs, _⟩, hp, rfl⟩ := List.mem_map.1 hi
    exact ⟨xs, hp⟩
  refine ⟨fun r hr => ?_, ?_, fun r hr q hq => ?_, fun x hx hc => ?_⟩
  · obtain ⟨xs, hp⟩ := hpart _ hr
    exact (hall _ hp).1
  · rw [pairwise_map]
    refine (pairwise_flatMap.1 hs).2.imp_of_mem fun {p q} hp hq hlt r s hr hs => ?_
    have h1 := hall p hp
    have h2 := hall q hq
    rw [hr] at h1
    rw [hs] at h2
    have hpos := h1.1
    have hpos' := h2.1
    obtain ⟨x, hx, hx', -⟩ := h1.made (q := r.start + r.size - 1) (by unfold FrameRun.Has; omega)
    obtain ⟨y, hy, hy', -⟩ := h2.made (q := s.start) (by unfold FrameRun.Has; omega)
    have := hlt x hx y hy
    omega
  · obtain ⟨xs, hp⟩ := hpart _ hr
    obtain ⟨x, hx, rfl, hx2⟩ := (hall _ hp).made hq
    exact ⟨x, mem_flatMap.2 ⟨_, hp, hx⟩, rfl, hx2, (hall _ hp).2.2 x hx⟩
  · obtain ⟨⟨xs, i⟩, hp, hx⟩ := mem_flatMap.1 hx
    cases i with
    | ok r => exact ⟨r, List.mem_map.2 ⟨_, hp, rfl⟩, (hall _ hp).has hx⟩
    | error e =>
      obtain ⟨y, rfl, hy⟩ := hall _ hp
      cases mem_singleton.1 hx
      simp [hy] at hc

theorem frameRuns_fuel {n m : Nat} (hn : frames.length ≤ n) (hm : frames.length ≤ m) :
    frameRuns base active n frames = frameRuns base active m frames := by
  induction n generalizing frames m with
  | zero =>
    obtain rfl := length_eq_zero_iff.1 (Nat.le_zero.1 hn)
    cases m <;> rfl
  | succ n ih =>
    match frames, m, hn, hm with
    | [], 0, _, _ => rfl
    | [], m + 1, _, _ => rfl
    | first :: rest, m + 1, hn, hm =>
      rw [length_cons, Nat.add_le_add_iff_right] at hn hm
      unfold frameRuns
      split
      · rw [ih hn hm]
      next current _ =>
      obtain ⟨more, left, hjoin, hrest, -⟩ := @joined_spec active base current first rest
      have hlen : left.length ≤ rest.length := by
        rw [hrest, length_append]
        omega
      rw [hjoin]
      exact congrArg _ (ih (hlen.trans hn) (hlen.trans hm))

/-- The iterator ends, reports the frames outside the ranges, and otherwise cuts the frames into the
longest runs. -/
theorem frameRuns_partition (base : Nat) (active : List ActiveRange) (frames : List (Nat × Nat)) :
    ∃ items, (∀ fuel ≥ frames.length, frameRuns base active fuel frames = items) ∧
      ((∃ e, .error e ∈ items) ↔
        ∃ x ∈ frames, ∀ t ∈ active, t.contains (base + x.1) = false) ∧
      ((∀ x ∈ frames, ∃ t ∈ active, t.contains (base + x.1) = true) →
        ∃ rs : List FrameRun, items = rs.map .ok ∧
          frames.map (fun x => (base + x.1, x.2)) = rs.flatMap FrameRun.frames ∧
          (∀ r ∈ rs, 0 < r.size ∧
            ∀ x ∈ r.frames, ActiveRange.currentAt active x.1 = some r.current) ∧
          rs.IsChain fun r s => ¬ r.Joinable s) := by
  have hnone : ∀ p, ActiveRange.currentAt active p = none ↔
      ∀ t ∈ active, t.contains p = false := by
    intro p
    simp [ActiveRange.currentAt]
  obtain ⟨parts, hruns, rfl, hall, hchain⟩ := @frameRuns_parts active base frames _ le_rfl
  refine ⟨_, fun fuel hfuel => (frameRuns_fuel hfuel le_rfl).trans hruns, ⟨?_, ?_⟩, fun hin => ?_⟩
  · rintro ⟨e, he⟩
    obtain ⟨⟨xs, _⟩, hp, rfl⟩ := List.mem_map.1 he
    obtain ⟨x, rfl, hx⟩ := hall _ hp
    exact ⟨x, mem_flatMap.2 ⟨_, hp, mem_cons_self⟩, (hnone _).1 hx⟩
  · rintro ⟨x, hx, hout⟩
    obtain ⟨⟨xs, i⟩, hp, hx⟩ := mem_flatMap.1 hx
    cases i with
    | error e => exact ⟨e, List.mem_map.2 ⟨_, hp, rfl⟩⟩
    | ok r =>
      have := (hall _ hp).2.2 x hx
      rw [(hnone _).2 hout] at this
      cases this
  obtain ⟨qs, rfl⟩ : parts ∈ Set.range (map fun q : List (Nat × Nat) × FrameRun =>
      (q.1, Except.ok q.2)) := by
    rw [Set.range_list_map]
    rintro ⟨xs, i⟩ hp
    cases i with
    | ok r => exact ⟨(xs, r), rfl⟩
    | error e =>
      obtain ⟨x, rfl, hx⟩ := hall _ hp
      obtain ⟨t, ht, hc⟩ := hin x (mem_flatMap.2 ⟨_, hp, mem_cons_self⟩)
      rw [(hnone _).1 hx t ht] at hc
      cases hc
  have hall : ∀ q ∈ qs, Stretch base active q.1 (.ok q.2) :=
    fun q hq => hall _ (List.mem_map_of_mem hq)
  refine ⟨qs.map Prod.snd, by simp, ?_, ?_, ?_⟩
  · rw [flatMap_map, flatMap_map, map_flatMap]
    exact flatMap_congr fun q hq => (hall q hq).2.1
  · rintro r hr
    obtain ⟨q, hq, rfl⟩ := List.mem_map.1 hr
    refine ⟨(hall q hq).1, fun x hx => ?_⟩
    rw [← (hall q hq).2.1] at hx
    obtain ⟨y, hy, rfl⟩ := List.mem_map.1 hx
    exact (hall q hq).2.2 y hy
  · rw [isChain_map] at hchain ⊢
    exact hchain.imp fun p q h => h _ _ rfl rfl

end Sqware.Nest
