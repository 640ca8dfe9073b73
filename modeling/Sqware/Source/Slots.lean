import Sqware.Source.Authorization

/-!
# Slots of a source

What the sections of a source do to its slots.  A slot only comes with its child, in `split`, and
only goes when that child is finished.  All other changes leave the slots of every record alone but
for such ends: the worlds are `Alike`, which keeps the invariant, and what was dropped is spent
(`Sheds`, `Drops`).
-/

namespace Sqware.Source

open List

open Ledger (Token TaskId PieFail Permission Window)

/-! ## The invariant -/

/-- Windows that share no page. -/
def Apart (a b : Window) : Prop := a.offset + a.count ≤ b.offset ∨ b.offset + b.count ≤ a.offset

/-- The child names the record and the geometry of its slot, and nobody else names that geometry. -/
structure Inv (window : Token → Option Window) (w : World) : Prop where
  known : ∀ {i r}, w.records i = some r → i < w.nextRecord
  apart : ∀ {i r}, w.records i = some r →
    r.derivations.Pairwise fun x y => Apart x.geometry.window y.geometry.window
  inside : ∀ {i r x}, w.records i = some r → x ∈ r.derivations →
    x.geometry.window.Within r.whole ∧ x.geometry.window ≠ r.whole
  branch : ∀ {i r x}, w.records i = some r → x ∈ r.derivations →
    x.geometry.window.Within ((window x.token).getD r.whole)
  older : ∀ {i r p g}, w.records i = some r → r.lineage = some (p, g) →
    p < i ∧ g.id < w.nextGeometry
  fresh : ∀ {i r x}, w.records i = some r → x ∈ r.derivations →
    x.geometry.id < w.nextGeometry ∧ x.child < w.nextRecord
  born : ∀ {i r x c}, w.records i = some r → x ∈ r.derivations → w.records x.child = some c →
    c.lineage = some (i, x.geometry)
  sole : ∀ {i r x j c p g}, w.records i = some r → x ∈ r.derivations → w.records j = some c →
    c.lineage = some (p, g) → g.id = x.geometry.id → x.child = j

/-- The records of the second world are among those of the first, with the same source and lineage
and no slot that was not there. -/
structure Alike (w w' : World) : Prop where
  nextRecord : w'.nextRecord = w.nextRecord
  nextGeometry : w.nextGeometry ≤ w'.nextGeometry
  record : ∀ {i r'}, w'.records i = some r' → ∃ r, w.records i = some r ∧ r'.pages = r.pages ∧
    r'.lineage = r.lineage ∧ r'.derivations.Sublist r.derivations

variable {w1 w2 w : World} {window : Token → Option Window} {i : RecordId} {r : Authorization}

theorem whole_congr {r' : Authorization} (h : r'.pages = r.pages) : r'.whole = r.whole := by
  simp only [Authorization.whole, h]

variable {w' : World}

/-- Every record keeps its source and its lineage; its slots are some of those it had, of branches
at least as wide. -/
theorem Inv.moved (hi : Inv window w)
    (hrecord : w'.nextRecord = w.nextRecord) (hgeometry : w.nextGeometry ≤ w'.nextGeometry)
    (h : ∀ {i r'}, w'.records i = some r' → ∃ r l, ∃ t : Derivation → Derivation,
      w.records i = some r ∧ r'.pages = r.pages ∧ r'.lineage = r.lineage ∧
      List.Sublist l r.derivations ∧ r'.derivations = l.map t ∧
      ∀ x, (t x).geometry = x.geometry ∧ (t x).child = x.child ∧
        ((window x.token).getD r.whole).Within ((window (t x).token).getD r.whole)) :
    Inv window w' := by
  have hslot : ∀ {i r' x'}, w'.records i = some r' → x' ∈ r'.derivations →
      ∃ r x, w.records i = some r ∧ r'.whole = r.whole ∧ x ∈ r.derivations ∧
        x'.geometry = x.geometry ∧ x'.child = x.child ∧
        ((window x.token).getD r.whole).Within ((window x'.token).getD r.whole) := by
    intro i r' x' hr' hx'
    obtain ⟨r, l, t, hr, hp, _, hs, hd, ht⟩ := h hr'
    obtain ⟨x, hx, rfl⟩ := mem_map.1 (hd ▸ hx')
    exact ⟨r, x, hr, whole_congr hp, hs.subset hx, ht x⟩
  have hline : ∀ {i r'}, w'.records i = some r' →
      ∃ r, w.records i = some r ∧ r'.lineage = r.lineage := by
    intro i r' hr'
    obtain ⟨r, _, _, hr, _, hl, _⟩ := h hr'
    exact ⟨r, hr, hl⟩
  constructor
  case known =>
    intro i r' hr'
    obtain ⟨r, hr, _⟩ := hline hr'
    exact hrecord ▸ hi.known hr
  case apart =>
    intro i r' hr'
    obtain ⟨r, l, t, hr, _, _, hs, hd, ht⟩ := h hr'
    rw [hd, pairwise_map]
    exact ((hi.apart hr).sublist hs).imp fun hx => by rwa [(ht _).1, (ht _).1]
  case inside =>
    intro i r' x' hr' hx'
    obtain ⟨r, x, hr, hw, hx, hg, _⟩ := hslot hr' hx'
    rw [hg, hw]
    exact hi.inside hr hx
  case branch =>
    intro i r' x' hr' hx'
    obtain ⟨r, x, hr, hw, hx, hg, _, hb⟩ := hslot hr' hx'
    rw [hg, hw]
    exact (hi.branch hr hx).trans hb
  case older =>
    intro i r' p g hr' hl
    obtain ⟨r, hr, hl'⟩ := hline hr'
    obtain ⟨hlt, hg⟩ := hi.older hr (hl' ▸ hl)
    exact ⟨hlt, hg.trans_le hgeometry⟩
  case fresh =>
    intro i r' x' hr' hx'
    obtain ⟨r, x, hr, _, hx, hg, hc, _⟩ := hslot hr' hx'
    obtain ⟨hlt, hlt'⟩ := hi.fresh hr hx
    rw [hg, hc]
    exact ⟨hlt.trans_le hgeometry, hrecord ▸ hlt'⟩
  case born =>
    intro i r' x' c' hr' hx' hc'
    obtain ⟨r, x, hr, _, hx, hg, hc, _⟩ := hslot hr' hx'
    obtain ⟨c, hchild, hl⟩ := hline hc'
    rw [hl, hg]
    exact hi.born hr hx (hc ▸ hchild)
  case sole =>
    intro i r' x' j c' p g hr' hx' hc' hl he
    obtain ⟨r, x, hr, _, hx, hg, hc, _⟩ := hslot hr' hx'
    obtain ⟨c, hchild, hl'⟩ := hline hc'
    rw [hc]
    exact hi.sole hr hx hchild (hl' ▸ hl) (hg ▸ he)

theorem Inv.alike (hi : Inv window w) (h : Alike w w') : Inv window w' := by
  refine hi.moved h.nextRecord h.nextGeometry fun hr' => ?_
  obtain ⟨r, hr, hp, hl, hs⟩ := h.record hr'
  exact ⟨r, _, id, hr, hp, hl, hs, (map_id _).symm, fun _ => ⟨rfl, rfl, .refl _⟩⟩

/-! ## Changing a record in place -/

section
variable {w : World} {i j : RecordId} {f : Authorization → Authorization}

theorem records_modify :
    (w.modify i f).records j = if j = i then (w.records j).map f else w.records j := rfl

theorem modify_eq_some {r' : Authorization} (h : (w.modify i f).records j = some r') :
    ∃ r, w.records j = some r ∧ r' = if j = i then f r else r := by
  rw [records_modify] at h
  split at h
  · next hj =>
    obtain ⟨r, hr, rfl⟩ := Option.map_eq_some_iff.1 h
    exact ⟨r, hr, (if_pos hj).symm⟩
  · next hj => exact ⟨r', h, (if_neg hj).symm⟩

theorem modify_modify (g : Authorization → Authorization) :
    (w.modify i f).modify i g = w.modify i fun r => g (f r) := by
  unfold World.modify
  congr 1
  funext j
  by_cases hj : j = i <;> simp [hj, Function.comp_def]

end

/-! ## Slots that end -/

/-- The child of the slot is there and finished. -/
def Spent (w : World) (x : Derivation) : Prop :=
  ∃ c, w.records x.child = some c ∧ c.finished = true

/-- Nothing but slots differs, and the slots dropped are spent. -/
structure Sheds (w w' : World) : Prop where
  nextRecord : w'.nextRecord = w.nextRecord
  nextGeometry : w'.nextGeometry = w.nextGeometry
  none : ∀ {i}, w.records i = none → w'.records i = none
  record : ∀ {i r}, w.records i = some r → ∃ l, w'.records i = some { r with derivations := l } ∧
    l.Sublist r.derivations ∧ ∀ x ∈ r.derivations, x ∉ l → Spent w' x

theorem finished_derivations (h : r.finished = true) : r.derivations = [] := by
  simp only [Authorization.finished, Bool.and_eq_true, List.isEmpty_iff] at h
  exact h.1.1.1.2

theorem Sheds.refl (w : World) : Sheds w w :=
  ⟨rfl, rfl, id, fun hr => ⟨_, hr, .refl _, fun _ hx hn => (hn hx).elim⟩⟩

/-- A finished record has no slots to lose. -/
theorem Sheds.finished (h : Sheds w w') {c : Authorization}
    (hc : w.records i = some c) (hf : c.finished = true) : w'.records i = some c := by
  obtain ⟨l, hl, hsub, _⟩ := h.record hc
  have hd := finished_derivations hf
  rw [hd] at hsub
  rw [hl, sublist_nil.1 hsub, ← hd]

theorem Sheds.trans {w3 : World} (h : Sheds w1 w2) (h' : Sheds w2 w3) : Sheds w1 w3 := by
  refine ⟨h'.nextRecord.trans h.nextRecord, h'.nextGeometry.trans h.nextGeometry,
    fun hi => h'.none (h.none hi), fun hr => ?_⟩
  obtain ⟨l, hl, hsub, hdrop⟩ := h.record hr
  obtain ⟨l', hl', hsub', hdrop'⟩ := h'.record hl
  refine ⟨l', hl', hsub'.trans hsub, fun x hx hn => ?_⟩
  by_cases hm : x ∈ l
  · exact hdrop' x hm hn
  · obtain ⟨c, hc, hf⟩ := hdrop x hx hm
    exact ⟨c, h'.finished hc hf, hf⟩

theorem Sheds.alike (h : Sheds w w') : Alike w w' := by
  refine ⟨h.nextRecord, h.nextGeometry.ge, fun {i _} hr' => ?_⟩
  cases hr : w.records i with
  | none =>
    rw [h.none hr] at hr'
    simp at hr'
  | some r =>
    obtain ⟨l, hl, hsub, _⟩ := h.record hr
    cases hl.symm.trans hr'
    exact ⟨r, rfl, rfl, rfl, hsub⟩

/-- Dropping slots of one record whose children are others and finished. -/
theorem filter_sheds {p : Derivation → Bool}
    (h : ∀ {r x}, w.records i = some r → x ∈ r.derivations → p x = false →
      x.child ≠ i ∧ Spent w x) :
    Sheds w (w.modify i fun r => { r with derivations := r.derivations.filter p }) := by
  refine ⟨rfl, rfl, fun hj => ?_, fun {j r} hr => ?_⟩
  · rw [records_modify, hj]
    simp
  by_cases hj : j = i
  · subst hj
    refine ⟨r.derivations.filter p, by rw [records_modify, if_pos rfl, hr]; rfl,
      filter_sublist, fun x hx hn => ?_⟩
    have hp : p x = false := by
      by_contra hp
      exact hn (mem_filter.2 ⟨hx, by simpa using hp⟩)
    obtain ⟨hne, c, hc, hf⟩ := h hr hx hp
    exact ⟨c, by rw [records_modify, if_neg hne, hc], hf⟩
  · exact ⟨r.derivations, by rw [records_modify, if_neg hj, hr], .refl _,
      fun x hx hn => (hn hx).elim⟩

section
variable {window : Token → Option Window} {w : World} (hi : Inv window w)
include hi

theorem child_ne {x : Derivation} {c : Authorization} (hr : w.records i = some r)
    (hx : x ∈ r.derivations) (hc : w.records x.child = some c) : x.child ≠ i :=
  (hi.older hc (hi.born hr hx hc)).1.ne'

theorem reap_sheds (i : RecordId) : Sheds w (w.reapDerivations i) := by
  refine filter_sheds fun hr hx hp => ?_
  rw [Bool.not_eq_eq_eq_not, Bool.not_false, World.derivationDone, Option.any_eq_true] at hp
  obtain ⟨c, hc, hf⟩ := hp
  exact ⟨child_ne hi hr hx hc, c, hc, hf⟩

end

theorem settleLoop_sheds (n : Nat) (hi : Inv window w)
    (i : RecordId) : Sheds w (World.settleLoop n w i) := by
  induction n generalizing w i with
  | zero => exact .refl w
  | succ n ih =>
    unfold World.settleLoop
    split
    · exact .refl w
    next r hr =>
    split
    · exact .refl w
    next hf =>
    split
    · exact .refl w
    next p g hl =>
    have hs : Sheds w (w.releaseDerivation p g) := by
      refine filter_sheds fun {_ x} hr' hx hp => ?_
      have he : g.id = x.geometry.id := (not_not.1 (of_decide_eq_false hp)).symm
      -- only the record's own slot has the geometry it was born with
      have hchild := hi.sole hr' hx hr hl he
      exact ⟨hchild ▸ (hi.older hr hl).1.ne', r, hchild ▸ hr, by simpa using hf⟩
    exact hs.trans (ih (hi.alike hs.alike) p)

/-- Going up a lineage drops spent slots only. -/
theorem settle_sheds (hi : Inv window w)
    (i : RecordId) : Sheds w (w.settle i) := settleLoop_sheds _ hi i

theorem settleIf_sheds (hi : Inv window w)
    (i : RecordId) (empty : Authorization → Bool) : Sheds w (w.settleIf i empty) := by
  unfold World.settleIf
  split
  · exact settle_sheds hi i
  · exact .refl w

/-- A slot of a record in both worlds is there still, or spent. -/
def Drops (w w' : World) : Prop :=
  ∀ i r r' x, w.records i = some r → w'.records i = some r' → x ∈ r.derivations →
    (∃ y ∈ r'.derivations, y.geometry = x.geometry ∧ y.child = x.child) ∨ Spent w' x

theorem Drops.of_same (h : ∀ {i r r'}, w.records i = some r → w'.records i = some r' → r' = r) :
    Drops w w' := fun _ _ _ _ hr hr' hx => .inl ⟨_, h hr hr' ▸ hx, rfl, rfl⟩

theorem Drops.refl (w : World) : Drops w w :=
  .of_same fun hr hr' => Option.some.inj (hr'.symm.trans hr)

theorem Spent.congr {x y : Derivation} (h : Spent w y) (hc : y.child = x.child) : Spent w x := by
  rwa [Spent, hc] at h

theorem Drops.sheds (h : Drops w w1) (hs : Sheds w1 w2) : Drops w w2 := by
  intro i r r2 x hr hr2 hx
  cases hr1 : w1.records i with
  | none =>
    rw [hs.none hr1] at hr2
    simp at hr2
  | some r1 =>
    obtain ⟨l, hl, _, hdrop⟩ := hs.record hr1
    cases hl.symm.trans hr2
    rcases h _ _ _ _ hr hr1 hx with ⟨y, hy, hg, hc⟩ | ⟨c, hc, hf⟩
    · by_cases hm : y ∈ l
      · exact .inl ⟨y, hm, hg, hc⟩
      · exact .inr ((hdrop y hy hm).congr hc)
    · exact .inr ⟨c, hs.finished hc hf, hf⟩

/-- A change of a record that keeps its slots, up to the branch they are filed under. -/
def Keeps (f : Authorization → Authorization) : Prop :=
  ∀ r, ∀ x ∈ r.derivations, ∃ y ∈ (f r).derivations, y.geometry = x.geometry ∧ y.child = x.child

variable {f : Authorization → Authorization}

theorem Keeps.of_eq (h : ∀ r, (f r).derivations = r.derivations) : Keeps f :=
  fun r x hx => ⟨x, (h r).symm ▸ hx, rfl, rfl⟩

theorem drops_modify (hf : Keeps f) : Drops w (w.modify i f) := by
  intro j r r' x hr hr' hx
  obtain ⟨r0, hr0, rfl⟩ := modify_eq_some hr'
  cases hr.symm.trans hr0
  split
  · exact .inl (hf r x hx)
  · exact .inl ⟨x, hx, rfl, rfl⟩

/-- A record that is not finished stands behind no spent slot, so it may change. -/
theorem Drops.modify (h : Drops w w1)
    (hf : Keeps f) (hn : ∀ r, w1.records i = some r → r.finished = false) :
    Drops w (w1.modify i f) := by
  intro j r r' x hr hr' hx
  obtain ⟨r1, hr1, rfl⟩ := modify_eq_some hr'
  rcases h _ _ _ _ hr hr1 hx with ⟨y, hy, hg, hc⟩ | ⟨c, hc, hfin⟩
  · split
    · obtain ⟨z, hz, hg', hc'⟩ := hf r1 y hy
      exact .inl ⟨z, hz, hg'.trans hg, hc'.trans hc⟩
    · exact .inl ⟨y, hy, hg, hc⟩
  have hne : x.child ≠ i := by
    rintro rfl
    rw [hn c hc] at hfin
    simp at hfin
  exact .inr ⟨c, by rw [records_modify, if_neg hne, hc], hfin⟩

/-- The slots reaped from a record are not its own child, finished or not. -/
theorem drops_reap_modify (hi : Inv window w) (hf : Keeps f) :
    Drops w ((w.reapDerivations i).modify i f) := by
  intro j r r' x hr hr' hx
  obtain ⟨r1, hr1, rfl⟩ := modify_eq_some hr'
  obtain ⟨r0, hr0, rfl⟩ := modify_eq_some hr1
  cases hr.symm.trans hr0
  by_cases hj : j = i
  · subst hj
    rw [if_pos rfl, if_pos rfl]
    cases hd : w.derivationDone x with
    | false => exact .inl (hf _ x (mem_filter.2 ⟨hx, by rw [hd]; rfl⟩))
    | true =>
      obtain ⟨c, hc, hfin⟩ := (Option.any_eq_true _ _).1 hd
      have hne := child_ne hi hr hx hc
      exact .inr ⟨c, by rw [records_modify, if_neg hne, World.reapDerivations, records_modify,
        if_neg hne, hc], hfin⟩
  · rw [if_neg hj, if_neg hj]
    exact .inl ⟨x, hx, rfl, rfl⟩

theorem drops_reap (hi : Inv window w) (i : RecordId) : Drops w (w.reapDerivations i) :=
  (Drops.refl w).sheds (reap_sheds hi i)

/-! ## Admission -/

/-- No slot of the record meets the window. -/
def Clear (w : World) (i : RecordId) (request : Window) : Prop :=
  ∀ r x, w.records i = some r → x ∈ r.derivations → Apart x.geometry.window request

variable {request : Window}

theorem Clear.alike (h : Clear w i request) (ha : Alike w w') : Clear w' i request := by
  intro r' x hr' hx
  obtain ⟨r, hr, _, _, hs⟩ := ha.record hr'
  exact h _ x hr (hs.subset hx)

section
variable {window : Token → Option Window} {w : World} (hi : Inv window w)
include hi

theorem checkUse_spec (i : RecordId) (request : Window) :
    (w.checkUse i request).2 = w.reapDerivations i ∧
      ((w.checkUse i request).1 = .ok () → Clear (w.reapDerivations i) i request) := by
  refine ⟨rfl, fun h r x hr hx => ?_⟩
  simp only [World.checkUse] at h
  split at h
  · simp at h
  next hu =>
  rw [hr] at hu
  simp only [Option.any_some, Authorization.used, any_eq_true, not_exists, not_and] at hu
  have hi' := hi.alike (reap_sheds hi i).alike
  -- slots do not reach past the source, so no sum that saturates hides a meeting
  have hin := (hi'.inside hr hx).1.2
  have hpos := x.geometry.window.pos
  have hbound := r.bound
  have hno : x.geometry.overlaps request = false := by simpa using hu x hx
  simp only [Geometry.overlaps, Bool.and_eq_false_iff, decide_eq_false_iff_not, Nat.not_lt] at hno
  unfold saturatingAdd at hno
  unfold Apart
  unfold Authorization.whole at hin
  dsimp only at hin
  omega

theorem checkPublish_spec (i : RecordId) (request : Window) (own : Option Nat) :
    (w.checkPublish i request own).2 = w.reapDerivations i ∧
      ((w.checkPublish i request own).1 = .ok () → Clear (w.reapDerivations i) i request) := by
  obtain ⟨hw, hc⟩ := checkUse_spec hi i request
  unfold World.checkPublish
  split
  next e w' he =>
    rw [he] at hw
    exact ⟨hw, by simp⟩
  next w' he =>
    rw [he] at hw hc
    exact ⟨hw, fun _ => hc rfl⟩

/-- An admission that succeeds leaves no slot in its window. -/
theorem check_clear {own : Option Nat} (h : w.checkPublish i request own = (.ok (), w')) :
    w' = w.reapDerivations i ∧ Clear w' i request := by
  obtain ⟨hw, hc⟩ := checkPublish_spec hi i request own
  rw [h] at hw hc
  change w' = _ at hw
  exact ⟨hw, hw ▸ hc rfl⟩

theorem check_error {own : Option Nat} {e : PieFail}
    (h : w.checkPublish i request own = (.error e, w')) : w' = w.reapDerivations i := by
  rw [← (checkPublish_spec hi i request own).1, h]

end

/-! ## A part that is split off -/

variable {permission : Permission} {parent : RecordId} {branch token : Token}
  {h : request.count * pageSize < usizeSize}

/-- One record is new, without slots; an old one may have got the slot of it. -/
structure Grows (w : World) (lineage : Option (RecordId × Geometry))
    (slots : RecordId → List Derivation) (w' : World) : Prop where
  nextRecord : w'.nextRecord = w.nextRecord + 1
  nextGeometry : w.nextGeometry ≤ w'.nextGeometry
  record : ∀ {i r'}, w'.records i = some r' →
    (i = w.nextRecord ∧ r'.derivations = [] ∧ r'.lineage = lineage) ∨
    (i ≠ w.nextRecord ∧ ∃ r, w.records i = some r ∧ r'.whole = r.whole ∧ r'.lineage = r.lineage ∧
      r'.derivations = r.derivations ++ slots i)

theorem split_grows : Grows w (some (parent, ⟨w.nextGeometry, request⟩))
    (fun i => if i = parent then [⟨branch, ⟨w.nextGeometry, request⟩, w.nextRecord⟩] else [])
    (w.split parent branch token permission request h) := by
  refine ⟨rfl, Nat.le_succ _, fun {i _} hr' => ?_⟩
  simp only [World.split] at hr'
  split at hr'
  · next hj =>
    cases hr'
    exact .inl ⟨hj, rfl, rfl⟩
  next hj =>
  obtain ⟨r, hr, rfl⟩ := modify_eq_some hr'
  refine .inr ⟨hj, r, hr, ?_⟩
  split
  · exact ⟨rfl, rfl, rfl⟩
  · exact ⟨rfl, rfl, (append_nil _).symm⟩

theorem drops_split (hi : Inv window w) :
    Drops w ((w.reapDerivations parent).split parent branch token permission request h) := by
  intro i r r' x hr hr' hx
  have hne : i ≠ w.nextRecord := (hi.known hr).ne
  have hmod := drops_reap_modify hi (i := parent) (f := fun r => { r with derivations :=
    r.derivations ++ [⟨branch, ⟨w.nextGeometry, request⟩, w.nextRecord⟩] })
    fun _ y hy => ⟨y, mem_append_left _ hy, rfl, rfl⟩
  rcases hmod _ _ _ _ hr ((if_neg hne).symm.trans hr') hx with hkept | ⟨c, hc, hf⟩
  · exact .inl hkept
  · exact .inr ⟨c, (if_neg (hi.fresh hr hx).2.ne).trans hc, hf⟩

/-- The new record is the child of its slot, whose window is inside the source and the branch and
meets no other. -/
theorem Inv.grows (hi : Inv window w) {lineage : Option (RecordId × Geometry)}
    {slots : RecordId → List Derivation} (hg : Grows w lineage slots w')
    (hline : ∀ {p g}, lineage = some (p, g) → p < w.nextRecord ∧ g.id = w.nextGeometry ∧
      w.nextGeometry < w'.nextGeometry)
    (hone : ∀ i, (slots i).length ≤ 1)
    (hslot : ∀ {i r x}, w.records i = some r → x ∈ slots i →
      x.child = w.nextRecord ∧ lineage = some (i, x.geometry) ∧
      (∀ y ∈ r.derivations, Apart y.geometry.window x.geometry.window) ∧
      (x.geometry.window.Within r.whole ∧ x.geometry.window ≠ r.whole) ∧
      x.geometry.window.Within ((window x.token).getD r.whole)) : Inv window w' := by
  obtain ⟨hrecord, hgeometry, hcases⟩ := hg
  have hlt : w.nextRecord < w'.nextRecord := hrecord ▸ Nat.lt_succ_self _
  have hmem : ∀ {i r' x}, w'.records i = some r' → x ∈ r'.derivations → ∃ r, w.records i = some r ∧
      r'.whole = r.whole ∧ (x ∈ r.derivations ∨ x ∈ slots i) := by
    intro i r' x hr' hx
    rcases hcases hr' with ⟨_, hd, _⟩ | ⟨_, r, hr, hw, _, hd⟩
    · simp [hd] at hx
    · exact ⟨r, hr, hw, mem_append.1 (hd ▸ hx)⟩
  constructor
  case known =>
    intro i r' hr'
    rcases hcases hr' with ⟨rfl, _⟩ | ⟨_, r, hr, _⟩
    · exact hlt
    · exact (hi.known hr).trans hlt
  case apart =>
    intro i r' hr'
    rcases hcases hr' with ⟨_, hd, _⟩ | ⟨_, r, hr, _, _, hd⟩
    · exact hd ▸ List.Pairwise.nil
    rw [hd, pairwise_append]
    refine ⟨hi.apart hr, ?_, fun x hx y hy => (hslot hr hy).2.2.1 x hx⟩
    match slots i, hone i with
    | [], _ => exact List.Pairwise.nil
    | [x], _ => exact pairwise_singleton _ x
  case inside =>
    intro i r' x hr' hx
    obtain ⟨r, hr, hw, hx | hx⟩ := hmem hr' hx
    · exact hw ▸ hi.inside hr hx
    · exact hw ▸ (hslot hr hx).2.2.2.1
  case branch =>
    intro i r' x hr' hx
    obtain ⟨r, hr, hw, hx | hx⟩ := hmem hr' hx
    · exact hw ▸ hi.branch hr hx
    · exact hw ▸ (hslot hr hx).2.2.2.2
  case older =>
    intro i r' p g hr' hl
    rcases hcases hr' with ⟨rfl, _, hl'⟩ | ⟨_, r, hr, _, hl', _⟩
    · obtain ⟨hp, hid, hnext⟩ := hline (hl'.symm.trans hl)
      exact ⟨hp, hid ▸ hnext⟩
    · obtain ⟨hp, hid⟩ := hi.older hr (hl' ▸ hl)
      exact ⟨hp, hid.trans_le hgeometry⟩
  case fresh =>
    intro i r' x hr' hx
    obtain ⟨r, hr, _, hx | hx⟩ := hmem hr' hx
    · obtain ⟨hid, hc⟩ := hi.fresh hr hx
      exact ⟨hid.trans_le hgeometry, hc.trans hlt⟩
    · obtain ⟨hc, hl, _⟩ := hslot hr hx
      obtain ⟨_, hid, hnext⟩ := hline hl
      exact ⟨hid ▸ hnext, hc ▸ hlt⟩
  case born =>
    intro i r' x c hr' hx hc
    obtain ⟨r, hr, _, hx | hx⟩ := hmem hr' hx
    · rcases hcases hc with ⟨he, _⟩ | ⟨_, c0, hc0, _, hl, _⟩
      · exact absurd he (hi.fresh hr hx).2.ne
      · exact hl.trans (hi.born hr hx hc0)
    obtain ⟨hchild, hl, _⟩ := hslot hr hx
    rcases hcases hc with ⟨_, _, hl'⟩ | ⟨hn, _⟩
    · exact hl'.trans hl
    · exact absurd hchild hn
  case sole =>
    intro i r' x j c p g hr' hx hc hl he
    obtain ⟨r, hr, _, hx | hx⟩ := hmem hr' hx
    · rcases hcases hc with ⟨_, _, hl'⟩ | ⟨_, c0, hc0, _, hl', _⟩
      · exact absurd (he.symm.trans (hline (hl'.symm.trans hl)).2.1) (hi.fresh hr hx).1.ne
      · exact hi.sole hr hx hc0 (hl' ▸ hl) he
    obtain ⟨hchild, hl', _⟩ := hslot hr hx
    rcases hcases hc with ⟨hj, _⟩ | ⟨_, c0, hc0, _, hl0, _⟩
    · exact hchild.trans hj.symm
    · exact absurd (he.trans (hline hl').2.1) (hi.older hc0 (hl0 ▸ hl)).2.ne

end Sqware.Source
