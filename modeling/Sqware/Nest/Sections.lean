import Sqware.Nest.SpaceSpec
import Sqware.Nest.TableSplit

/-!
# The sections of a Nest, one by one

What the loops over runs, pages and ranges do to the page table, and what each section does to the
state: either it fails and at most splits tables, or it goes through.
-/

namespace Sqware.Nest

open List hiding span

open Spans TableNode ActiveRange

/-! ## Flags -/

namespace Access

theorem toPte_rwx (a : Access) : a.toPte &&& .rwx = a.toPte := by
  revert a
  decide

end Access

namespace View

theorem leafFlags_valid (v : View) (a : Access) : PteFlags.contains (v.leafFlags a) .V = true := by
  have h : ∀ x y : PteFlags, (PteFlags.V ||| x ||| y) &&& .V = .V := by
    intro x y
    ext i hi
    simp only [BitVec.getElem_and, BitVec.getElem_or]
    cases (PteFlags.V)[i] <;> simp
  exact decide_eq_true (h a.toPte v.attrs)

theorem leafFlags_leaf (v : View) {a : Access} (h : a.isLeafSet = true) :
    PteFlags.intersects (v.leafFlags a) .rwx = true := by
  have hp : PteFlags.intersects a.toPte .rwx = true := by
    revert a
    decide
  simp only [PteFlags.intersects, decide_eq_true_eq] at hp ⊢
  intro hz
  apply hp
  have hsub : a.toPte &&& .rwx = (a.toPte &&& .rwx) &&& (v.leafFlags a &&& .rwx) := by
    unfold leafFlags
    ext i hi
    simp only [BitVec.getElem_and, BitVec.getElem_or]
    cases a.toPte[i] <;> simp
  rw [hsub, hz, BitVec.and_zero]

/-- Setting a leaf of the View to other permissions leaves nothing of the old ones. -/
theorem leafFlags_change (v : View) (a b : Access) :
    (v.leafFlags a &&& ~~~PteFlags.rwx) ||| v.leafFlags b = v.leafFlags b := by
  have ha := Access.toPte_rwx a
  unfold leafFlags
  rw [← ha]
  ext i hi
  simp only [BitVec.getElem_and, BitVec.getElem_or, BitVec.getElem_not]
  cases (PteFlags.V)[i] <;> cases v.attrs[i] <;> cases (PteFlags.rwx)[i] <;> simp

end View

/-! ## Runs -/

def FrameRun.chunks (top : Nat) (r : FrameRun) : List Chunk :=
  TableNode.chunks top r.size r.start r.physical r.size

/-- Runs of pages that a table of level `l` has, in order. -/
structure Laid (l : Nat) (runs : List (Except NestError FrameRun)) : Prop where
  fits : ∀ r, .ok r ∈ runs → r.start + r.size ≤ span (l + 1)
  apart : runs.Pairwise fun x y => ∀ r s, x = .ok r → y = .ok s → r.start + r.size ≤ s.start

variable {runs : List (Except NestError FrameRun)} {l : Nat}

theorem Laid.tail {x : Except NestError FrameRun} (h : Laid l (x :: runs)) : Laid l runs :=
  ⟨fun r hr => h.fits r (mem_cons_of_mem _ hr), (pairwise_cons.1 h.apart).2⟩

theorem Laid.before {r s : FrameRun} (h : Laid l (.ok r :: runs)) (hs : .ok s ∈ runs) :
    r.start + r.size ≤ s.start :=
  (pairwise_cons.1 h.apart).1 _ hs r s rfl rfl

theorem FrameRun.mem_chunks {r : FrameRun} {c : Chunk} (hf : r.start + r.size ≤ span (l + 1))
    (hc : c ∈ r.chunks l) : Placed l c ∧ r.start ≤ c.va ∧ c.va + span c.level ≤ r.start + r.size ∧
      c.pa + r.start = r.physical + c.va := by
  obtain ⟨h1, h2, h3, h4, h5, h6⟩ := TableNode.mem_chunks _ hc
  exact ⟨⟨h1.trans (maxLevel_le l), h2, h3, h5.trans hf⟩, h4, h5, h6⟩

variable {answer : Except NestError Unit} {room' room : Nat} {n n' : TableNode}

theorem prepareRange_extends {va pa size : Nat} (h : WF l n)
    (hr : prepareRange l va pa size n room = (answer, n', room')) :
    Extends l (Within l va size) n n' := by
  unfold prepareRange at hr
  split at hr
  · cases hr
    exact .refl h
  · exact prepareLoop_extends size h room hr

theorem prepareRuns_extends (h : WF l n) (hr : prepareRuns l runs n room = (answer, n', room')) :
    Extends l (fun k q => ∃ r, .ok r ∈ runs ∧ Within l r.start r.size k q) n n' := by
  induction runs generalizing n room with
  | nil =>
    cases hr
    exact .refl h
  | cons x runs ih =>
    cases x with
    | error e =>
      cases hr
      exact .refl h
    | ok r =>
      unfold prepareRuns at hr
      rcases hp : prepareRange l r.start r.physical r.size n room with ⟨a, n1, room1⟩
      have hext := (prepareRange_extends h hp).mono
        (f := fun k q => ∃ s, Except.ok s ∈ .ok r :: runs ∧ Within l s.start s.size k q)
        fun k q hkq => ⟨r, mem_cons_self, hkq⟩
      rw [hp] at hr
      cases a with
      | error e =>
        cases hr
        exact hext
      | ok u =>
        refine hext.trans ((ih hext.wf hr).mono fun k q ⟨s, hs, hw⟩ => ?_)
        exact ⟨s, mem_cons_of_mem _ hs, hw⟩

theorem prepareRuns_refines (hr : prepareRuns l runs n room = (answer, n', room')) :
    Refines l n n' := fun h => (prepareRuns_extends h hr).refined

theorem prepareRuns_ok (hr : prepareRuns l runs n room = (.ok (), n', room')) :
    ∀ e, .error e ∉ runs := by
  induction runs generalizing n room with
  | nil => simp
  | cons x runs ih =>
    cases x with
    | error e => simp [prepareRuns] at hr
    | ok r =>
      unfold prepareRuns at hr
      rcases hp : prepareRange l r.start r.physical r.size n room with ⟨a, n1, room1⟩
      rw [hp] at hr
      cases a with
      | error e => simp at hr
      | ok u =>
        intro e he
        rcases mem_cons.1 he with he | he
        · cases he
        · exact ih hr e he

variable {v : View}

theorem mapRuns_error {e : NestError} (h : mapRuns l v runs n = some (.error e, n')) :
    .error e ∈ runs := by
  induction runs generalizing n with
  | nil => simp [mapRuns] at h
  | cons x runs ih =>
    cases x with
    | error e' =>
      simp only [mapRuns, Option.some.injEq, Prod.mk.injEq, Except.error.injEq] at h
      exact h.1 ▸ mem_cons_self
    | ok r =>
      unfold mapRuns at h
      split at h
      · simp at h
      · exact mem_cons_of_mem _ (ih h)

/-- After the first pass over the runs every entry they need is there. -/
theorem prepareRuns_ready (h : WF l n) (hl : Laid l runs)
    (hn : ∀ r, .ok r ∈ runs → ∀ c ∈ r.chunks l, NoTable l n c)
    (hr : prepareRuns l runs n room = (.ok (), n', room')) :
    ∀ r, .ok r ∈ runs → ∀ c ∈ r.chunks l, Ready l n' c := by
  induction runs generalizing n room with
  | nil => simp
  | cons x runs ih =>
    cases x with
    | error e => simp [prepareRuns] at hr
    | ok r =>
      unfold prepareRuns at hr
      have hfit := hl.fits r mem_cons_self
      rcases hp : prepareRange l r.start r.physical r.size n room with ⟨a, n1, room1⟩
      have hext := prepareRange_extends h hp
      rw [hp] at hr
      cases a with
      | error e => simp at hr
      | ok u =>
        have hready : ∀ c ∈ r.chunks l, Ready l n1 c := by
          unfold prepareRange at hp
          split at hp
          · simp at hp
          · exact prepareLoop_ready r.size h hfit room (hn r mem_cons_self) hp
        have hrest := prepareRuns_extends hext.wf hr
        intro s hs c hc
        rcases mem_cons.1 hs with hs | hs
        · cases hs
          -- the other runs are past this one
          obtain ⟨hpl, h1, h2, _⟩ := FrameRun.mem_chunks hfit hc
          refine hrest.ready ?_ (hready c hc)
          rintro ⟨t, ht, hw⟩
          have := hl.before ht
          exact hpl.not_within (hl.fits t (mem_cons_of_mem _ ht)) (.inl (by omega)) hw
        refine ih hext.wf hl.tail (fun t ht d hd => ?_) hr s hs c hc
        obtain ⟨hpl, h1, h2, _⟩ := FrameRun.mem_chunks (hl.fits t (mem_cons_of_mem _ ht)) hd
        have := hl.before ht
        exact hext.noTable (hpl.not_within hfit (.inr (by omega)))
          (hn t (mem_cons_of_mem _ ht) d hd)

/-- The pages of the runs are mapped to their frames, by leaves inside the runs. -/
structure MapsRuns (l : Nat) (v : View) (runs : List (Except NestError FrameRun))
    (n n' : TableNode) : Prop where
  wf : WF l n'
  inside : ∀ r, .ok r ∈ runs → ∀ q, r.Has q → ∃ k,
    look l n' q = some ⟨k, r.frameOf q, v.leafFlags r.current.1⟩ ∧
      ∀ q', q' / span k = q / span k → r.Has q'
  outside : ∀ q, q < span (l + 1) → (∀ r, .ok r ∈ runs → ¬ r.Has q) → look l n' q = look l n q

/-- The second pass maps the runs and nothing else. -/
theorem mapRuns_spec (h : WF l n) (hl : Laid l runs) (he : ∀ e, .error e ∉ runs)
    (hr : ∀ r, .ok r ∈ runs → ∀ c ∈ r.chunks l, Ready l n c) :
    ∃ n', mapRuns l v runs n = some (.ok (), n') ∧ MapsRuns l v runs n n' := by
  induction runs generalizing n with
  | nil => exact ⟨n, rfl, h, by simp, fun _ _ _ => rfl⟩
  | cons x runs ih =>
    cases x with
    | error e => exact absurd mem_cons_self (he e)
    | ok r =>
      have hfit := hl.fits r mem_cons_self
      obtain ⟨n1, hm, hmap⟩ := mapChunks_spec h (v.leafFlags_valid r.current.1)
        (v.leafFlags_leaf r.current.2) (fun c hc => (FrameRun.mem_chunks hfit hc).1)
        (pairwise_chunks _ _ _ _ _) (hr r mem_cons_self)
      have hready : ∀ s, .ok s ∈ runs → ∀ c ∈ s.chunks l, Ready l n1 c := by
        intro s hs c hc
        obtain ⟨hpl, h1, _, _⟩ := FrameRun.mem_chunks (hl.fits s (mem_cons_of_mem _ hs)) hc
        refine hmap.ready c hpl (fun d hd => .inl ?_) (hr s (mem_cons_of_mem _ hs) c hc)
        obtain ⟨_, _, h3, _⟩ := FrameRun.mem_chunks hfit hd
        have := hl.before hs
        omega
      obtain ⟨n2, hm2, hmap2⟩ :=
        ih hmap.wf hl.tail (fun e he' => he e (mem_cons_of_mem _ he')) hready
      refine ⟨n2, ?_, hmap2.wf, fun s hs q hq => ?_, fun q hq hout => ?_⟩
      · have hm' : mapRange l r.start r.physical r.size (v.leafFlags r.current.1) n = some n1 := hm
        unfold mapRuns
        rw [hm']
        exact hm2
      · rcases mem_cons.1 hs with hs | hs
        · obtain rfl := Except.ok.inj hs
          obtain ⟨c, hc, hcq⟩ := exists_chunk l s.physical (le_refl s.size) hq.1 hq.2
          obtain ⟨hpl, h1, h2, h3⟩ := FrameRun.mem_chunks hfit hc
          refine ⟨c.level, ?_, fun q' hq' => ?_⟩
          · rw [hmap2.outside q (hcq.2.trans_le hpl.fits) fun t ht hqt => ?_,
              hmap.inside c hc q hcq]
            · have := hcq.1
              simp only [FrameRun.frameOf, Option.some.injEq, Leaf.mk.injEq, true_and, and_true]
              omega
            have := hl.before ht
            have := hqt.1
            have := hq.2
            omega
          have hblock := (Radix.same_block_iff (b := 512) (t := c.level) (by decide) hpl.va).2 hcq
          have hq'' := (Radix.same_block_iff (b := 512) (t := c.level) (by decide) hpl.va).1
            (hq'.trans hblock)
          change c.va ≤ q' ∧ q' < c.va + span c.level at hq''
          unfold FrameRun.Has
          omega
        · exact hmap2.inside s hs q hq
      · rw [hmap2.outside q hq fun s hs => hout s (mem_cons_of_mem _ hs), hmap.outside q hq]
        intro c hc hcq
        obtain ⟨_, h1, h2, _⟩ := FrameRun.mem_chunks hfit hc
        apply hout r mem_cons_self
        unfold Chunk.Has at hcq
        unfold FrameRun.Has
        omega

/-! ## Pages -/

variable {p : Nat}

/-- A leaf that no end of a page cuts is the page's own. -/
theorem level_of_uncut {a : Leaf} (h : look l n p = some a) (hcut : Uncut l n p (p + 1)) :
    a.level = 0 := by
  by_contra hne
  obtain ⟨k, hk⟩ := Nat.exists_eq_succ_of_ne_zero hne
  have hspan : 512 ≤ span a.level := by
    rw [hk, Nat.succ_eq_add_one, span_succ]
    have := span_pos k
    omega
  have hblock := hcut p a h le_rfl (Nat.lt_succ_self p)
  have hpos := span_pos a.level
  have h0 := hblock (span a.level * (p / span a.level)) (Nat.mul_div_cancel_left _ hpos)
  have h1 := hblock (span a.level * (p / span a.level) + 1) (by
    rw [Nat.mul_add_div hpos, Nat.div_eq_of_lt (show 1 < span a.level by omega),
      Nat.add_zero])
  omega

theorem slotAt_of_look {a : Leaf} (h : look l n p = some a) :
    ∃ e, slotAt a.level p l n = some e ∧ e.isValid = true ∧ e.isLeaf = true ∧
      a.ppn = e.ppn + p % span a.level ∧ a.flags = e.flags := by
  induction l, n, a, h using look_induct with
  | leaf l n hv hl => exact ⟨_, slotAt_self l, hv, hl, rfl, rfl⟩
  | branch l n c a hb hc h ih =>
    obtain ⟨e, he, hrest⟩ := ih
    exact ⟨e, (slotAt_branch (look_level_le h) hb hc).trans he, hrest⟩

variable {permission : Nat → Option LeafAccess}

theorem prepareUpdates_refines {ps : List Nat} {answer : Except NestError (List (Nat × LeafAccess))}
    (hr : prepareUpdates l v permission ps n room = (answer, n', room')) : Refines l n n' := by
  induction ps generalizing n room answer n' room' with
  | nil =>
    cases hr
    exact .refl l n
  | cons p ps ih =>
    unfold prepareUpdates at hr
    split at hr
    · cases hr
      exact .refl l n
    split at hr
    · rcases hp : prepareWith l p 1 n room with ⟨a, n1, room1⟩
      have href := prepareWith_refines hp
      rw [hp] at hr
      cases a with
      | error e =>
        cases hr
        exact href
      | ok u =>
        dsimp only at hr
        split at hr
        · cases hr
          exact href
        rcases hs : prepareUpdates l v permission ps n1 room1 with ⟨b, n2, room2⟩
        have := href.trans (ih hs)
        rw [hs] at hr
        cases b with
        | _ =>
          cases hr
          exact this
    · exact ih hr

/-- The pages that are to change are those that are mapped, each by a leaf of its own now. -/
theorem prepareUpdates_spec {ps : List Nat} (h : WF l n) {us : List (Nat × LeafAccess)}
    (hr : prepareUpdates l v permission ps n room = (.ok us, n', room')) :
    (us.map Prod.fst).Sublist ps ∧
      (∀ p ∈ ps, ∃ c, permission p = some c ∧
        ((v.borrows || v.publishes (p - v.start)) = true → (p, c) ∈ us)) ∧
      ∀ x ∈ us, (v.borrows || v.publishes (x.1 - v.start)) = true ∧ permission x.1 = some x.2 ∧
        (look l n' x.1).isSome ∧ Uncut l n' x.1 (x.1 + 1) := by
  induction ps generalizing n room us with
  | nil =>
    simp only [prepareUpdates, Prod.mk.injEq, Except.ok.injEq] at hr
    simp [← hr.1]
  | cons p ps ih =>
    unfold prepareUpdates at hr
    split at hr
    · simp at hr
    next current hcur =>
    split at hr
    · next hmapped =>
      rcases hp : prepareWith l p 1 n room with ⟨a, n1, room1⟩
      rw [hp] at hr
      cases a with
      | error e => simp at hr
      | ok u =>
        obtain ⟨⟨hw, _⟩, hcut⟩ := prepareWith_spec h room hp
        dsimp only at hr
        split at hr
        · simp at hr
        next found hwalk =>
        obtain ⟨ppn, flags⟩ := found
        obtain ⟨a, ha, _⟩ := (walkRef_ok_iff hw).1 hwalk
        rcases hs : prepareUpdates l v permission ps n1 room1 with ⟨b, n2, room2⟩
        have hrefined := prepareUpdates_refines hs hw
        rw [hs] at hr
        cases b with
        | error e => simp at hr
        | ok us' =>
          cases hr
          obtain ⟨hsub, hall, hus⟩ := ih hw hs
          refine ⟨by simpa using hsub, fun q hq => ?_, fun x hx => ?_⟩
          · rcases mem_cons.1 hq with rfl | hq
            · exact ⟨current, hcur, fun _ => mem_cons_self⟩
            · obtain ⟨c, hc, hm⟩ := hall q hq
              exact ⟨c, hc, fun hq => mem_cons_of_mem _ (hm hq)⟩
          rcases mem_cons.1 hx with rfl | hx
          · refine ⟨hmapped, hcur, ?_, (hcut rfl).refined hrefined⟩
            rcases hrefined.finer p with ⟨hn, _⟩ | ⟨a', b, _, hb, _⟩
            · cases ha.symm.trans hn
            · simp [hb]
          · exact hus x hx
    · next hmapped =>
      obtain ⟨hsub, hall, hus⟩ := ih h hr
      refine ⟨hsub.cons p, fun q hq => ?_, hus⟩
      rcases mem_cons.1 hq with rfl | hq
      · exact ⟨current, hcur, fun hm => absurd hm hmapped⟩
      · exact hall q hq

theorem agree_zero_iff {q : Nat} (hp : p < span (l + 1)) (hq : q < span (l + 1)) :
    Radix.Agree 512 l 0 q p ↔ q = p := by
  rw [Radix.agree_iff hq hp (Nat.zero_le l), pow_zero, Nat.div_one, Nat.div_one]

/-- Permissions change on the pages listed. -/
theorem writeUpdates_spec {us : List (Nat × LeafAccess)} (h : WF l n) (hd : (us.map Prod.fst).Nodup)
    (hu : ∀ x ∈ us, x.1 < span (l + 1) ∧
      ∃ a c, look l n x.1 = some a ∧ a.level = 0 ∧ a.flags = v.leafFlags c) :
    ∃ n', writeUpdates l v us n = some n' ∧ WF l n' ∧
      (∀ x ∈ us, ∀ a, look l n x.1 = some a →
        look l n' x.1 = some { a with flags := v.leafFlags x.2.1 }) ∧
      ∀ q, q < span (l + 1) → q ∉ us.map Prod.fst → look l n' q = look l n q := by
  induction us generalizing n with
  | nil => exact ⟨n, rfl, h, by simp, fun _ _ _ => rfl⟩
  | cons x us ih =>
    obtain ⟨p, current⟩ := x
    rw [map_cons, nodup_cons] at hd
    obtain ⟨hlt, a, c, ha, hlev, hflags⟩ := hu _ mem_cons_self
    obtain ⟨e, he, hv, hl, hppn, hef⟩ := slotAt_of_look ha
    rw [hlev] at he
    have hnew : (e.flags &&& ~~~PteFlags.rwx) ||| v.leafFlags current.1 =
        v.leafFlags current.1 := by
      rw [← hef, hflags, v.leafFlags_change]
    obtain ⟨n1, hm, hw⟩ := modifyAt_spec
      (f := fun e => { e with flags := (e.flags &&& ~~~PteFlags.rwx) ||| v.leafFlags current.1 })
      h he (not_branch_of_leaf hl) (by rw [hnew]; exact v.leafFlags_valid _)
      (by rw [hnew]; exact v.leafFlags_leaf current.2) (Nat.one_dvd _)
    rw [hnew] at hw
    have hother : ∀ q, q < span (l + 1) → q ≠ p → look l n1 q = look l n q := fun q hq hne =>
      hw.outside q fun hag => hne ((agree_zero_iff hlt hq).1 hag)
    have hne : ∀ y ∈ us, y.1 ≠ p := fun y hy heq =>
      hd.1 (mem_map.2 ⟨y, hy, heq⟩)
    obtain ⟨n2, hm2, hw2, hin, hout⟩ := ih hw.wf hd.2 fun y hy => by
      have hy' := hu y (mem_cons_of_mem _ hy)
      refine ⟨hy'.1, ?_⟩
      rw [hother y.1 hy'.1 (hne y hy)]
      exact hy'.2
    refine ⟨n2, ?_, hw2, fun y hy b hb => ?_, fun q hq hnot => ?_⟩
    · unfold writeUpdates setPermissions
      simp only [hm, hm2]
    · rcases mem_cons.1 hy with rfl | hy
      · cases ha.symm.trans hb
        rw [hout p hlt hd.1, hw.inside p ((agree_zero_iff hlt hlt).2 rfl)]
        simp [hlev, hppn]
      · refine hin y hy b ?_
        rw [hother y.1 (hu y (mem_cons_of_mem _ hy)).1 (hne y hy)]
        exact hb
    · rw [map_cons, mem_cons, not_or] at hnot
      rw [hout q hq hnot.2, hother q hq hnot.1]

/-! ## Ranges -/

theorem prepareRanges_spec {rs : List ActiveRange}
    (hr : prepareRanges l rs n room = (answer, n', room')) :
    Refines l n n' ∧ (WF l n → answer = .ok () →
      ∀ r ∈ rs, Uncut l n' r.start (r.start + r.size)) := by
  induction rs generalizing n room with
  | nil =>
    cases hr
    exact ⟨.refl l _, by simp⟩
  | cons r rs ih =>
    unfold prepareRanges at hr
    rcases hp : prepareWith l r.start r.size n room with ⟨a, n1, room1⟩
    have href := prepareWith_refines hp
    rw [hp] at hr
    cases a with
    | error e =>
      cases hr
      exact ⟨href, by simp⟩
    | ok u =>
      obtain ⟨href', hcut⟩ := ih hr
      refine ⟨href.trans href', fun hw hok s hs => ?_⟩
      rcases mem_cons.1 hs with rfl | hs
      · exact ((prepareWith_spec hw room hp).2 rfl).refined (href' (href hw).wf)
      · exact hcut (href hw).wf hok s hs

/-- The pages of all ranges are unmapped, and no others. -/
theorem unmapRanges_spec {rs : List ActiveRange} (h : WF l n)
    (hf : ∀ r ∈ rs, r.start + r.size ≤ span (l + 1))
    (hcut : ∀ r ∈ rs, Uncut l n r.start (r.start + r.size)) (room : Nat) :
    ∃ n', unmapRanges l rs n room = (.ok (), n', room) ∧ WF l n' ∧
      ∀ q, q < span (l + 1) →
        look l n' q = if ∃ r ∈ rs, Covers r q then none else look l n q := by
  induction rs generalizing n with
  | nil => exact ⟨n, rfl, h, by simp⟩
  | cons r rs ih =>
    have hrcut := hcut r mem_cons_self
    obtain ⟨hw, hlook⟩ := unmapPrepared_spec h r.pos hrcut
    obtain ⟨n', hn', hw', hlook'⟩ := ih hw (fun s hs => hf s (mem_cons_of_mem _ hs))
      fun s hs q a ha hq hq' => by
        have hlt := hf s (mem_cons_of_mem _ hs)
        rw [hlook q (by omega)] at ha
        split at ha
        · simp at ha
        · exact hcut s (mem_cons_of_mem _ hs) q a ha hq hq'
    refine ⟨n', ?_, hw', fun q hq => ?_⟩
    · have hprep : prepareWith l r.start r.size n room = (.ok (), n, room) := by
        unfold prepareWith
        rw [if_neg r.pos.ne', prepareEnd_uncut h hrcut r.pos (by simp) _ room]
        exact prepareEnd_uncut h hrcut r.pos (by simp) _ room
      unfold unmapRanges
      rw [hprep]
      exact hn'
    have hcov : Covers r q ↔ r.start ≤ q ∧ q < r.start + r.size := by
      have := r.last_succ
      simp only [Covers, lo_range, hi_range]
      omega
    rw [hlook' q hq, hlook q hq]
    by_cases hrq : Covers r q
    · rw [if_pos (hcov.1 hrq), ite_self, if_pos ⟨r, mem_cons_self, hrq⟩]
    · rw [if_neg (hcov.not.1 hrq)]
      simp only [mem_cons, exists_eq_or_imp, hrq, false_or]

/-! ## What a section does -/

namespace NestState

variable {top : Nat} {s s' : NestState} {v : View} {room : Nat}

/-- At most some leaves were split. -/
def Splits (top : Nat) (s s' : NestState) : Prop :=
  ∃ root, s' = { s with root } ∧ Refines top s.root root

theorem Splits.refl (top : Nat) (s : NestState) : Splits top s s := ⟨s.root, rfl, .refl _ _⟩

/-- The runs of a View were prepared and mapped. -/
def MapsIn (top : Nat) (v : View) (runs : List (Except NestError FrameRun))
    (n n' : TableNode) : Prop :=
  ∃ n₁ room room', prepareRuns top runs n room = (.ok (), n₁, room') ∧
    mapRuns top v runs n₁ = some (.ok (), n')

theorem install_cases {frames : List (Nat × Nat)}
    (h : s.install top v frames room = some (answer, s')) :
    ((∃ e, answer = .error e) ∧ Splits top s s') ∨
      (answer = .ok () ∧ (∀ u ∈ s.views, u.overlaps v.start v.last = false) ∧
        ∃ root, MapsIn top v (v.installRuns (v.installFrames frames)) s.root root ∧
          s' = { s with root, views := s.views ++ [v.publishAll (v.installFrames frames)],
                        invalidation := .dirty }) := by
  unfold install at h
  split at h
  · cases h
    exact .inl ⟨⟨_, rfl⟩, .refl _ _⟩
  next hover =>
  split at h
  · cases h
    exact .inl ⟨⟨_, rfl⟩, .refl _ _⟩
  dsimp only at h
  split at h
  · next hp =>
    cases h
    exact .inl ⟨⟨_, rfl⟩, _, rfl, prepareRuns_refines hp⟩
  next hp =>
  split at h
  · simp at h
  · next hm => exact absurd (mapRuns_error hm) (prepareRuns_ok hp _)
  next hm =>
  cases h
  refine .inr ⟨rfl, fun u hu => ?_, _, ⟨_, _, _, hp, hm⟩, rfl⟩
  simp only [firstOverlap, List.find?_isSome, not_exists, not_and, Bool.not_eq_true] at hover
  exact hover u hu

theorem publishSpan_cases {first len : Nat} {frames : List (Nat × Nat)}
    (h : s.publishSpan top v first len frames room = some (answer, s')) :
    Splits top s s' ∨
      (v.covers first (first + (len - 1)) = true ∧ v.borrows = false ∧
        ∃ root, MapsIn top v (v.runs (v.fresh first frames)) s.root root ∧
          s' = { { s with root }.put (v.publishAll (v.fresh first frames)) with
            invalidation := .dirty }) := by
  unfold publishSpan at h
  split at h
  · cases h
    exact .inl (.refl _ _)
  split at h
  · cases h
    exact .inl (.refl _ _)
  next hcov =>
  split at h
  · cases h
    exact .inl (.refl _ _)
  next hlent =>
  dsimp only at h
  split at h
  · cases h
    exact .inl (.refl _ _)
  split at h
  · cases h
    exact .inl (.refl _ _)
  split at h
  · next hp =>
    cases h
    exact .inl ⟨_, rfl, prepareRuns_refines hp⟩
  next hp =>
  split at h
  · simp at h
  · next hm => exact absurd (mapRuns_error hm) (prepareRuns_ok hp _)
  · next hm =>
    cases h
    exact .inr ⟨by simpa using hcov, by simpa using hlent, _, ⟨_, _, _, hp, hm⟩, rfl⟩

variable {hi' lo' : Nat}

/-- The new ranges over a window: the same pages, with `permission` in the window. -/
structure Reshapes (v : View) (lo' hi' : Nat) (next : List ActiveRange)
    (permission : Nat → Option LeafAccess) : Prop where
  ordered : Ordered next
  inside : ∀ r ∈ next, v.start ≤ r.start ∧ r.last ≤ v.last
  active : ∀ p, (currentAt next p).isSome = (currentAt v.active p).isSome
  window : ∀ p, lo' ≤ p → p ≤ hi' → currentAt next p = permission p
  rest : ∀ p, ¬ (lo' ≤ p ∧ p ≤ hi') →
    currentAt next p = currentAt v.active p

theorem setAccess_cases {access : Access} (hv : v.Sound) (hle : lo' ≤ hi')
    (h : s.setAccess top v lo' hi' access room = some (answer, s')) :
    Splits top s s' ∨ ∃ next permission room, Reshapes v lo' hi' next permission ∧
      s.reshape top v lo' hi' next permission room = some (answer, s') := by
  unfold setAccess at h
  split at h
  · next hleaf =>
    split at h
    · cases h
      exact .inl (.refl _ _)
    next hcov =>
    split at h
    · cases h
      exact .inl (.refl _ _)
    split at h
    · cases h
      exact .inl (.refl _ _)
    have hcov := (hv.covers_iff hle).1 (by simpa using hcov)
    obtain ⟨hord, hcur⟩ := split_spec hle hv.ordered (some ⟨access, hleaf⟩)
    refine .inr ⟨_, _, _, ⟨hord, split_inside hle _ hv.inside, fun p => ?_,
      fun p h1 h2 => ?_, fun p hp => ?_⟩, h⟩
    · rw [hcur p]
      split
      · cases currentAt v.active p <;> rfl
      · rfl
    · obtain ⟨c, hc⟩ := Option.isSome_iff_exists.1 (hcov p h1 h2)
      rw [hcur p, if_pos ⟨h1, h2⟩, hc]
      rfl
    · rw [hcur p, if_neg hp]
  · cases h
    exact .inl (.refl _ _)

theorem narrow_cases {ceiling : Access} (hv : v.Sound) (hle : lo' ≤ hi')
    (h : s.narrow top v lo' hi' ceiling room = some (answer, s')) :
    Splits top s s' ∨ ∃ next permission room, Reshapes v lo' hi' next permission ∧
      s.reshape top v lo' hi' next permission room = some (answer, s') := by
  unfold narrow at h
  split at h
  · cases h
    exact .inl (.refl _ _)
  split at h
  · cases h
    exact .inl (.refl _ _)
  split at h
  · cases h
    exact .inl (.refl _ _)
  next hn =>
  obtain ⟨hord, hact, hrest⟩ := narrow_spec hle hv.ordered hn
  refine .inr ⟨_, _, _, ⟨hord, fun t ht => ?_, hact, fun _ _ _ => rfl, hrest⟩, h⟩
  obtain ⟨g, w, rfl, hcut⟩ := narrow_cut hle hn
  obtain ⟨r, hr, ht⟩ := mem_flatMap.1 ht
  have h1 := (hcut r hr).inside t ht
  have h2 := hv.inside r hr
  exact ⟨h2.1.trans h1.1, h1.2.trans h2.2⟩

/-- A span was prepared, its pages were unmapped and empty tables taken out. -/
def Unmaps (top start len : Nat) (n n' : TableNode) : Prop :=
  ∃ n₁ room room', prepareWith top start len n room = (.ok (), n₁, room') ∧
    n' = (reclaimEmptyTables top (unmapPrepared top start len n₁)).1

theorem withdraw_cases {start len : Nat} {o o' : Occupancy.State}
    {answer : Except NestError (List Nat)}
    (h : s.withdraw top v start len room o = some (answer, o', s')) :
    ((∃ e, answer = .error e) ∧ o' = o ∧ Splits top s s') ∨
      ∃ tickets pieces root tables, 0 < len ∧ answer = .ok tickets ∧ s.phase ≠ .closed ∧
        s.invalidation = .clean ∧
        o.occ.pieces (0 < room) (start * pageSize) (start * pageSize + (len * pageSize - 1)) v.id =
          .ok pieces ∧
        retirePieces v.id pieces o = some (o', tickets) ∧ Unmaps top start len s.root root ∧
        s' = { { s with root }.put (v.without start (start + (len - 1))) with
          retiredTables := s.retiredTables ++ tables,
          retiredFrames :=
            s.retiredFrames ++ ((v.publishedIn start (start + (len - 1))).map Prod.snd).reverse,
          retirement := s.retirement ++ tickets,
          invalidation := .dirty } := by
  unfold withdraw at h
  split at h
  · cases h
    exact .inl ⟨⟨_, rfl⟩, rfl, .refl _ _⟩
  next hlen =>
  split at h
  · cases h
    exact .inl ⟨⟨_, rfl⟩, rfl, .refl _ _⟩
  next hpieces =>
  split at h
  · cases h
    exact .inl ⟨⟨_, rfl⟩, rfl, .refl _ _⟩
  split at h
  · cases h
    exact .inl ⟨⟨_, rfl⟩, rfl, .refl _ _⟩
  next hphase =>
  split at h
  · cases h
    exact .inl ⟨⟨_, rfl⟩, rfl, .refl _ _⟩
  next hclean =>
  split at h
  · next hp =>
    cases h
    exact .inl ⟨⟨_, rfl⟩, rfl, _, rfl, prepareWith_refines hp⟩
  next hp =>
  split at h
  · cases h
    exact .inl ⟨⟨_, rfl⟩, rfl, _, rfl, prepareWith_refines hp⟩
  split at h
  · simp at h
  next hret =>
  cases h
  exact .inr ⟨_, _, _, _, Nat.pos_of_ne_zero hlen, rfl, hphase, by simpa using hclean, hpieces,
    hret, ⟨_, _, _, hp, rfl⟩, rfl⟩

theorem unpublishPage_cases {kernel : Bool} {frame : Nat}
    (h : s.unpublishPage top kernel v p frame room = some (answer, s')) :
    (Splits top s s' ∧ (answer = .ok () → v.publishes (p - v.start) = false)) ∨
      ∃ held root tables, answer = .ok () ∧ s.phase ≠ .closed ∧ s.invalidation = .clean ∧
        v.published.find? (·.1 = p - v.start) = some held ∧ Unmaps top p 1 s.root root ∧
        s' = { { s with root }.put { v with published := v.published.erase held } with
          retiredTables := s.retiredTables ++ tables,
          retiredFrames := s.retiredFrames ++ [frame],
          invalidation := .dirty } := by
  unfold unpublishPage at h
  split at h
  · cases h
    exact .inl ⟨.refl _ _, by simp⟩
  split at h
  · cases h
    exact .inl ⟨.refl _ _, by simp⟩
  next hclean =>
  split at h
  · next hnone =>
    cases h
    refine .inl ⟨.refl _ _, fun _ => ?_⟩
    simpa [View.publishes, List.any_eq_false] using hnone
  next held hheld =>
  split at h
  · cases h
    exact .inl ⟨.refl _ _, by simp⟩
  next hphase =>
  split at h
  · simp at h
  split at h
  · cases h
    exact .inl ⟨.refl _ _, by simp⟩
  split at h
  · next hp =>
    cases h
    exact .inl ⟨⟨_, rfl, prepareWith_refines hp⟩, by simp⟩
  next hp =>
  split at h
  · cases h
    exact .inl ⟨⟨_, rfl, prepareWith_refines hp⟩, by simp⟩
  · cases h
    exact .inr ⟨held, _, _, rfl, hphase, by simpa using hclean, hheld, ⟨_, _, _, hp, rfl⟩, rfl⟩

/-- All pages of the active ranges were unmapped, if the table was well formed. -/
def UnmapsAll (top : Nat) (views : List View) (n n' : TableNode) : Prop :=
  WF top n → WF top n' ∧ ∀ q, q < span (top + 1) →
    look top n' q = none ∨ (∀ v ∈ views, ¬ v.Active q) ∧
      (look top n q = none → look top n' q = none)

theorem close_cases {kernel : Bool}
    (hf : ∀ v ∈ s.views, v.Sound ∧ v.start + v.pages ≤ span (top + 1))
    (h : s.close top kernel room = (answer, s')) :
    (Splits top s s' ∧ (answer = .ok () → s.phase = .closed)) ∨
      ∃ root tables, answer = .ok () ∧ s.phase ≠ .closed ∧ UnmapsAll top s.views s.root root ∧
        s' = { s with
          root,
          views := s.views.map fun v => { v with active := [], published := [] },
          retiredTables := s.retiredTables ++ tables,
          retiredFrames := s.retiredFrames ++ s.views.flatMap (·.published.map Prod.snd),
          invalidation := .dirty,
          phase := .closing } := by
  have hfit : ∀ r ∈ s.views.flatMap (·.active), r.start + r.size ≤ span (top + 1) := by
    intro r hr
    obtain ⟨v, hv, hr⟩ := mem_flatMap.1 hr
    have h1 := (hf v hv).1.inside r hr
    have h2 := (hf v hv).2
    have h3 := (hf v hv).1.pos
    have h4 := r.last_succ
    unfold View.last at h1
    omega
  unfold close at h
  split at h
  · cases h
    exact .inl ⟨.refl _ _, by simp⟩
  split at h
  · next hc =>
    cases h
    exact .inl ⟨.refl _ _, fun _ => hc⟩
  next hphase =>
  split at h
  · cases h
    exact .inl ⟨.refl _ _, by simp⟩
  dsimp only at h
  split at h
  · next hp =>
    cases h
    exact .inl ⟨⟨_, rfl, (prepareRanges_spec hp).1⟩, by simp⟩
  next hp =>
  obtain ⟨href, hcut⟩ := prepareRanges_spec hp
  split at h
  · cases h
    exact .inl ⟨⟨_, rfl, href⟩, by simp⟩
  split at h
  · next hu =>
    cases h
    refine .inl ⟨⟨_, rfl, fun hw => ?_⟩, by simp⟩
    obtain ⟨n', hn', _⟩ := unmapRanges_spec (href hw).1 hfit (hcut hw rfl) _
    cases hu.symm.trans hn'
  next hu =>
  cases h
  refine .inr ⟨_, _, rfl, hphase, fun hw => ?_, rfl⟩
  obtain ⟨n', hn', hw', hlook⟩ := unmapRanges_spec (href hw).1 hfit (hcut hw rfl) _
  cases hu.symm.trans hn'
  obtain ⟨hw'', hsame⟩ := reclaimEmptyTables_spec hw'
  refine ⟨hw'', fun q hq => ?_⟩
  rw [hsame q, hlook q hq]
  split
  · exact .inl rfl
  next hno =>
  refine .inr ⟨fun v hv hact => ?_, fun hn => ?_⟩
  · obtain ⟨r, hr, hc⟩ := View.active_iff.1 hact
    exact hno ⟨r, mem_flatMap.2 ⟨v, hv, hr⟩, hc⟩
  rcases (href hw).2 q with ⟨_, h2⟩ | ⟨a, b, h1, _⟩
  · exact h2
  · cases hn.symm.trans h1

end NestState

end Sqware.Nest
