import Sqware.Nest.SpaceRun

/-!
# Views and page table agree

The abstract content of a Nest is a partial map from pages to a frame and flags, and every View says
what it should be on its active pages.  The page table gives exactly that map, as long as no section
writes a leaf over an entry that holds a table: the pass that writes the leaves goes by alignment
alone, while the pass that prepares them goes past the tables it meets, even empty ones that a
failed call left behind.
-/

namespace Sqware.Nest

open List hiding span

open Spans TableNode NestState Option

/-! ## What a View says -/

namespace View

/-- The frame that belongs behind a page. -/
def frameAt (v : View) (p : Nat) : Option Nat :=
  match v.source with
  | .borrowed base => some (base + (p - v.start))
  | .managed => (v.published.find? (·.1 = p - v.start)).map Prod.snd

/-- The translation of a page: its frame and the flags of the range over it. -/
def expect (v : View) (p : Nat) : Option (Nat × PteFlags) :=
  (ActiveRange.currentAt v.active p).bind fun c => (v.frameAt p).map fun f => (f, v.leafFlags c.1)

variable {v : View}

theorem expect_of_current {p : Nat} {c : LeafAccess}
    (hc : ActiveRange.currentAt v.active p = some c) :
    v.expect p = (v.frameAt p).map fun f => (f, v.leafFlags c.1) := by
  simp [expect, hc]

theorem nodup_published (hs : v.published.Pairwise fun x y => x.1 < y.1) :
    (v.published.map Prod.fst).Nodup :=
  pairwise_map.2 (hs.imp fun h => h.ne)

theorem frameAt_managed (hm : v.source = .managed) (hs : v.published.Pairwise fun x y => x.1 < y.1)
    {p f : Nat} : v.frameAt p = some f ↔ (p - v.start, f) ∈ v.published := by
  simp only [frameAt, hm, map_eq_some_iff]
  constructor
  · rintro ⟨x, hx, rfl⟩
    have := List.find?_some hx
    simp only [decide_eq_true_eq] at this
    exact this ▸ mem_of_find?_eq_some hx
  intro hmem
  cases hf : v.published.find? (·.1 = p - v.start) with
  | none => exact absurd (find?_eq_none.1 hf _ hmem) (by simp)
  | some x =>
    have hx := List.find?_some hf
    simp only [decide_eq_true_eq] at hx
    have := inj_on_of_nodup_map (nodup_published hs) (mem_of_find?_eq_some hf) hmem hx
    exact ⟨x, rfl, by rw [this]⟩

theorem managed_of_not_borrows (h : v.borrows = false) : v.source = .managed := by
  unfold borrows at h
  cases hs : v.source with
  | managed => rfl
  | borrowed base => simp [hs] at h

theorem active_congr {v' : View} (h : v'.active = v.active) (p : Nat) :
    v'.Active p ↔ v.Active p := by
  unfold Active
  rw [h]

end View

def Leaf.target (a : Leaf) : Nat × PteFlags := (a.ppn, a.flags)

/-- The page table translates the active pages as the Views say, and no others; a leaf stays inside
the active pages of one View. -/
structure Agrees (top : Nat) (root : TableNode) (views : List View) : Prop where
  wf : WF top root
  mapped : ∀ v ∈ views, ∀ p, v.Active p → (look top root p).map Leaf.target = v.expect p
  bare : ∀ p, p < span (top + 1) → (∀ v ∈ views, ¬ v.Active p) → look top root p = none
  block : ∀ v ∈ views, ∀ p a, v.Active p → look top root p = some a →
    ∀ q, q / span a.level = p / span a.level → v.Active q

section

variable {top : Nat} {n n' : TableNode} {views : List View}

theorem Agrees.refines (h : Agrees top n views) (hr : Refines top n n') : Agrees top n' views := by
  obtain ⟨hw, hfine⟩ := hr h.wf
  refine ⟨hw, fun v hv p hp => ?_, fun p hp hno => ?_, fun v hv p b hp hb q hq => ?_⟩
  · rw [← h.mapped v hv p hp]
    rcases hfine p with ⟨h1, h2⟩ | ⟨a, b, h1, h2, h3, h4, _⟩
    · rw [h1, h2]
    · simp [h1, h2, Leaf.target, h3, h4]
  · rcases hfine p with ⟨_, h2⟩ | ⟨a, b, h1, _⟩
    · exact h2
    · rw [h.bare p hp hno] at h1
      simp at h1
  rcases hfine p with ⟨_, h2⟩ | ⟨a, b', h1, h2, _, _, hle⟩
  · cases h2.symm.trans hb
  · cases h2.symm.trans hb
    exact h.block v hv p a hp h1 q (div_eq_of_le hle hq)

/-! ## Mapping runs -/

/-- Runs that take a View from `v` to `v'`: they lie in its ranges and are the frames that came. -/
structure Brings (top : Nat) (v v' : View) (runs : List (Except NestError FrameRun)) : Prop where
  laid : Laid top runs
  inside : ∀ r, .ok r ∈ runs → ∀ q, r.Has q →
    ActiveRange.currentAt v.active q = some r.current ∧ v'.frameAt q = some (r.frameOf q)
  outside : ∀ p, v.Active p → (∀ r, .ok r ∈ runs → ¬ r.Has p) →
    v.source = .managed ∧ v'.frameAt p = v.frameAt p

variable {v : View}

theorem brings_frames (h : v.Sound) (hfit : v.start + v.pages ≤ span (top + 1))
    (hm : v.source = .managed) {frames : List (Nat × Nat)}
    (hf : frames.Pairwise fun x y => x.1 < y.1)
    (hn : ∀ x ∈ frames, v.publishes x.1 = false ∧ v.Active (v.start + x.1)) :
    Brings top v (v.publishAll frames) (v.runs frames) := by
  have hg : Groups v.start v.active frames (v.runs frames) := frameRuns_spec hf le_rfl
  obtain ⟨hs, hmem⟩ := View.publishAll_spec h.sorted hf fun x hx => (hn x hx).1
  obtain ⟨ps, hps⟩ := v.publishAll_eq frames
  rw [hps] at hs hmem ⊢
  have hframe : ∀ p f, ({ v with published := ps } : View).frameAt p = some f ↔
      (p - v.start, f) ∈ frames ∨ (p - v.start, f) ∈ v.published := by
    intro p f
    rw [View.frameAt_managed (v := { v with published := ps }) hm hs, hmem]
  refine ⟨⟨fun r hr => ?_, hg.apart⟩, fun r hr q hq => ?_, fun p hp hno => ⟨hm, ?_⟩⟩
  · have hpos := hg.pos r hr
    obtain ⟨x, hx, hq, _⟩ := hg.made r hr (r.start + (r.size - 1)) (by unfold FrameRun.Has; omega)
    have := h.mem_span (hn x hx).2
    omega
  · obtain ⟨x, hx, hq, hxf, hcur⟩ := hg.made r hr q hq
    refine ⟨hcur, (hframe q _).2 (.inl ?_)⟩
    have hpage : q - v.start = x.1 := by omega
    rw [hpage, ← hxf]
    exact hx
  have hstart := (h.mem_span hp).1
  have hnot : ∀ f, (p - v.start, f) ∉ frames := by
    intro f hx
    have hpage : v.start + (p - v.start) = p := by omega
    obtain ⟨r, hr, hq⟩ := hg.found _ hx (hn _ hx).2
    rw [hpage] at hq
    exact hno r hr hq
  refine Option.ext fun f => ?_
  rw [hframe, View.frameAt_managed hm h.sorted]
  simp [hnot f]

theorem brings_lent (h : v.Sound) (hfit : v.start + v.pages ≤ span (top + 1)) {base : Nat}
    (hb : v.source = .borrowed base) : Brings top v v (v.installRuns []) := by
  have hruns : v.installRuns [] =
      v.active.map fun r => .ok ⟨r.start, base + (r.start - v.start), r.size, r.current⟩ := by
    simp only [View.installRuns, hb]
  have hof : ∀ r, .ok r ∈ v.installRuns [] → ∃ t ∈ v.active,
      r = ⟨t.start, base + (t.start - v.start), t.size, t.current⟩ := by
    intro r hr
    rw [hruns] at hr
    obtain ⟨t, ht, he⟩ := List.mem_map.1 hr
    exact ⟨t, ht, (Except.ok.inj he).symm⟩
  refine ⟨⟨fun r hr => ?_, ?_⟩, fun r hr q hq => ?_, fun p hp hno => ?_⟩
  · obtain ⟨t, ht, rfl⟩ := hof r hr
    have h1 := h.inside t ht
    have h2 := t.last_succ
    have h3 := h.pos
    unfold View.last at h1
    dsimp only
    omega
  · rw [hruns, pairwise_map]
    refine h.ordered.before.imp fun hlt r s hr hs => ?_
    cases hr
    cases hs
    rw [← ActiveRange.last_succ]
    exact hlt
  · obtain ⟨t, ht, rfl⟩ := hof r hr
    obtain ⟨h1, h2⟩ := hq
    dsimp only at h1 h2
    have h3 := t.last_succ
    have h4 := h.inside t ht
    refine ⟨(ActiveRange.currentAt_eq_some h.ordered).2 ⟨t, ht, ?_, rfl⟩, ?_⟩
    · simp only [Covers, ActiveRange.lo_range, ActiveRange.hi_range]
      omega
    · simp only [View.frameAt, hb, FrameRun.frameOf, some.injEq]
      omega
  · exfalso
    obtain ⟨t, ht, h1, h2⟩ := View.active_iff.1 hp
    have h3 := t.last_succ
    simp only [ActiveRange.lo_range, ActiveRange.hi_range] at h1 h2
    refine hno ⟨t.start, base + (t.start - v.start), t.size, t.current⟩ ?_ ?_
    · rw [hruns]
      exact List.mem_map_of_mem ht
    · simp only [FrameRun.Has]
      omega

/-- None of the leaves to be written is the place of a table. -/
def Unobstructed (top : Nat) (n : TableNode) (runs : List (Except NestError FrameRun)) : Prop :=
  ∀ r, .ok r ∈ runs → ∀ c ∈ r.chunks top, NoTable top n c

variable {runs : List (Except NestError FrameRun)}

theorem mapsIn_spec (h : WF top n) (hl : Laid top runs) (hu : Unobstructed top n runs)
    (hm : MapsIn top v runs n n') : MapsRuns top v runs n n' := by
  obtain ⟨n1, room, room', hp, hmap⟩ := hm
  have hext := prepareRuns_extends h hp
  obtain ⟨n2, hmap2, hspec⟩ := mapRuns_spec (v := v) hext.wf hl (prepareRuns_ok hp)
    (prepareRuns_ready h hl hu hp)
  obtain rfl := (Prod.mk.inj (some.inj (hmap.symm.trans hmap2))).2
  exact ⟨hspec.wf, hspec.inside, fun q hq hno => (hspec.outside q hq hno).trans (hext.look q)⟩

variable {p : Nat} {v' : View}

/-- The table after the runs of one View were mapped, as the View sees it. -/
theorem Brings.expect (hact : v'.active = v.active) (hattrs : v'.attrs = v.attrs)
    (hb : Brings top v v' runs) (hm : MapsRuns top v runs n n') (hp : v.Active p)
    (hlt : p < span (top + 1))
    (hold : (∀ r, .ok r ∈ runs → ¬ r.Has p) → (look top n p).map Leaf.target = v.expect p) :
    (look top n' p).map Leaf.target = v'.expect p := by
  have hflags : ∀ a, v'.leafFlags a = v.leafFlags a := fun a => by simp [View.leafFlags, hattrs]
  by_cases hin : ∃ r, .ok r ∈ runs ∧ r.Has p
  · obtain ⟨r, hr, hq⟩ := hin
    obtain ⟨hcur, hframe⟩ := hb.inside r hr p hq
    obtain ⟨k, hlook, _⟩ := hm.inside r hr p hq
    rw [hlook, View.expect_of_current (hact ▸ hcur), hframe]
    simp [Leaf.target, hflags]
  simp only [not_exists, not_and] at hin
  rw [hm.outside p hlt hin, hold hin]
  unfold View.expect
  rw [hact, (hb.outside p hp hin).2]
  simp [hflags]

theorem Brings.block (hact : v'.active = v.active) (hb : Brings top v v' runs)
    (hm : MapsRuns top v runs n n') (hlt : p < span (top + 1)) {a : Leaf}
    (ha : look top n' p = some a)
    (hold : look top n p = some a → ∀ q, q / span a.level = p / span a.level → v.Active q) :
    ∀ q, q / span a.level = p / span a.level → v'.Active q := by
  intro q hq
  unfold View.Active
  rw [hact]
  by_cases hin : ∃ r, .ok r ∈ runs ∧ r.Has p
  · obtain ⟨r, hr, hp⟩ := hin
    obtain ⟨k, hlook, hblock⟩ := hm.inside r hr p hp
    cases ha.symm.trans hlook
    rw [(hb.inside r hr q (hblock q hq)).1]
    rfl
  · simp only [not_exists, not_and] at hin
    rw [hm.outside p hlt hin] at ha
    exact hold ha q hq

/-- Where a View is not active its runs change nothing. -/
theorem Brings.away (hb : Brings top v v' runs) (hm : MapsRuns top v runs n n')
    (hlt : p < span (top + 1)) (hp : ¬ v.Active p) : look top n' p = look top n p := by
  refine hm.outside p hlt fun r hr hq => hp ?_
  unfold View.Active
  rw [(hb.inside r hr p hq).1]
  rfl

variable {loose : List Reservation} {o : Occupancy.State}

theorem agrees_install (hbase : Base top o views loose) (h : Agrees top n views) (hs : v.Sound)
    (hfit : v.start + v.pages ≤ span (top + 1)) (hact : v'.active = v.active)
    (hattrs : v'.attrs = v.attrs) (hpub : v.published = [])
    (hover : ∀ u ∈ views, ∀ p, v.Active p → ¬ u.Active p) (hb : Brings top v v' runs)
    (hm : MapsRuns top v runs n n') : Agrees top n' (views ++ [v']) := by
  have hltv : ∀ p, v.Active p → p < span (top + 1) := fun p hp => (hs.mem_span hp).2.trans_le hfit
  have hactive := View.active_congr hact
  -- a page of the new View that no run brings was not mapped, and is not expected to be
  have hnone : ∀ p, v.Active p → look top n p = none := fun p hp =>
    h.bare p (hltv p hp) fun u hu => hover u hu p hp
  have hmem : ∀ u ∈ views ++ [v'], u ∈ views ∨ u = v' := fun u hu => by simpa using hu
  refine ⟨hm.wf, fun u hu p hp => ?_, fun p hp hno => ?_, fun u hu p a hp ha q hq => ?_⟩
  · rcases hmem u hu with hu | rfl
    · rw [hb.away hm (hbase.lt hu hp) fun hv => hover u hu p hv hp, h.mapped u hu p hp]
    rw [hactive] at hp
    refine hb.expect hact hattrs hm hp (hltv p hp) fun hout => ?_
    have hmng := (hb.outside p hp hout).1
    rw [hnone p hp]
    simp [View.expect, View.frameAt, hmng, hpub]
  · rw [hb.away hm hp fun hv => hno v' (by simp) ((hactive p).2 hv)]
    exact h.bare p hp fun u hu => hno u (mem_append_left _ hu)
  rcases hmem u hu with hu | rfl
  · rw [hb.away hm (hbase.lt hu hp) fun hv => hover u hu p hv hp] at ha
    exact h.block u hu p a hp ha q hq
  rw [hactive] at hp
  refine hb.block hact hm (hltv p hp) ha (fun hold => ?_) q hq
  rw [hnone p hp] at hold
  simp at hold

/-! ## Changing one View -/

/-- How a View is replaced in the list. -/
def replace (views : List View) (v' : View) : List View :=
  views.map fun u => if u.id = v'.id then v' else u

theorem mem_replace (hid : v'.id = v.id) {u : View} (hu : u ∈ replace views v') :
    u = v' ∨ u ∈ views ∧ u.id ≠ v.id := by
  obtain ⟨t, ht, rfl⟩ := List.mem_map.1 hu
  split
  · exact .inl rfl
  · next hne => exact .inr ⟨ht, fun h => hne (h.trans hid.symm)⟩

/-- One View and the table change together: outside its active pages nothing does, and there the
table follows the new View. -/
theorem agrees_replace (hbase : Base top o views loose) (h : Agrees top n views) (hv : v ∈ views)
    (hid : v'.id = v.id) (hw : WF top n') (hsub : ∀ p, v'.Active p → v.Active p)
    (hout : ∀ p, p < span (top + 1) → ¬ v.Active p → look top n' p = look top n p)
    (hgone : ∀ p, v.Active p → ¬ v'.Active p → look top n' p = none)
    (hmap : ∀ p, v'.Active p → (look top n' p).map Leaf.target = v'.expect p)
    (hblock : ∀ p a, v'.Active p → look top n' p = some a →
      ∀ q, q / span a.level = p / span a.level → v'.Active q) :
    Agrees top n' (replace views v') := by
  have hapart : ∀ u ∈ views, u.id ≠ v.id → ∀ p, u.Active p → ¬ v.Active p :=
    fun u hu hne p hp => hbase.apart u hu v hv hne p hp
  refine ⟨hw, fun u hu p hp => ?_, fun p hp hno => ?_, fun u hu p a hp ha q hq => ?_⟩
  · rcases mem_replace hid hu with rfl | ⟨hu, hne⟩
    · exact hmap p hp
    · rw [hout p (hbase.lt hu hp) (hapart u hu hne p hp), h.mapped u hu p hp]
  · have hv' := hno v' (List.mem_map.2 ⟨v, hv, if_pos hid.symm⟩)
    by_cases hact : v.Active p
    · exact hgone p hact hv'
    rw [hout p hp hact]
    refine h.bare p hp fun u hu hup => ?_
    by_cases hne : u.id = v.id
    · exact hact (hbase.eq_of_id hu hv hne ▸ hup)
    · exact hno u (List.mem_map.2 ⟨u, hu, if_neg (hid ▸ hne)⟩) hup
  rcases mem_replace hid hu with rfl | ⟨hu, hne⟩
  · exact hblock p a hp ha q hq
  · rw [hout p (hbase.lt hu hp) (hapart u hu hne p hp)] at ha
    exact h.block u hu p a hp ha q hq

/-- Changing permissions: on the mapped pages of the window the flags follow. -/
theorem agrees_reshape (hbase : Base top o views loose) (h : Agrees top n views) (hv : v ∈ views)
    {lo' hi' room room' : Nat} {next : List ActiveRange} {permission : Nat → Option LeafAccess}
    {us : List (Nat × LeafAccess)} {n1 : TableNode} (hr : Reshapes v lo' hi' next permission)
    (hp : prepareUpdates top v permission (List.range' lo' (hi' + 1 - lo')) n room =
      (.ok us, n1, room'))
    (hwr : writeUpdates top v us n1 = some n') :
    Agrees top n' (replace views { v with active := next }) := by
  have h1 := h.refines (prepareUpdates_refines hp)
  obtain ⟨hsub, hall, hus⟩ := prepareUpdates_spec h.wf hp
  have hrange : ∀ p, p ∈ List.range' lo' (hi' + 1 - lo') ↔ lo' ≤ p ∧ p ≤ hi' := by
    intro p
    rw [mem_range'_1]
    omega
  have hin : ∀ p, lo' ≤ p → p ≤ hi' → v.Active p := by
    intro p h1 h2
    obtain ⟨c, hc, _⟩ := hall p ((hrange p).2 ⟨h1, h2⟩)
    unfold View.Active
    rw [← hr.active p, hr.window p h1 h2, hc]
    rfl
  have hmem : ∀ x ∈ us, lo' ≤ x.1 ∧ x.1 ≤ hi' := fun x hx =>
    (hrange x.1).1 (hsub.subset (List.mem_map_of_mem hx))
  have hlt : ∀ p, v.Active p → p < span (top + 1) := fun _ => hbase.lt hv
  -- what the table has for a page of the View
  have hold : ∀ p a, v.Active p → look top n1 p = some a → ∃ c f,
      ActiveRange.currentAt v.active p = some c ∧ v.frameAt p = some f ∧ a.ppn = f ∧
        a.flags = v.leafFlags c.1 := by
    intro p a hact ha
    obtain ⟨c, hc⟩ := isSome_iff_exists.1 hact
    have hm := h1.mapped v hv p hact
    rw [ha, View.expect_of_current hc] at hm
    obtain ⟨f, hf, hfe⟩ := map_eq_some_iff.1 hm.symm
    simp only [Leaf.target, Prod.mk.injEq] at hfe
    exact ⟨c, f, hc, hf, hfe.1.symm, hfe.2.symm⟩
  obtain ⟨n2, hwr2, hw, hins, houts⟩ := writeUpdates_spec (v := v) h1.wf
    (hsub.nodup nodup_range') fun x hx => by
      obtain ⟨hx1, hx2⟩ := hmem x hx
      have hact := hin x.1 hx1 hx2
      obtain ⟨_, _, hsome, hcut⟩ := hus x hx
      obtain ⟨a, ha⟩ := isSome_iff_exists.1 hsome
      obtain ⟨c, f, _, _, _, hflags⟩ := hold x.1 a hact ha
      exact ⟨hlt x.1 hact, a, c.1, ha, level_of_uncut ha hcut, hflags⟩
  cases hwr.symm.trans hwr2
  have hactive : ∀ p, ({ v with active := next } : View).Active p ↔ v.Active p := fun p => by
    unfold View.Active
    rw [hr.active p]
  have hnot : ∀ p, ¬ v.Active p → p ∉ us.map Prod.fst := by
    intro p hp hx
    obtain ⟨x, hxu, rfl⟩ := List.mem_map.1 hx
    exact hp (hin x.1 (hmem x hxu).1 (hmem x hxu).2)
  have hlook : ∀ p, p < span (top + 1) → ∀ a, look top n' p = some a →
      ∃ a', look top n1 p = some a' ∧ a'.level = a.level := by
    intro p hp a ha
    by_cases hx : p ∈ us.map Prod.fst
    · obtain ⟨x, hxu, rfl⟩ := List.mem_map.1 hx
      obtain ⟨a', ha'⟩ := isSome_iff_exists.1 (hus x hxu).2.2.1
      rw [hins x hxu a' ha'] at ha
      cases ha
      exact ⟨a', ha', rfl⟩
    · exact ⟨a, (houts p hp hx).symm.trans ha, rfl⟩
  refine agrees_replace hbase h1 hv rfl hw (fun p hp => (hactive p).1 hp)
    (fun p hp hno => houts p hp (hnot p hno)) (fun p hp hno => absurd ((hactive p).2 hp) hno)
    (fun p hp => ?_) (fun p a hp ha q hq => ?_)
  · rw [hactive] at hp
    by_cases hx : p ∈ us.map Prod.fst
    · -- a page that was written
      obtain ⟨⟨p, c⟩, hxu, rfl⟩ := List.mem_map.1 hx
      obtain ⟨_, hperm, hsome, _⟩ := hus _ hxu
      obtain ⟨a, ha⟩ := isSome_iff_exists.1 hsome
      obtain ⟨c', f, _, hf, hppn, _⟩ := hold p a hp ha
      have hcur : ActiveRange.currentAt next p = some c :=
        (hr.window p (hmem _ hxu).1 (hmem _ hxu).2).trans hperm
      rw [hins _ hxu a ha, View.expect_of_current (v := { v with active := next }) hcur]
      have hf' : ({ v with active := next } : View).frameAt p = some f := hf
      rw [hf']
      simp [Leaf.target, hppn, View.leafFlags]
    · rw [houts p (hlt p hp) hx, h1.mapped v hv p hp]
      by_cases hwin : lo' ≤ p ∧ p ≤ hi'
      · -- not written: nothing is behind the page
        obtain ⟨c, hc, hmapped⟩ := hall p ((hrange p).2 hwin)
        have hfree : (v.borrows || v.publishes (p - v.start)) = false := by
          by_contra hne
          exact hx (List.mem_map.2 ⟨_, hmapped (Bool.of_not_eq_false hne), rfl⟩)
        rw [Bool.or_eq_false_iff] at hfree
        have hnone : v.frameAt p = none := by
          simp only [View.frameAt, View.managed_of_not_borrows hfree.1, map_eq_none_iff,
            List.find?_eq_none]
          exact List.any_eq_false.1 hfree.2
        have hnone' : ({ v with active := next } : View).frameAt p = none := hnone
        simp [View.expect, hnone, hnone']
      · unfold View.expect
        rw [hr.rest p hwin]
        rfl
  · rw [hactive] at hp ⊢
    obtain ⟨a', ha', hlev⟩ := hlook p (hlt p hp) a ha
    rw [← hlev] at hq
    exact h1.block v hv p a' hp ha' q hq

theorem agrees_unmap (hbase : Base top o views loose) (h : Agrees top n views) (hv : v ∈ views)
    (hid : v'.id = v.id) {start len : Nat} (hlen : 0 < len) (hm : Unmaps top start len n n')
    (hothers : ∀ u ∈ views, u.id ≠ v.id → ∀ p, start ≤ p → p < start + len → ¬ u.Active p)
    (hsub : ∀ p, v'.Active p → v.Active p)
    (hrest : ∀ p, ¬ (start ≤ p ∧ p < start + len) → v.Active p →
      v'.Active p ∧ v'.expect p = v.expect p)
    (hgone : ∀ p, start ≤ p → p < start + len → v'.Active p → v'.expect p = none) :
    Agrees top n' (replace views v') := by
  obtain ⟨n1, room, room', hp, rfl⟩ := hm
  have h1 := h.refines (prepareWith_refines hp)
  have hcut := (prepareWith_spec h.wf room hp).2 rfl
  obtain ⟨hw, hlook⟩ := unmapPrepared_spec h1.wf hlen hcut
  obtain ⟨hw', hsame⟩ := reclaimEmptyTables_spec hw
  have hlt : ∀ p, v.Active p → p < span (top + 1) := fun _ => hbase.lt hv
  refine agrees_replace hbase h1 hv hid hw' hsub (fun p hp hno => ?_) (fun p hp hno => ?_)
    (fun p hp => ?_) (fun p a hp ha q hq => ?_)
  · rw [hsame, hlook p hp]
    split
    · next hin =>
      refine (h1.bare p hp fun u hu hup => ?_).symm
      by_cases hne : u.id = v.id
      · exact hno (hbase.eq_of_id hu hv hne ▸ hup)
      · exact hothers u hu hne p hin.1 hin.2 hup
    · rfl
  · rw [hsame, hlook p (hlt p hp)]
    split
    · rfl
    · next hin => exact absurd (hrest p hin hp).1 hno
  · rw [hsame, hlook p (hlt p (hsub p hp))]
    split
    · next hin => rw [hgone p hin.1 hin.2 hp, map_none]
    · next hin => rw [(hrest p hin (hsub p hp)).2, h1.mapped v hv p (hsub p hp)]
  rw [hsame, hlook p (hlt p (hsub p hp))] at ha
  split at ha
  · simp at ha
  next hin =>
  have hact := h1.block v hv p a (hsub p hp) ha q hq
  refine (hrest q (fun hinq => hin ?_) hact).1
  -- a leaf that meets the span lies in it
  obtain ⟨b, hb, hlev, _⟩ := look_block ha hq
  exact hcut q b hb hinq.1 hinq.2 p (hlev ▸ hq.symm)

theorem agrees_close (h : Agrees top n views) (hm : UnmapsAll top views n n') :
    Agrees top n' (views.map fun v => { v with active := [], published := [] }) := by
  obtain ⟨hw, hlook⟩ := hm h.wf
  have hnever : ∀ v : View, ∀ p, ¬ ({ v with active := [], published := [] } : View).Active p := by
    intro v p hp
    simp [View.Active, ActiveRange.currentAt] at hp
  refine ⟨hw, fun u hu p hp => ?_, fun p hp _ => ?_, fun u hu p a hp => ?_⟩
  · obtain ⟨v, _, rfl⟩ := List.mem_map.1 hu
    exact absurd hp (hnever v p)
  · rcases hlook p hp with hn | ⟨hno, hn⟩
    · exact hn
    · exact hn (h.bare p hp hno)
  · obtain ⟨v, _, rfl⟩ := List.mem_map.1 hu
    exact absurd hp (hnever v p)

end

/-! ## Steps and runs -/

/-- A section that maps pages meets no table where it writes a leaf. -/
def Clear (top : Nat) (w : World) : Act → Prop
  | .install r attrs ha active source frames _ => ∀ v, View.new r attrs ha active source = .ok v →
    Unobstructed top w.st.root (v.installRuns (v.installFrames frames.frames))
  | .publish id first _ frames _ => ∀ v, w.st.view id = some v →
    Unobstructed top w.st.root (v.runs (v.fresh first frames.frames))
  | _ => True

section

variable {top : Nat} {w w' : World} {root : TableNode} {v : View}

theorem agrees_step_install (hok : Ok top w) (h : Agrees top w.st.root w.st.views) {r : Reservation}
    (hr : r ∈ w.loose) {attrs : PteFlags} {ha} {active : List ActiveRange} {source : Source}
    (hv : View.new r attrs ha active source = .ok v) {frames : Materialized r.pages}
    (hu : Unobstructed top w.st.root (v.installRuns (v.installFrames frames.frames)))
    (hover : ∀ u ∈ w.st.views, u.overlaps v.start v.last = false)
    (hmaps : MapsIn top v (v.installRuns (v.installFrames frames.frames)) w.st.root root) :
    Agrees top root (w.st.views ++ [v.publishAll (v.installFrames frames.frames)]) := by
  obtain ⟨hs, hid, hst, hpg, hpub⟩ := View.new_spec hv
  have hfit : v.start + v.pages ≤ span (top + 1) := by
    rw [hst, hpg]
    exact hok.base.room r hr
  have hapart : ∀ u ∈ w.st.views, ∀ p, v.Active p → ¬ u.Active p := by
    intro u hu' p hp hup
    have hspan := hs.mem_span hp
    have hno := hover u hu'
    rw [Bool.eq_false_iff, ne_eq, View.overlaps_iff (by unfold View.last; omega)] at hno
    exact hno ⟨p, hspan.1, by unfold View.last; omega, hup⟩
  have hb : Brings top v (v.publishAll (v.installFrames frames.frames))
      (v.installRuns (v.installFrames frames.frames)) := by
    cases hsrc : v.source with
    | managed =>
      obtain ⟨h1, h2, _⟩ := View.installFrames_spec hs hpub frames
      simp only [View.installRuns, hsrc]
      exact brings_frames hs hfit hsrc h1 h2
    | borrowed base =>
      have hnil : v.installFrames frames.frames = [] := by simp [View.installFrames, hsrc]
      rw [hnil]
      exact brings_lent hs hfit hsrc
  obtain ⟨ps, hps⟩ := v.publishAll_eq (v.installFrames frames.frames)
  have hmr := mapsIn_spec h.wf hb.laid hu hmaps
  refine agrees_install hok.base h hs hfit ?_ ?_ hpub hapart hb hmr
  · rw [hps]
  · rw [hps]

theorem agrees_step_withdraw (hok : Ok top w) (h : Agrees top w.st.root w.st.views)
    (hv : v ∈ w.st.views) {start len : Nat} {pieces : List (Nat × Nat × Nat)} (hlen : 0 < len)
    (ht : Occupancy.Tiles w.occ.occ.atlas v.id (start * pageSize)
      (start * pageSize + (len * pageSize - 1)) pieces)
    (hm : Unmaps top start len w.st.root root) :
    Agrees top root (w.st.put (v.without start (start + (len - 1)))).views := by
  have hs := hok.base.sound v hv
  have hle := Nat.le_add_right start (len - 1)
  have hin : ∀ p, (start ≤ p ∧ p ≤ start + (len - 1)) ↔ (start ≤ p ∧ p < start + len) := by
    intro p
    omega
  refine agrees_unmap hok.base h hv rfl hlen hm (fun u hu hne p h1 h2 hup => ?_)
    (fun p hp => ((View.active_without hs hle).1 hp).1) (fun p hout hact => ⟨?_, ?_⟩)
    (fun p h1 h2 hact => ?_)
  · -- the span is tiled by slots of this View, which lie over no page of another
    have hbyte : start * pageSize ≤ p * pageSize ∧
        p * pageSize ≤ start * pageSize + (len * pageSize - 1) := by
      have g1 := Nat.mul_le_mul_right pageSize h1
      have g2 := Nat.mul_le_mul_right pageSize (Nat.succ_le_of_lt h2)
      rw [Nat.succ_mul, Nat.add_mul] at g2
      have := pageSize_pos
      omega
    obtain ⟨x, hx, h3, h4⟩ := ht.all _ hbyte.1 hbyte.2
    obtain ⟨tag, htag, hid, _⟩ := ht.tag x hx _ h3 h4
    exact hok.base.clear v hv u hu hne.symm p hup tag htag hid
  · exact (View.active_without hs hle).2 ⟨hact, fun hw => hout ((hin p).1 hw)⟩
  · have hcur := (ActiveRange.split_spec hle hs.ordered none).2 p
    rw [if_neg fun hw => hout ((hin p).1 hw)] at hcur
    have hframe : (v.without start (start + (len - 1))).frameAt p = v.frameAt p := by
      cases hsrc : v.source with
      | borrowed base => simp [View.frameAt, View.without, hsrc]
      | managed =>
        have hpage := (hs.mem_span hact).1
        refine Option.ext fun f => ?_
        rw [View.frameAt_managed (v := v.without start (start + (len - 1))) hsrc
          (hs.without hle).sorted, View.frameAt_managed hsrc hs.sorted]
        refine mem_filter.trans (and_iff_left ?_)
        change (!(start ≤ v.start + (p - v.start) && v.start + (p - v.start) ≤ start + (len - 1)))
          = true
        simp only [Bool.not_eq_true', Bool.and_eq_false_iff, decide_eq_false_iff_not]
        omega
    unfold View.expect
    rw [hframe]
    exact congrArg (fun c => Option.bind c _) hcur
  · exact absurd ((hin p).2 ⟨h1, h2⟩) ((View.active_without hs hle).1 hact).2

theorem agrees_step_unpublish (hok : Ok top w) (h : Agrees top w.st.root w.st.views)
    (hv : v ∈ w.st.views) {p : Nat} (hp : v.start ≤ p) {held : Nat × Nat}
    (hheld : v.published.find? (·.1 = p - v.start) = some held)
    (hm : Unmaps top p 1 w.st.root root) :
    Agrees top root (w.st.put { v with published := v.published.erase held }).views := by
  have hs := hok.base.sound v hv
  have hmem := mem_of_find?_eq_some hheld
  have hpage : held.1 = p - v.start := by simpa using List.find?_some hheld
  have hmng : v.source = .managed := by
    refine View.managed_of_not_borrows (Bool.eq_false_iff.2 fun hlent => ?_)
    rw [hs.lent hlent] at hmem
    cases hmem
  have hact : v.Active p := by
    have := hs.active held hmem
    rwa [hpage, Nat.add_sub_cancel' hp] at this
  have hframe : ∀ q f, ({ v with published := v.published.erase held } : View).frameAt q = some f ↔
      (q - v.start, f) ≠ held ∧ v.frameAt q = some f := by
    intro q f
    rw [View.frameAt_managed (v := { v with published := v.published.erase held }) hmng
      (hs.erase held).sorted, View.frameAt_managed hmng hs.sorted]
    exact (List.Nodup.of_map _ (View.nodup_published hs.sorted)).mem_erase_iff
  refine agrees_unmap hok.base h hv rfl Nat.one_pos hm (fun u hu hne q h1 h2 => ?_) (fun _ hq => hq)
    (fun q hout hq => ⟨hq, ?_⟩) (fun q h1 h2 hq => ?_)
  · obtain rfl : q = p := by omega
    exact fun hup => hok.base.apart u hu v hv hne q hup hact
  · have hq' := (hs.mem_span hq).1
    have : ({ v with published := v.published.erase held } : View).frameAt q = v.frameAt q := by
      refine Option.ext fun f => ?_
      rw [hframe]
      refine and_iff_right fun heq => ?_
      have := congrArg Prod.fst heq
      omega
    unfold View.expect
    rw [this]
    rfl
  · obtain rfl : q = p := by omega
    have : ({ v with published := v.published.erase held } : View).frameAt q = none := by
      rw [eq_none_iff_forall_ne_some]
      intro f hf
      obtain ⟨hne, hf⟩ := (hframe q f).1 hf
      rw [View.frameAt_managed hmng hs.sorted] at hf
      exact hne (inj_on_of_nodup_map (View.nodup_published hs.sorted) hf hmem hpage.symm)
    simp [View.expect, this]

/-- A section that meets no table in its way keeps the agreement. -/
theorem agrees_step {kernel : Bool} {act : Act} (hok : Ok top w)
    (h : Agrees top w.st.root w.st.views) (hc : Clear top w act)
    (hs : step top kernel w act = some w') : Agrees top w'.st.root w'.st.views := by
  cases moves_of_step hok hs with
  | splits hsp =>
    obtain ⟨root, rfl, hr⟩ := hsp
    exact h.refines hr
  | install hr hv hover hm => exact agrees_step_install hok h hr hv (hc _ hv) hover hm
  | @publish _ _ _ _ frames v _ hv hcov hlent hm =>
    have hmem := (view_spec hv).1
    obtain ⟨h1, h2, _⟩ := View.fresh_spec (hok.base.sound v hmem) frames hcov hlent
    have hb := brings_frames (hok.base.sound v hmem) (hok.base.fits v hmem)
      (View.managed_of_not_borrows hlent) h1 h2
    have hmr := mapsIn_spec h.wf hb.laid (hc v hv) hm
    obtain ⟨ps, hps⟩ := v.publishAll_eq (v.fresh _ frames.frames)
    rw [hps] at hb ⊢
    refine agrees_replace hok.base h hmem rfl hmr.wf (fun _ hp => hp)
      (fun p hp hno => hb.away hmr hp hno) (fun p hp hno => absurd hp hno) (fun p hp => ?_)
      (fun p a hp ha => ?_)
    · exact hb.expect (by rfl) (by rfl) hmr hp (hok.base.lt hmem hp) fun _ => h.mapped v hmem p hp
    · exact hb.block (by rfl) hmr (hok.base.lt hmem hp) ha fun hold => h.block v hmem p a hp hold
  | reshape hv hr hp hw => exact agrees_reshape hok.base h hv hr hp hw
  | withdraw hv hlen _ ht _ hm => exact agrees_step_withdraw hok h hv hlen ht hm
  | unpublish hv hstart _ hheld hm => exact agrees_step_unpublish hok h hv hstart hheld hm
  | close _ hm => exact agrees_close h hm
  | _ => exact h

end

theorem agrees_initial (top : Nat) : Agrees top leaf [] :=
  ⟨wf_leaf top, by simp, fun p _ _ => look_empty p, by simp⟩

/-- Table and Views agree along every run. -/
theorem agrees_runs {top : Nat} {kernel : Bool} {w : World} (h : Runs top kernel (Clear top) w) :
    Agrees top w.st.root w.st.views := by
  induction h with
  | start => exact agrees_initial top
  | step hr hc hs ih => exact agrees_step (ok_runs hr) ih hc hs

/-- In every state of a run whose sections meet no table where they write a leaf: a leaf lies in the
active ranges of exactly one View and has the flags of the range over each of its pages; the pages
of a managed View translate to the frames published there, and only those translate; every active
page of a borrowed View translates to its place in the lent memory; and no page is active in two
Views. -/
theorem views_agree {top : Nat} {kernel : Bool} {w : World} (h : Runs top kernel (Clear top) w) :
    (∀ p a, p < span (top + 1) → look top w.st.root p = some a → ∃ v ∈ w.st.views,
      (∀ q, q / span a.level = p / span a.level →
        ∃ c, ActiveRange.currentAt v.active q = some c ∧ a.flags = v.leafFlags c.1) ∧
      ∀ u ∈ w.st.views, u.Active p → u = v) ∧
    (∀ v ∈ w.st.views, v.source = .managed →
      (∀ page frame, (page, frame) ∈ v.published →
        ∃ flags, walkRef top w.st.root (v.start + page) = .ok (frame, flags)) ∧
      ∀ p frame flags, v.Active p → walkRef top w.st.root p = .ok (frame, flags) →
        (p - v.start, frame) ∈ v.published) ∧
    (∀ v ∈ w.st.views, ∀ base, v.source = .borrowed base → ∀ p, v.Active p →
      ∃ flags, walkRef top w.st.root p = .ok (base + (p - v.start), flags)) ∧
    ∀ v ∈ w.st.views, ∀ u ∈ w.st.views, v ≠ u → ∀ p, v.Active p → ¬ u.Active p := by
  have hok := ok_runs h
  have ha := agrees_runs h
  have hapart : ∀ v ∈ w.st.views, ∀ u ∈ w.st.views, v ≠ u → ∀ p, v.Active p → ¬ u.Active p :=
    fun v hv u hu hne => hok.base.apart v hv u hu fun hid => hne (hok.base.eq_of_id hv hu hid)
  -- what a View says of a page, read from the table
  have hwalk : ∀ v ∈ w.st.views, ∀ p, v.Active p → ∀ frame,
      (∃ flags, walkRef top w.st.root p = .ok (frame, flags)) ↔ v.frameAt p = some frame := by
    intro v hv p hp frame
    obtain ⟨c, hc⟩ := isSome_iff_exists.1 hp
    have hm := ha.mapped v hv p hp
    rw [View.expect_of_current hc] at hm
    simp only [walkRef_ok_iff ha.wf]
    constructor
    · rintro ⟨flags, a, hlook, hppn, _⟩
      rw [hlook] at hm
      obtain ⟨f, hf, hfe⟩ := map_eq_some_iff.1 hm.symm
      rw [hf, ← hppn]
      exact congrArg some (congrArg Prod.fst hfe)
    intro hf
    rw [hf] at hm
    obtain ⟨a, hlook, hae⟩ := map_eq_some_iff.1 hm
    exact ⟨_, a, hlook, congrArg Prod.fst hae, rfl⟩
  refine ⟨fun p a hp hlook => ?_, fun v hv hmng => ⟨fun page frame hx => ?_,
    fun p frame flags hp hw => ?_⟩, fun v hv base hb p hp => ?_, hapart⟩
  · have hsome : ∃ v ∈ w.st.views, v.Active p := by
      by_contra hno
      simp only [not_exists, not_and] at hno
      rw [ha.bare p hp hno] at hlook
      simp at hlook
    obtain ⟨v, hv, hact⟩ := hsome
    refine ⟨v, hv, fun q hq => ?_, fun u hu hup => ?_⟩
    · obtain ⟨c, hc⟩ := isSome_iff_exists.1 (ha.block v hv p a hact hlook q hq)
      refine ⟨c, hc, ?_⟩
      obtain ⟨b, hb, _, hflags, _⟩ := look_block hlook hq
      have hm := ha.mapped v hv q (isSome_of_eq_some hc)
      rw [hb, View.expect_of_current hc] at hm
      obtain ⟨f, _, hfe⟩ := map_eq_some_iff.1 hm.symm
      rw [← hflags]
      exact (congrArg Prod.snd hfe).symm
    · by_contra hne
      exact hapart u hu v hv hne p hup hact
  · have hs := hok.base.sound v hv
    refine (hwalk v hv _ (hs.active _ hx) frame).2 ((View.frameAt_managed hmng hs.sorted).2 ?_)
    rwa [Nat.add_sub_cancel_left]
  · have hs := hok.base.sound v hv
    exact (View.frameAt_managed hmng hs.sorted).1 ((hwalk v hv p hp frame).1 ⟨flags, hw⟩)
  · exact (hwalk v hv p hp _).2 (by simp [View.frameAt, hb])

theorem noTable_leaf (l : Nat) (c : Chunk) : NoTable l .leaf c :=
  fun _ he => not_branch_of_invalid (slotAt_empty he)

/-- A page of lent memory, attached where no table was made before, translates to its frame. -/
theorem views_agree_lent : ∃ w, execute 2 false [reserveAt 512 0, lend 1 512 0 1024 100] = some w ∧
    ∃ v ∈ w.st.views, v.start = 512 ∧ v.Active 512 ∧
      ∃ flags, walkRef 2 w.st.root 512 = .ok (1024, flags) := by
  have h : (execute 2 false [reserveAt 512 0, lend 1 512 0 1024 100]).any (fun w =>
      w.st.views.any fun v => v.source = .borrowed 1024 && v.start = 512 && decide (v.Active 512)) =
      true := by decide
  obtain ⟨w, he, h⟩ := (Option.any_eq_true _ _).1 h
  simp only [List.any_eq_true, Bool.and_eq_true, decide_eq_true_eq] at h
  obtain ⟨v, hv, ⟨hb, hst⟩, hact⟩ := h
  refine ⟨w, he, v, hv, hst, hact, ?_⟩
  simp only [execute, foldlM_cons, foldlM_nil] at he
  obtain ⟨w1, hs1, he⟩ := bind_eq_some_iff.1 he
  obtain ⟨w2, hs2, he⟩ := bind_eq_some_iff.1 he
  obtain rfl := some.inj he
  have hroot : w1.st.root = .leaf := by
    obtain rfl := some.inj hs1
    rfl
  have hclear : Clear 2 w1 (lend 1 512 0 1024 100) := by
    intro u _ r _ c _
    rw [hroot]
    exact noTable_leaf 2 c
  have hrun : Runs 2 false (Clear 2) w2 :=
    .step (.step .start (by exact trivial) hs1) hclear hs2
  have := (views_agree hrun).2.2.1 v hv 1024 hb 512 hact
  rwa [hst] at this

/-- An attachment of two pages that fails after the table over the first was made; 2 MiB of lent
memory attached over that table; and a permission changed on the first page of them. -/
def overTable : List Act :=
  [reserveAt 1023 1, lend 1 1023 1 0 7, .giveBack (spanOf 1 1023 1),
    reserveAt 512 511, lend 2 512 511 1024 100, .fence, .confirm, .attached (spanOf 2 512 511),
    .setAccess 2 512 512 .read 100]

/-- Splitting the leaf that was written over a table leads back to that table: the other pages are
still active, and are not mapped any more. -/
theorem views_disagree : ∃ w, Runs 2 false (fun _ _ => True) w ∧
    ∃ v ∈ w.st.views, v.source = .borrowed 1024 ∧ v.Active 513 ∧
      ∀ frame flags, walkRef 2 w.st.root 513 ≠ .ok (frame, flags) := by
  have h : (execute 2 false overTable).any (fun w => w.st.views.any fun v =>
      v.source = .borrowed 1024 && decide (v.Active 513) && !(walkRef 2 w.st.root 513).isOk) =
      true := by decide +kernel
  obtain ⟨w, he, h⟩ := (Option.any_eq_true _ _).1 h
  simp only [List.any_eq_true, Bool.and_eq_true, decide_eq_true_eq] at h
  obtain ⟨v, hv, ⟨hb, hact⟩, hwalk⟩ := h
  refine ⟨w, runs_execute (fun _ _ _ => trivial) he, v, hv, hb, hact, fun frame flags hok => ?_⟩
  simp [hok, Except.isOk, Except.toBool] at hwalk

end Sqware.Nest
