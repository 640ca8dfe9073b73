import Sqware.Nest.Space
import Sqware.Nest.ViewSpec

/-!
# What every run of a Nest keeps

Whatever the page table does, the Views of a Nest stay sound: their ranges lie in order inside their
span, the published pages are active, no two Views share an active page, and no slot of one
View's span lies over an active page of another.
-/

namespace Sqware.Nest

open List hiding span

open Spans TableNode Option ActiveRange Occupancy

/-! ## Views -/

namespace View

/-- The page is in an active range. -/
def Active (v : View) (p : Nat) : Prop := (currentAt v.active p).isSome

instance (v : View) (p : Nat) : Decidable (v.Active p) := inferInstanceAs (Decidable (_ = true))

variable {p : Nat} {v : View}

theorem active_iff : v.Active p ↔ ∃ r ∈ v.active, Covers r p :=
  isSome_currentAt

/-- Active ranges are in order inside the View, and what is published is active. -/
structure Sound (v : View) : Prop where
  ordered : Ordered v.active
  inside : ∀ r ∈ v.active, v.start ≤ r.start ∧ r.last ≤ v.last
  sorted : v.published.Pairwise fun x y => x.1 < y.1
  active : ∀ x ∈ v.published, v.Active (v.start + x.1)
  lent : v.borrows = true → v.published = []
  pos : 0 < v.pages

theorem Sound.mem_span (h : v.Sound) (hp : v.Active p) : v.start ≤ p ∧ p < v.start + v.pages := by
  obtain ⟨r, hr, h1, h2⟩ := active_iff.1 hp
  have := h.inside r hr
  have := h.pos
  simp only [lo_range, hi_range, last] at *
  omega

variable {hi' lo' : Nat}

theorem Sound.covers_iff (h : v.Sound) (hle : lo' ≤ hi') :
    v.covers lo' hi' = true ↔ ∀ p, lo' ≤ p → p ≤ hi' → v.Active p := by
  simp only [covers, View.Active, isSome_currentAt, cover_eq]
  exact reaches_iff h.ordered hle

theorem Sound.covers_page (h : v.Sound) : v.covers p p = true ↔ v.Active p := by
  rw [h.covers_iff le_rfl]
  exact ⟨fun hp => hp p le_rfl le_rfl, fun hp q h1 h2 => Nat.le_antisymm h2 h1 ▸ hp⟩

theorem overlaps_iff (hle : lo' ≤ hi') :
    v.overlaps lo' hi' = true ↔ ∃ p, lo' ≤ p ∧ p ≤ hi' ∧ v.Active p := by
  simp only [overlaps, List.any_eq_true, ActiveRange.overlaps, Bool.and_eq_true, decide_eq_true_eq,
    active_iff]
  constructor
  · rintro ⟨r, hr, h1, h2⟩
    have := r.start_le_last
    refine ⟨max lo' r.start, by omega, by omega, r, hr, ?_, ?_⟩
    · simp
    · simp only [hi_range]
      omega
  · rintro ⟨p, h1, h2, r, hr, h3, h4⟩
    simp only [lo_range, hi_range] at h3 h4
    exact ⟨r, hr, by omega, by omega⟩

theorem pairwise_of_zip_tail {l : List ActiveRange}
    (h : (l.zip l.tail).any (fun pair => pair.2.start ≤ pair.1.last) = false) : Ordered l := by
  induction l with
  | nil => exact ordered_nil
  | cons a l ih =>
    cases l with
    | nil => exact ordered_one a
    | cons b l =>
      simp only [tail_cons, zip_cons_cons, any_cons, Bool.or_eq_false_iff,
        decide_eq_false_iff_not, Nat.not_le] at h
      have hord := ih h.2
      refine ordered_cons.2 ⟨a.start_le_last, fun t ht => ?_, hord⟩
      obtain ⟨_, hb, _⟩ := ordered_cons.1 hord
      rcases mem_cons.1 ht with rfl | ht
      · exact h.1
      have h1 := hb t ht
      have h2 := b.start_le_last
      simp only [lo_range, hi_range] at h1 ⊢
      omega

theorem new_spec {r : Reservation} {attrs : PteFlags} {ha} {active : List ActiveRange}
    {source : Source} (h : View.new r attrs ha active source = .ok v) :
    v.Sound ∧ v.id = r.id ∧ v.start = r.start ∧ v.pages = r.pages ∧ v.published = [] := by
  unfold View.new at h
  split at h
  · simp at h
  split at h
  · simp at h
  next hin =>
  split at h
  · simp at h
  next hord =>
  cases h
  refine ⟨⟨pairwise_of_zip_tail (by simpa using hord), fun t ht => ?_, List.Pairwise.nil, by simp,
    fun _ => rfl, r.pos⟩, rfl, rfl, rfl, rfl⟩
  simp only [List.any_eq_true, Bool.or_eq_true, decide_eq_true_eq, not_exists, not_and, not_or,
    Nat.not_lt] at hin
  exact hin t ht

/-! ## Publishing -/

theorem publishes_iff {page : Nat} : v.publishes page = true ↔ ∃ x ∈ v.published, x.1 = page := by
  simp [publishes, List.any_eq_true]

theorem lt_of_mem_dropWhile {l : List (Nat × Nat)} (hs : l.Pairwise fun x y => x.1 < y.1)
    {k : Nat} :
    ∀ x ∈ l.dropWhile (·.1 < k), k ≤ x.1 := by
  induction l with
  | nil => simp
  | cons a l ih =>
    obtain ⟨ha, hl⟩ := pairwise_cons.1 hs
    intro x hx
    rw [dropWhile_cons] at hx
    split at hx
    · exact ih hl x hx
    next hge =>
    simp only [decide_eq_true_eq, Nat.not_lt] at hge
    rcases mem_cons.1 hx with rfl | hx
    · exact hge
    · exact hge.trans (ha x hx).le

theorem publish_spec {page : Nat} (frame : Nat) (hs : v.published.Pairwise fun x y => x.1 < y.1)
    (hn : v.publishes page = false) :
    ((v.publish page frame).published.Pairwise fun x y => x.1 < y.1) ∧
      ∀ x, x ∈ (v.publish page frame).published ↔ x = (page, frame) ∨ x ∈ v.published := by
  have hsplit := takeWhile_append_dropWhile (p := fun x : Nat × Nat => decide (x.1 < page))
    (l := v.published)
  have hbefore : ∀ x ∈ v.published.takeWhile (·.1 < page), x.1 < page := fun x hx => by
    simpa using mem_takeWhile_imp hx
  have hafter : ∀ x ∈ v.published.dropWhile (·.1 < page), page < x.1 := by
    intro x hx
    rcases Nat.eq_or_lt_of_le (lt_of_mem_dropWhile hs x hx) with heq | hlt
    · have : v.publishes page = true := publishes_iff.2 ⟨x, by
        rw [← hsplit]
        exact mem_append_right _ hx, heq.symm⟩
      simp [hn] at this
    · exact hlt
  have hs' := hs
  rw [← hsplit, pairwise_append] at hs'
  refine ⟨?_, fun x => ?_⟩
  · refine pairwise_append.2 ⟨hs'.1, pairwise_cons.2 ⟨hafter, hs'.2.1⟩, fun x hx y hy => ?_⟩
    rcases mem_cons.1 hy with rfl | hy
    · exact hbefore x hx
    · exact hs'.2.2 x hx y hy
  · simp only [publish, mem_append, mem_cons]
    conv_rhs => rw [← hsplit, mem_append]
    tauto

theorem publishAll_eq (v : View) (frames : List (Nat × Nat)) :
    ∃ ps, v.publishAll frames = { v with published := ps } := by
  unfold publishAll
  induction frames generalizing v with
  | nil => exact ⟨v.published, rfl⟩
  | cons x frames ih =>
    obtain ⟨ps, hps⟩ := ih (v.publish x.1 x.2)
    exact ⟨ps, by rw [foldl_cons, hps]; rfl⟩

/-- The records after some frames on other pages were published. -/
theorem publishAll_spec {frames : List (Nat × Nat)} (hs : v.published.Pairwise fun x y => x.1 < y.1)
    (hf : frames.Pairwise fun x y => x.1 < y.1) (hn : ∀ x ∈ frames, v.publishes x.1 = false) :
    ((v.publishAll frames).published.Pairwise fun x y => x.1 < y.1) ∧
      ∀ x, x ∈ (v.publishAll frames).published ↔ x ∈ frames ∨ x ∈ v.published := by
  induction frames generalizing v with
  | nil => exact ⟨hs, by simp [publishAll]⟩
  | cons y frames ih =>
    obtain ⟨hy, hf⟩ := pairwise_cons.1 hf
    obtain ⟨hs1, hm1⟩ := publish_spec y.2 hs (hn y mem_cons_self)
    obtain ⟨hs2, hm2⟩ := ih hs1 hf (fun x hx => by
      have hx' := hn x (mem_cons_of_mem _ hx)
      rw [Bool.eq_false_iff, ne_eq, publishes_iff, not_exists] at hx' ⊢
      rintro z ⟨hz, hzx⟩
      rcases (hm1 z).1 hz with rfl | hz
      · exact absurd hzx (hy x hx).ne
      · exact hx' z ⟨hz, hzx⟩)
    refine ⟨hs2, fun x => ?_⟩
    change x ∈ ((v.publish y.1 y.2).publishAll frames).published ↔ _
    rw [hm2, hm1, mem_cons]
    tauto

theorem Sound.publishAll (h : v.Sound) {frames : List (Nat × Nat)}
    (hf : frames.Pairwise fun x y => x.1 < y.1) (hn : ∀ x ∈ frames, v.publishes x.1 = false)
    (ha : ∀ x ∈ frames, v.Active (v.start + x.1)) (hl : v.borrows = true → frames = []) :
    (v.publishAll frames).Sound := by
  obtain ⟨hs, hm⟩ := publishAll_spec h.sorted hf hn
  obtain ⟨ps, hps⟩ := publishAll_eq v frames
  rw [hps] at hs hm ⊢
  refine ⟨h.ordered, h.inside, hs, fun x hx => ?_, fun hb => ?_, h.pos⟩
  · rcases (hm x).1 hx with hx | hx
    · exact ha x hx
    · exact h.active x hx
  · have hlent := h.lent hb
    refine eq_nil_iff_forall_not_mem.2 fun x hx => ?_
    simpa [hl hb, hlent] using (hm x).1 hx

theorem installFrames_spec (h : v.Sound) (hp : v.published = []) {count : Nat}
    (m : Materialized count) :
    ((v.installFrames m.frames).Pairwise fun x y => x.1 < y.1) ∧
      (∀ x ∈ v.installFrames m.frames, v.publishes x.1 = false ∧ v.Active (v.start + x.1)) ∧
      (v.borrows = true → v.installFrames m.frames = []) := by
  unfold installFrames borrows
  cases v.source with
  | managed =>
    refine ⟨m.sorted.sublist filter_sublist, fun x hx => ?_, by simp⟩
    exact ⟨by simp [publishes, hp], h.covers_page.1 (mem_filter.1 hx).2⟩
  | borrowed base => simp

theorem fresh_spec (h : v.Sound) {first len : Nat} (m : Materialized len)
    (hc : v.covers first (first + (len - 1)) = true) (hb : v.borrows = false) :
    ((v.fresh first m.frames).Pairwise fun x y => x.1 < y.1) ∧
      (∀ x ∈ v.fresh first m.frames, v.publishes x.1 = false ∧ v.Active (v.start + x.1)) ∧
      (v.borrows = true → v.fresh first m.frames = []) := by
  have hcov := (h.covers_iff (Nat.le_add_right _ _)).1 hc
  have hfirst := (h.mem_span (hcov first le_rfl (Nat.le_add_right _ _))).1
  refine ⟨?_, fun x hx => ?_, by simp [hb]⟩
  · refine List.Pairwise.sublist filter_sublist (pairwise_map.2 ?_)
    exact m.sorted.imp fun hlt => by simpa using hlt
  obtain ⟨hx, hnew⟩ := mem_filter.1 hx
  obtain ⟨y, hy, rfl⟩ := List.mem_map.1 hx
  have := m.bounded y hy
  exact ⟨by simpa using hnew, hcov _ (by dsimp only; omega) (by dsimp only; omega)⟩

/-! ## Changing and withdrawing -/

theorem Sound.reshape (h : v.Sound) {next : List ActiveRange} (ho : Ordered next)
    (hi : ∀ r ∈ next, v.start ≤ r.start ∧ r.last ≤ v.last)
    (ha : ∀ p, (currentAt next p).isSome = (currentAt v.active p).isSome) :
    ({ v with active := next } : View).Sound :=
  ⟨ho, hi, h.sorted, fun x hx => (ha _).trans (h.active x hx), h.lent, h.pos⟩

/-- A View without the pages of a window. -/
def without (v : View) (lo' hi' : Nat) : View :=
  { v with active := ActiveRange.split v.active lo' hi' none, published := v.publishedOut lo' hi' }

theorem active_without (h : v.Sound) (hle : lo' ≤ hi') :
    (v.without lo' hi').Active p ↔ v.Active p ∧ ¬ (lo' ≤ p ∧ p ≤ hi') := by
  unfold Active without
  rw [(split_spec hle h.ordered none).2 p]
  split <;> next hw => simp [hw]

theorem Sound.without (h : v.Sound) (hle : lo' ≤ hi') : (v.without lo' hi').Sound := by
  refine ⟨(split_spec hle h.ordered none).1,
    split_inside hle none h.inside, h.sorted.sublist filter_sublist,
    fun x hx => ?_, fun hb => ?_, h.pos⟩
  · obtain ⟨hx, hout⟩ := mem_filter.1 hx
    refine (active_without h hle).2 ⟨h.active x hx, ?_⟩
    change ¬ (lo' ≤ v.start + x.1 ∧ v.start + x.1 ≤ hi')
    simp only [Bool.not_eq_true', Bool.and_eq_false_iff, decide_eq_false_iff_not] at hout
    omega
  · change v.publishedOut lo' hi' = []
    rw [publishedOut, h.lent hb, filter_nil]

theorem Sound.erase (h : v.Sound) (x : Nat × Nat) :
    ({ v with published := v.published.erase x } : View).Sound :=
  ⟨h.ordered, h.inside, h.sorted.sublist erase_sublist,
    fun y hy => h.active y (mem_of_mem_erase hy), fun hb => by simp [h.lent hb], h.pos⟩

theorem Sound.emptied (h : v.Sound) : ({ v with active := [], published := [] } : View).Sound :=
  ⟨ordered_nil, by simp, List.Pairwise.nil, by simp, fun _ => rfl, h.pos⟩

end View

/-! ## The occupancy table -/

namespace Occupancy

/-- Every address keeps its generation or becomes free. -/
def Shrinks (m m' : Atlas) : Prop := ∀ a tag', m' a = some tag' →
    ∃ tag, m a = some tag ∧ tag.id = tag'.id

theorem Shrinks.refl (m : Atlas) : Shrinks m m := fun _ tag' h => ⟨tag', h, rfl⟩

theorem shrinks_paint (m : Atlas) (start last : Nat) : Shrinks m (m.paint start last none) := by
  intro a tag' h
  unfold Atlas.paint at h
  split at h
  · simp at h
  · exact ⟨tag', h, rfl⟩

/-- The pieces of a span lie in it, tile it, and have the ticket of what is there. -/
structure Tiles (m : Atlas) (id start last : Nat) (ps : List (Nat × Nat × Nat)) : Prop where
  inside : ∀ x ∈ ps, start ≤ x.1 ∧ x.1 ≤ x.2.1 ∧ x.2.1 ≤ last
  tag : ∀ x ∈ ps, ∀ a, x.1 ≤ a → a ≤ x.2.1 →
    ∃ tag, m a = some tag ∧ tag.id = id ∧ tag.ticket = x.2.2
  all : ∀ a, start ≤ a → a ≤ last → ∃ x ∈ ps, x.1 ≤ a ∧ a ≤ x.2.1

variable {ps : List (Nat × Nat × Nat)} {id : Nat}

theorem piecesFrom_tiles {o : Occupancy} (h : Ordered o.slots) {slots : List Slot}
    (hs : ∀ s ∈ slots, s ∈ o.slots) {last at' : Nat} (hat : at' ≤ last)
    (hp : piecesFrom last id slots at' = .ok ps) : Tiles o.atlas id at' last ps := by
  induction slots generalizing at' ps with
  | nil => simp [piecesFrom] at hp
  | cons slot slots ih =>
    have hrest : ∀ s ∈ slots, s ∈ o.slots := fun s hm => hs s (mem_cons_of_mem _ hm)
    unfold piecesFrom at hp
    split at hp
    · exact ih hrest hat hp
    split at hp
    · simp at hp
    split at hp
    · simp at hp
    next h1 h2 h3 =>
    simp only [not_or, ne_eq, not_not, Nat.not_lt] at h1 h2 h3
    have htag : ∀ a, at' ≤ a → a ≤ min slot.last last →
        ∃ tag, o.atlas a = some tag ∧ tag.id = id ∧ tag.ticket = slot.ticket := by
      intro a ha ha'
      refine ⟨slot.tag, (atlas_eq_some h).2 ⟨slot, hs slot mem_cons_self, ?_, rfl⟩, h3.1, rfl⟩
      simp only [Covers, lo_slot, hi_slot]
      omega
    simp only [] at hp
    split at hp
    · next hlast =>
      cases hp
      refine ⟨?_, ?_, fun a ha ha' => ⟨_, mem_singleton_self _, ha, ?_⟩⟩
      · intro x hx
        rw [mem_singleton] at hx
        subst hx
        dsimp only
        omega
      · intro x hx
        rw [mem_singleton] at hx
        subst hx
        exact htag
      · dsimp only
        omega
    · next hlast =>
      cases hr : piecesFrom last id slots (min slot.last last + 1) with
      | error e => simp [hr, bind, Except.bind] at hp
      | ok rest =>
        simp only [hr, bind, Except.bind, Except.ok.injEq] at hp
        subst hp
        have ht := ih hrest (by omega) hr
        refine ⟨fun x hx => ?_, fun x hx => ?_, fun a ha ha' => ?_⟩
        · rcases mem_cons.1 hx with rfl | hx
          · dsimp only
            omega
          · have := ht.inside x hx
            omega
        · rcases mem_cons.1 hx with rfl | hx
          · exact htag
          · exact ht.tag x hx
        by_cases hle : a ≤ min slot.last last
        · exact ⟨_, mem_cons_self, ha, hle⟩
        · obtain ⟨x, hx, hax⟩ := ht.all a (by omega) ha'
          exact ⟨x, mem_cons_of_mem _ hx, hax⟩

/-- Addresses in use by `id` were retired under new tickets: all those in a piece that was in use,
and no others. -/
structure Retires (id : Nat) (ps : List (Nat × Nat × Nat)) (o o' : State) (tickets : List Nat) :
    Prop where
  good : Good o'
  ids : o'.ids = o.ids
  tickets_le : o.tickets ≤ o'.tickets
  free : ∀ a, o.occ.atlas a = none → o'.occ.atlas a = none
  keep : ∀ a tag, o.occ.atlas a = some tag → ∃ tag', o'.occ.atlas a = some tag' ∧ tag'.id = tag.id ∧
    (tag' = tag ∨ tag.id = id ∧ tag.ticket = 0 ∧ tag'.ticket ∈ tickets ∧ o.tickets ≤ tag'.ticket)
  gone : ∀ x ∈ ps, x.2.2 = 0 → ∀ a, x.1 ≤ a → a ≤ x.2.1 → ∀ tag', o'.occ.atlas a = some tag' →
    tag'.id = id → tag'.ticket ≠ 0
  outside : ∀ a, (∀ x ∈ ps, ¬ (x.1 ≤ a ∧ a ≤ x.2.1)) → o'.occ.atlas a = o.occ.atlas a
  drawn : ∀ t ∈ tickets, (o.tickets ≤ t ∧ t < o'.tickets) ∨ (t ≠ 0 ∧ ∃ x ∈ ps, x.2.2 = t)

theorem retirePieces_retires {o o' : State} {tickets : List Nat} (h : Good o)
    (hle : ∀ x ∈ ps, x.1 ≤ x.2.1) (hr : retirePieces id ps o = some (o', tickets)) :
    Retires id ps o o' tickets := by
  induction ps generalizing o o' tickets with
  | nil =>
    obtain ⟨rfl, rfl⟩ := hr
    exact ⟨h, rfl, le_rfl, fun _ h => h, fun a tag ht => ⟨tag, ht, rfl, .inl rfl⟩, by simp,
      fun _ _ => rfl, by simp⟩
  | cons x ps ih =>
    obtain ⟨lo', hi', ticket⟩ := x
    have hle' : ∀ x ∈ ps, x.1 ≤ x.2.1 := fun x hx => hle x (mem_cons_of_mem _ hx)
    unfold retirePieces at hr
    split at hr
    · next hz =>
      split at hr
      · simp at hr
      next hmax =>
      simp only [map_eq_some_iff, Prod.mk.injEq, Prod.exists] at hr
      obtain ⟨o2, ts, hr, rfl, rfl⟩ := hr
      have hlohi : lo' ≤ hi' := hle _ mem_cons_self
      have hg := good_step h (.retire ⟨lo', hi', hlohi⟩ id)
      simp only [step, if_neg hmax] at hg
      have ht := ih hg hle' hr
      have hat : (o.occ.retire o.tickets lo' hi' id).atlas = _ := retire_atlas h.ordered hlohi
      have hpos := h.tickets_pos
      refine ⟨ht.good, ht.ids, (Nat.le_succ _).trans ht.tickets_le, fun a ha => ?_,
        fun a tag ha => ?_, fun x hx hz a ha ha' tag' htag hid => ?_, fun a hno => ?_,
        fun t hmem => ?_⟩
      · apply ht.free
        simp only [hat, Atlas.retire, ha, map_none]
      · by_cases hin : lo' ≤ a ∧ a ≤ hi' ∧ tag.ticket = 0 ∧ tag.id = id
        · obtain ⟨tag', h1, h2, h3⟩ := ht.keep a { tag with ticket := o.tickets }
            (by simp only [hat, Atlas.retire, ha, map_some, if_pos hin])
          refine ⟨tag', h1, h2, .inr ⟨hin.2.2.2, hin.2.2.1, ?_⟩⟩
          rcases h3 with rfl | ⟨_, hz, _⟩
          · exact ⟨mem_cons_self, le_rfl⟩
          · exact absurd hz hpos.ne'
        obtain ⟨tag', h1, h2, h3⟩ := ht.keep a tag
          (by simp only [hat, Atlas.retire, ha, map_some, if_neg hin])
        refine ⟨tag', h1, h2, h3.imp_right fun g => ?_⟩
        exact ⟨g.1, g.2.1, mem_cons_of_mem _ g.2.2.1, (Nat.le_succ _).trans g.2.2.2⟩
      · rcases mem_cons.1 hx with rfl | hx
        · -- retired here, and a ticket never becomes 0 again
          cases hold : o.occ.atlas a with
          | none =>
            have := ht.free a (by simp only [hat, Atlas.retire, hold, map_none])
            rw [htag] at this
            simp at this
          | some tag =>
            by_cases hin : lo' ≤ a ∧ a ≤ hi' ∧ tag.ticket = 0 ∧ tag.id = id
            · obtain ⟨tag'', h1, _, h3⟩ := ht.keep a { tag with ticket := o.tickets }
                (by simp only [hat, Atlas.retire, hold, map_some, if_pos hin])
              cases htag.symm.trans h1
              rcases h3 with rfl | ⟨_, _, _, hge⟩
              · exact hpos.ne'
              · dsimp only at hge
                omega
            obtain ⟨tag'', h1, h2, h3⟩ := ht.keep a tag
              (by simp only [hat, Atlas.retire, hold, map_some, if_neg hin])
            cases htag.symm.trans h1
            rcases h3 with rfl | ⟨_, _, _, hge⟩
            · exact fun hzero => hin ⟨ha, ha', hzero, hid⟩
            · dsimp only at hge
              omega
        · exact ht.gone x hx hz a ha ha' tag' htag hid
      · rw [ht.outside a fun x hx => hno x (mem_cons_of_mem _ hx)]
        have hhere := hno _ mem_cons_self
        simp only [hat, Atlas.retire]
        cases o.occ.atlas a with
        | none => rfl
        | some tag =>
          rw [map_some, if_neg fun hin => hhere ⟨hin.1, hin.2.1⟩]
      rcases mem_cons.1 hmem with rfl | hmem
      · exact .inl ⟨le_rfl, ht.tickets_le⟩
      · rcases ht.drawn t hmem with ⟨h1, h2⟩ | ⟨h1, x, hx, h2⟩
        · exact .inl ⟨(Nat.le_succ _).trans h1, h2⟩
        · exact .inr ⟨h1, x, mem_cons_of_mem _ hx, h2⟩
    · next hz =>
      simp only [map_eq_some_iff, Prod.mk.injEq, Prod.exists] at hr
      obtain ⟨o2, ts, hr, rfl, rfl⟩ := hr
      have ht := ih h hle' hr
      refine ⟨ht.good, ht.ids, ht.tickets_le, ht.free, fun a tag ha => ?_,
        fun x hx hx0 a ha ha' => ?_, fun a hno => ?_, fun t hmem => ?_⟩
      · obtain ⟨tag', h1, h2, h3⟩ := ht.keep a tag ha
        exact ⟨tag', h1, h2, h3.imp_right fun g =>
          ⟨g.1, g.2.1, mem_cons_of_mem _ g.2.2.1, g.2.2.2⟩⟩
      · rcases mem_cons.1 hx with rfl | hx
        · exact absurd hx0 hz
        · exact ht.gone x hx hx0 a ha ha'
      · exact ht.outside a fun x hx => hno x (mem_cons_of_mem _ hx)
      rcases mem_cons.1 hmem with rfl | hmem
      · exact .inr ⟨hz, _, mem_cons_self, rfl⟩
      · refine (ht.drawn t hmem).imp_right fun hd => ?_
        obtain ⟨h1, x, hx, h2⟩ := hd
        exact ⟨h1, x, mem_cons_of_mem _ hx, h2⟩

theorem Retires.shrinks {o o' : State} {tickets : List Nat} (h : Retires id ps o o' tickets) :
    Shrinks o.occ.atlas o'.occ.atlas := by
  intro a tag' htag
  cases hold : o.occ.atlas a with
  | none =>
    rw [h.free a hold] at htag
    simp at htag
  | some tag =>
    obtain ⟨tag'', h1, h2, _⟩ := h.keep a tag hold
    cases htag.symm.trans h1
    exact ⟨tag, rfl, h2.symm⟩

theorem good_reclaims {o : State} (h : Good o) (tickets : List Nat) :
    Good { o with occ := tickets.foldl reclaim o.occ } := by
  induction tickets generalizing o with
  | nil => exact h
  | cons t tickets ih => exact ih (good_step h (.reclaim t))

theorem reclaims_atlas {o : State} (h : Good o) (tickets : List Nat) (a : Nat) :
    (tickets.foldl reclaim o.occ).atlas a = (o.occ.atlas a).filter (·.ticket ∉ tickets) := by
  induction tickets generalizing o with
  | nil =>
    rw [foldl_nil]
    cases o.occ.atlas a <;> simp [Option.filter]
  | cons t tickets ih =>
    have hg := good_step h (.reclaim t)
    refine (ih hg).trans ?_
    change ((o.occ.reclaim t).atlas a).filter _ = _
    rw [reclaim_atlas h.ordered]
    unfold Atlas.reclaim
    cases o.occ.atlas a with
    | none => rfl
    | some tag =>
      by_cases ht : tag.ticket = t <;> by_cases hm : tag.ticket ∈ tickets <;>
        simp [Option.filter, ht, hm]

end Occupancy

open Occupancy (Good Shrinks Tiles Retires)

/-- A span in hand: all of it is in use under its generation, and nothing else is. -/
structure Held (m : Atlas) (r : Reservation) : Prop where
  mine : ∀ a, r.firstByte ≤ a → a ≤ r.lastByte →
    ∃ tag, m a = some tag ∧ tag.id = r.id ∧ tag.ticket = 0
  only : ∀ a tag, m a = some tag → tag.id = r.id → r.firstByte ≤ a ∧ a ≤ r.lastByte

theorem Reservation.first_le {r : Reservation} {p : Nat} (h : r.start ≤ p)
    (h' : p < r.start + r.pages) : r.firstByte ≤ p * pageSize ∧ p * pageSize ≤ r.lastByte := by
  unfold firstByte lastByte
  have h1 := Nat.mul_le_mul_right pageSize h
  have h2 := Nat.mul_le_mul_right pageSize (Nat.succ_le_of_lt h')
  rw [Nat.succ_mul, Nat.add_mul] at h2
  have hp := pageSize_pos
  omega

/-! ## The invariant -/

/-- Views and reservations have identities of their own, and no page belongs to two Views. -/
structure Base (top : Nat) (o : Occupancy.State) (views : List View) (loose : List Reservation) :
    Prop where
  good : Good o
  sound : ∀ v ∈ views, v.Sound
  fits : ∀ v ∈ views, v.start + v.pages ≤ span (top + 1)
  ids : (views.map View.id ++ loose.map Reservation.id).Nodup
  known : ∀ id ∈ views.map View.id ++ loose.map Reservation.id, id < o.ids
  apart : ∀ v ∈ views, ∀ u ∈ views, v.id ≠ u.id → ∀ p, v.Active p → ¬ u.Active p
  clear : ∀ v ∈ views, ∀ u ∈ views, v.id ≠ u.id → ∀ p, u.Active p →
    ∀ tag, o.occ.atlas (p * pageSize) = some tag → tag.id ≠ v.id
  held : ∀ r ∈ loose, Held o.occ.atlas r
  room : ∀ r ∈ loose, r.start + r.pages ≤ span (top + 1)

section base

variable {top : Nat} {o o' : Occupancy.State} {views : List View} {loose : List Reservation}

theorem Base.ids_views (h : Base top o views loose) : (views.map View.id).Nodup :=
  (nodup_append.1 h.ids).1

variable {v : View}

theorem Base.eq_of_id (h : Base top o views loose) {u : View} (hv : v ∈ views) (hu : u ∈ views)
    (hid : v.id = u.id) : v = u :=
  inj_on_of_nodup_map h.ids_views hv hu hid

theorem Base.lt (h : Base top o views loose) (hv : v ∈ views) {p : Nat} (hp : v.Active p) :
    p < span (top + 1) :=
  ((h.sound v hv).mem_span hp).2.trans_le (h.fits v hv)

variable {r : Reservation}

theorem Base.fresh_id (h : Base top o views loose) (hv : v ∈ views) (hr : r ∈ loose) :
    v.id ≠ r.id :=
  (nodup_append.1 h.ids).2.2 _ (List.mem_map_of_mem hv) _ (List.mem_map_of_mem hr)

/-- The occupancy table may let go of addresses that no span in hand has. -/
theorem Base.shrink (h : Base top o views loose) (hg : Good o') (hi : o.ids ≤ o'.ids)
    (hs : Shrinks o.occ.atlas o'.occ.atlas)
    (hh : ∀ r ∈ loose, ∀ a tag, o.occ.atlas a = some tag → tag.id = r.id → tag.ticket = 0 →
      o'.occ.atlas a = some tag) : Base top o' views loose where
  good := hg
  sound := h.sound
  fits := h.fits
  ids := h.ids
  known := fun id hid => (h.known id hid).trans_le hi
  apart := h.apart
  clear := by
    intro v hv u hu hne p hp tag' htag
    obtain ⟨tag, ht, hid⟩ := hs _ tag' htag
    exact hid ▸ h.clear v hv u hu hne p hp tag ht
  held := by
    intro r hr
    refine ⟨fun a ha ha' => ?_, fun a tag' htag hid => ?_⟩
    · obtain ⟨tag, ht, h1, h2⟩ := (h.held r hr).mine a ha ha'
      exact ⟨tag, hh r hr a tag ht h1 h2, h1, h2⟩
    · obtain ⟨tag, ht, hid'⟩ := hs a tag' htag
      exact (h.held r hr).only a tag ht (hid'.trans hid)
  room := h.room

theorem Base.same (h : Base top o views loose) (hs : o'.occ.slots = o.occ.slots)
    (hi : o.ids ≤ o'.ids) (ht : o.tickets ≤ o'.tickets) : Base top o' views loose := by
  have hat : o'.occ.atlas = o.occ.atlas := by
    funext a
    simp only [Occupancy.atlas, hs]
  exact h.shrink (h.good.of_slots_eq hs hi ht) hi (hat ▸ .refl _)
    fun r _ a tag htag _ _ => hat ▸ htag

theorem Base.sublist (h : Base top o views loose) {loose' : List Reservation}
    (hs : loose'.Sublist loose) : Base top o views loose' where
  good := h.good
  sound := h.sound
  fits := h.fits
  ids := h.ids.sublist ((hs.map Reservation.id).append_left _)
  known := fun id hid => h.known id (((hs.map Reservation.id).append_left _).subset hid)
  apart := h.apart
  clear := h.clear
  held := fun r hr => h.held r (hs.subset hr)
  room := fun r hr => h.room r (hs.subset hr)

/-- What a section may make of a View. -/
structure Lessens (v v' : View) : Prop where
  id : v'.id = v.id
  start : v'.start = v.start
  pages : v'.pages = v.pages
  sound : v'.Sound
  active : ∀ p, v'.Active p → v.Active p

theorem Lessens.refl (h : v.Sound) : Lessens v v := ⟨rfl, rfl, rfl, h, fun _ h => h⟩

theorem Base.map (h : Base top o views loose) {f : View → View}
    (hf : ∀ v ∈ views, Lessens v (f v)) :
    Base top o (views.map f) loose := by
  have hids : (views.map f).map View.id = views.map View.id := by
    rw [List.map_map]
    exact map_congr_left fun v hv => (hf v hv).id
  refine ⟨h.good, ?_, ?_, hids ▸ h.ids, hids ▸ h.known, ?_, ?_, h.held, h.room⟩
  · intro v' hv'
    obtain ⟨v, hv, rfl⟩ := List.mem_map.1 hv'
    exact (hf v hv).sound
  · intro v' hv'
    obtain ⟨v, hv, rfl⟩ := List.mem_map.1 hv'
    rw [(hf v hv).start, (hf v hv).pages]
    exact h.fits v hv
  · intro v' hv' u' hu' hne p hp hp'
    obtain ⟨v, hv, rfl⟩ := List.mem_map.1 hv'
    obtain ⟨u, hu, rfl⟩ := List.mem_map.1 hu'
    rw [(hf v hv).id, (hf u hu).id] at hne
    exact h.apart v hv u hu hne p ((hf v hv).active p hp) ((hf u hu).active p hp')
  intro v' hv' u' hu' hne p hp
  obtain ⟨v, hv, rfl⟩ := List.mem_map.1 hv'
  obtain ⟨u, hu, rfl⟩ := List.mem_map.1 hu'
  rw [(hf v hv).id, (hf u hu).id] at hne
  rw [(hf v hv).id]
  exact h.clear v hv u hu hne p ((hf u hu).active p hp)

/-- A View comes in over a span in hand, away from all active pages. -/
theorem Base.install (h : Base top o views loose) (hr : r ∈ loose) (hs : v.Sound)
    (hid : v.id = r.id) (hst : v.start = r.start) (hpg : v.pages = r.pages)
    (hover : ∀ u ∈ views, ∀ p, v.start ≤ p → p ≤ v.last → ¬ u.Active p) :
    Base top o (views ++ [v]) (loose.erase r) := by
  have hspan : ∀ p, v.Active p → r.start ≤ p ∧ p < r.start + r.pages := by
    intro p hp
    have := hs.mem_span hp
    omega
  have hout : ∀ u ∈ views, ∀ p, v.start ≤ p → p < v.start + v.pages → ¬ u.Active p :=
    fun u hu p h1 h2 => hover u hu p h1 (by
      unfold View.last
      omega)
  have hmem : ∀ u ∈ views ++ [v], u ∈ views ∨ u = v := fun u hu => by simpa using hu
  refine ⟨h.good, ?_, ?_, ?_, ?_, ?_, ?_, ?_, ?_⟩
  · intro u hu
    rcases hmem u hu with hu | rfl
    · exact h.sound u hu
    · exact hs
  · intro u hu
    rcases hmem u hu with hu | rfl
    · exact h.fits u hu
    · rw [hst, hpg]
      exact h.room r hr
  · have hperm : (views.map View.id ++ loose.map Reservation.id).Perm
        ((views ++ [v]).map View.id ++ (loose.erase r).map Reservation.id) := by
      rw [map_append, append_assoc]
      refine List.Perm.append_left _ ?_
      have := (perm_cons_erase hr).map Reservation.id
      rwa [map_cons, ← hid] at this
    exact hperm.nodup_iff.1 h.ids
  · intro id hm
    rw [map_append, append_assoc, mem_append, mem_append] at hm
    rcases hm with hm | hm | hm
    · exact h.known id (mem_append_left _ hm)
    · rw [map_singleton, mem_singleton, hid] at hm
      subst hm
      exact h.known _ (mem_append_right _ (List.mem_map_of_mem hr))
    · exact h.known id (mem_append_right _ ((erase_sublist.map _).subset hm))
  · intro u hu t ht hne p hp hp'
    rcases hmem u hu with hu' | rfl <;> rcases hmem t ht with ht' | rfl
    · exact h.apart u hu' t ht' hne p hp hp'
    · have := hs.mem_span hp'
      exact hout u hu' p this.1 this.2 hp
    · have := hs.mem_span hp
      exact hout t ht' p this.1 this.2 hp'
    · exact hne rfl
  · intro u hu t ht hne p hp tag htag heq
    rcases hmem u hu with hu' | rfl <;> rcases hmem t ht with ht' | rfl
    · exact h.clear u hu' t ht' hne p hp tag htag heq
    · -- the page is in the span in hand
      obtain ⟨h1, h2⟩ := hspan p hp
      obtain ⟨h3, h4⟩ := Reservation.first_le h1 h2
      obtain ⟨tag', htag', hid', _⟩ := (h.held r hr).mine _ h3 h4
      cases htag.symm.trans htag'
      exact h.fresh_id hu' hr (heq.symm.trans hid')
    · -- no active page of another View is in the span
      obtain ⟨h1, h2⟩ := (h.held r hr).only _ tag htag (heq.trans hid)
      refine hout t ht' p ?_ ?_ hp
      · rw [hst]
        exact Nat.le_of_mul_le_mul_right h1 (by decide)
      rw [hst, hpg]
      unfold Reservation.lastByte at h2
      have hpos := Nat.mul_pos r.pos pageSize_pos
      refine Nat.lt_of_mul_lt_mul_right (a := pageSize) ?_
      rw [Nat.add_mul]
      omega
    · exact hne rfl
  · exact fun t ht => h.held t (mem_of_mem_erase ht)
  · exact fun t ht => h.room t (mem_of_mem_erase ht)

theorem Base.reserve (h : Base top o views loose) {r1 r2 : Bool} {p : Placement} {occ : Occupancy}
    {start id ids : Nat} (he : o.occ.reserve o.ids r1 r2 p = (.ok (occ, start, id), ids))
    (hid : r.id = id) (hst : r.start * pageSize = start) (hpg : r.pages * pageSize = p.size)
    (hfit : r.start + r.pages ≤ span (top + 1)) :
    Base top { o with occ, ids } views (r :: loose) := by
  have hg := good_step h.good (.reserve r1 r2 p)
  simp only [Occupancy.step, he] at hg
  obtain ⟨last, hlast, _, _, hat, _, hfree, rfl, rfl⟩ := reserve_spec h.good.ordered he
  have hnew : ∀ a, (start ≤ a ∧ a ≤ last) ∨ occ.atlas a = o.occ.atlas a := by
    intro a
    rw [hat]
    by_cases ha : start ≤ a ∧ a ≤ last
    · exact .inl ha
    · exact .inr (if_neg ha)
  have hpaint : ∀ a, start ≤ a → a ≤ last → occ.atlas a = some ⟨0, o.ids, p.region⟩ := by
    intro a ha ha'
    rw [hat]
    exact if_pos ⟨ha, ha'⟩
  have hknown := h.known
  have hperm : ((views.map View.id) ++ (r :: loose).map Reservation.id).Perm
      (r.id :: (views.map View.id ++ loose.map Reservation.id)) := by
    exact perm_middle
  have hfb : r.firstByte = start := hst
  have hlb : r.lastByte = last := by
    unfold Reservation.lastByte
    omega
  refine ⟨hg, h.sound, h.fits, ?_, ?_, h.apart, ?_, ?_, ?_⟩
  · rw [hperm.nodup_iff, nodup_cons]
    refine ⟨fun hm => ?_, h.ids⟩
    have := hknown _ hm
    omega
  · intro id hm
    rcases mem_cons.1 (hperm.mem_iff.1 hm) with rfl | hm
    · change r.id < o.ids + 1
      omega
    · exact (hknown id hm).trans (Nat.lt_succ_self _)
  · intro v hv u hu hne q hq tag htag heq
    rcases hnew (q * pageSize) with ⟨h1, h2⟩ | hold
    · rw [hpaint _ h1 h2] at htag
      cases htag
      have := hknown v.id (mem_append_left _ (List.mem_map_of_mem hv))
      dsimp only at heq
      omega
    · exact h.clear v hv u hu hne q hq tag (hold ▸ htag) heq
  · intro t ht
    rcases mem_cons.1 ht with rfl | ht
    · refine ⟨fun a ha ha' => ⟨_, hpaint a (by omega) (by omega), hid.symm, rfl⟩,
        fun a tag htag heq => ?_⟩
      rcases hnew a with hin | hold
      · omega
      rw [hold] at htag
      obtain ⟨s, hs, _, rfl⟩ := (atlas_eq_some h.good.ordered).1 htag
      have := h.good.ids_fresh s hs
      rw [Slot.tag_id] at heq
      omega
    · have hlt := hknown t.id (mem_append_right _ (List.mem_map_of_mem ht))
      refine ⟨fun a ha ha' => ?_, fun a tag htag heq => ?_⟩
      · obtain ⟨tag, htag, h1, h2⟩ := (h.held t ht).mine a ha ha'
        rcases hnew a with hin | hold
        · rw [hfree a hin.1 hin.2] at htag
          simp at htag
        · exact ⟨tag, hold ▸ htag, h1, h2⟩
      rcases hnew a with ⟨h1, h2⟩ | hold
      · rw [hpaint a h1 h2] at htag
        cases htag
        dsimp only at heq
        omega
      · exact (h.held t ht).only a tag (hold ▸ htag) heq
  · intro t ht
    rcases mem_cons.1 ht with rfl | ht
    · exact hfit
    · exact h.room t ht

/-- Giving a span back takes nothing of another generation, and nothing that was retired. -/
theorem release_keep (h : Good o) (r : Reservation) {a : Nat} {tag : Tag}
    (ht : o.occ.atlas a = some tag) (hne : tag.id ≠ r.id ∨ tag.ticket ≠ 0) :
    (o.occ.release r.firstByte r.lastByte r.id).1.atlas a = some tag := by
  cases hb : (o.occ.release r.firstByte r.lastByte r.id).2 with
  | false => rwa [release_unchanged hb]
  | true =>
    obtain ⟨region, _, hmem, hat⟩ := release_spec h.ordered (Prod.ext rfl hb)
    rw [hat]
    unfold Atlas.paint
    rw [if_neg]
    · exact ht
    intro hin
    have hslot : o.occ.atlas a = some ⟨0, r.id, region⟩ :=
      (atlas_eq_some h.ordered).2 ⟨_, hmem, hin, rfl⟩
    cases ht.symm.trans hslot
    exact hne.elim (fun h => h rfl) fun h => h rfl

/-- A span that is given back is no other span in hand. -/
theorem Base.giveBack (h : Base top o views loose) (r : Reservation)
    (hr : ∀ t ∈ loose, t.id ≠ r.id) :
    Base top { o with occ := (o.occ.release r.firstByte r.lastByte r.id).1 } views loose := by
  have hg := good_step h.good (.release r.firstByte r.lastByte r.id)
  cases hb : (o.occ.release r.firstByte r.lastByte r.id).2 with
  | false =>
    exact h.same (congrArg slots (release_unchanged hb)) le_rfl le_rfl
  | true =>
    obtain ⟨region, _, hmem, hat⟩ := release_spec h.good.ordered (Prod.ext rfl hb)
    exact h.shrink hg le_rfl (hat ▸ shrinks_paint _ _ _) fun t ht a tag htag hid _ =>
      release_keep h.good r htag (.inl fun heq => hr t ht (hid.symm.trans heq))

end base

end Sqware.Nest
