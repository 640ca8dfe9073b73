import Mathlib.Logic.Relation
import Sqware.Flat.World

/-!
# Transfers conserve frames

Each step is one locked section or one atomic operation on a custody; any number of callers may
be between two of theirs, so a run is any interleaving of them.  `from_frames` registers the
custody of its frames one by one and publishes the new source last.

Two things are recorded beside the world: the frames that materialization allocated, and the
slots that `from_frames` filled with frames it was given.
-/

namespace Sqware.Flats

open Table List Option Function

/-- The world with what is recorded beside it. -/
structure State where
  world : World := {}
  created : List Nat := []
  imports : List (Seat × Nat) := []

def World.append (w : World) (fl : Flat) : World := { w with flats := w.flats ++ [fl] }

def World.replace (w : World) (s : Nat) (fl : Flat) : World := { w with flats := w.flats.set s fl }

/-- One locked section, or one operation on a custody. -/
inductive Step : State → State → Prop
  | acquire {st : State} (pageCount : Nat) :
      Step st { st with world := st.world.append (Flat.acquire pageCount) }
  | fromRegion {st : State} {start size : Nat} {fl : Flat}
      (h : Flat.fromRegion start size = .ok fl) :
      Step st { st with world := st.world.append fl }
  -- a frame allocated for an import
  | allocate {st : State} :
      Step st { st with world := { st.world with nextFrame := st.world.nextFrame + 1 } }
  | register {st : State} {frame : Nat} {c : Custody} (hf : frame < st.world.nextFrame)
      (h : (st.world.custody frame).register = .ok c) :
      Step st { st with world := { st.world with
        custody := update st.world.custody frame c } }
  | fromFrames {st : State} {pageCount : Nat} {frames : List (Nat × Nat)} {fl : Flat}
      (h : Flat.fromFrames pageCount frames = .ok fl)
      (hf : ∀ x ∈ frames, x.2 < st.world.nextFrame)
      (hc : ∀ x ∈ frames, st.world.custody x.2 = .aliased) :
      Step st { st with
        world := st.world.append fl
        imports := frames.map (fun x => (⟨st.world.flats.length, x.1⟩, x.2)) ++ st.imports }
  | markUntransferable {st : State} {s : Nat} {fl : Flat} (hs : st.world.flats[s]? = some fl) :
      Step st { st with world := st.world.replace s { fl with transferable := false } }
  | reside {st : State} {s index count id : Nat} {fl fl' : Flat} {room : Bool}
      (hs : st.world.flats[s]? = some fl) (h : fl.reside room index count = .ok (fl', id)) :
      Step st { st with world := st.world.replace s fl' }
  | releaseResidency {st : State} {s id : Nat} {fl fl' : Flat}
      (hs : st.world.flats[s]? = some fl) (h : fl.releaseResidency id = some fl') :
      Step st { st with world := st.world.replace s fl' }
  | materialize {st : State} {s index count next : Nat} {fl fl' : Flat} {room : Nat → Bool}
      {r : Except FlatError Unit} (hs : st.world.flats[s]? = some fl)
      (h : fl.materializeRange room st.world.nextFrame index count = (r, fl', next)) :
      Step st { st with
        world := { st.world.replace s fl' with nextFrame := next }
        created := st.created ++ List.range' st.world.nextFrame (next - st.world.nextFrame) }
  | claim {st : State} {source target : FlatRange} {sp tp : Nat} {room : Bool}
      {prepare r : Except TransferError Unit} {w : World}
      (h : st.world.claim source sp target tp room prepare = some (r, w)) :
      Step st { st with world := w }
  | commit {st : State} {t : Transaction} {w : World} (ht : t ∈ st.world.transactions)
      (h : st.world.commit t = some w) : Step st { st with world := w }
  | rollback {st : State} {t : Transaction} {w : World} (ht : t ∈ st.world.transactions)
      (h : st.world.rollback t = some w) : Step st { st with world := w }

/-- The frame at a seat, resident or moving. -/
def World.frameAt (w : World) (a : Seat) : Option Nat := (w.slot a).bind Slot.frame

/-- The seat holds the frame, and not as an import. -/
def Native (st : State) (a : Seat) (frame : Nat) : Prop :=
  st.world.frameAt a = some frame ∧ (a, frame) ∉ st.imports

/-- Slots, transactions and custodies agree, and a native frame has one seat. -/
structure Inv (st : State) : Prop where
  increasing : st.world.Increasing
  underway : ∀ t ∈ st.world.transactions, ∃ frame m, Underway st.world t frame m
  moving : ∀ a frame id, st.world.slot a = some (.moving frame id) →
    ∃ t ∈ st.world.transactions, t.id = id ∧ t.source = a
  reserved : ∀ b id m, st.world.slot b = some (.reserved id m) →
    ∃ t ∈ st.world.transactions, t.id = id ∧ t.target = b
  ids : (st.world.transactions.map (·.id)).Nodup
  ids_lt : ∀ t ∈ st.world.transactions, t.id < st.world.nextTransaction
  transit : ∀ frame, st.world.custody frame = .inTransit →
    ∃ a id, st.world.slot a = some (.moving frame id)
  frames_lt : ∀ a frame, st.world.frameAt a = some frame → frame < st.world.nextFrame
  fresh : ∀ frame, st.world.nextFrame ≤ frame → st.world.custody frame = .sole
  home : ∀ frame ∈ st.created, ∃ a, Native st a frame
  native_unique : ∀ a b frame, Native st a frame → Native st b frame → a = b
  imports : ∀ a frame, (a, frame) ∈ st.imports → st.world.slot a = some (.resident frame) ∧
    st.world.custody frame = .aliased ∧ ∃ rs, st.world.policy a.flat = some (rs, false)
  pinned : ∀ a s, st.world.Pinned a → st.world.slot a = some s → s.busy = false

/-! ## Steps on sources -/

section
variable {w : World} {fl : Flat}

theorem append_get (s : Nat) :
    (w.append fl).flats[s]? = if s = w.flats.length then some fl else w.flats[s]? := by
  unfold World.append
  rw [List.getElem?_append]
  split
  · next h => rw [if_neg h.ne]
  next h =>
  by_cases hs : s = w.flats.length
  · simp [hs]
  · rw [if_neg hs, getElem?_eq_none (by simp; omega), getElem?_eq_none (by omega)]

theorem append_slot (a : Seat) :
    (w.append fl).slot a = if a.flat = w.flats.length then fl.slot a.page else w.slot a := by
  unfold World.slot
  rw [append_get]
  split <;> rfl

theorem append_policy (s : Nat) :
    (w.append fl).policy s =
      if s = w.flats.length then some (fl.residencies, fl.transferable) else w.policy s := by
  unfold World.policy
  rw [append_get]
  split <;> rfl

theorem slot_of_length_le {a : Seat} (h : w.flats.length ≤ a.flat) : w.slot a = none := by
  rw [World.slot, getElem?_eq_none h, bind_none]

variable {s : Nat}

theorem append_increasing (h : w.Increasing) (hfl : fl.Increasing) : (w.append fl).Increasing := by
  intro fl0 hm
  rcases mem_append.1 hm with hm | hm
  · exact h fl0 hm
  · exact mem_singleton.1 hm ▸ hfl

variable {old : Flat}

theorem replace_get (hs : w.flats[s]? = some old) (t : Nat) :
    (w.replace s fl).flats[t]? = if t = s then some fl else w.flats[t]? := by
  obtain ⟨hlt, _⟩ := List.getElem?_eq_some_iff.1 hs
  unfold World.replace
  by_cases ht : t = s
  · rw [if_pos ht, ht, getElem?_set_self hlt]
  · rw [if_neg ht, getElem?_set_ne (Ne.symm ht)]

theorem replace_slot (hs : w.flats[s]? = some old) (a : Seat) :
    (w.replace s fl).slot a = if a.flat = s then fl.slot a.page else w.slot a := by
  unfold World.slot
  rw [replace_get hs]
  split <;> rfl

theorem replace_policy (hs : w.flats[s]? = some old) (t : Nat) :
    (w.replace s fl).policy t =
      if t = s then some (fl.residencies, fl.transferable) else w.policy t := by
  unfold World.policy
  rw [replace_get hs]
  split <;> rfl

theorem replace_increasing (h : w.Increasing) (hfl : fl.Increasing) :
    (w.replace s fl).Increasing := by
  intro fl0 hm
  rcases mem_or_eq_of_mem_set hm with hm | rfl
  · exact h fl0 hm
  · exact hfl

end

/-! ## The invariant is kept -/

section
variable {st : State}

/-- Slots stay and new ones are resident; the frames `new` are native from now on. -/
theorem Inv.extend (h : Inv st) {st' : State} (new : Seat → Nat → Prop)
    (hinc : st'.world.Increasing) (htx : st'.world.transactions = st.world.transactions)
    (hnt : st.world.nextTransaction ≤ st'.world.nextTransaction)
    (hcust : st'.world.custody = st.world.custody)
    (hle : st.world.nextFrame ≤ st'.world.nextFrame)
    (hold : ∀ a v, st.world.slot a = some v → st'.world.slot a = some v)
    (hnew : ∀ a v, st'.world.slot a = some v → st.world.slot a = some v ∨
      ∃ frame, v = .resident frame ∧ frame < st'.world.nextFrame)
    (hnat : ∀ a frame, Native st' a frame ↔ Native st a frame ∨ new a frame)
    (hone : ∀ a b frame, new a frame → st.world.nextFrame ≤ frame ∧ (new b frame → a = b))
    (hcreated : ∀ frame ∈ st'.created, frame ∈ st.created ∨ ∃ a, new a frame)
    (himp : ∀ a frame, (a, frame) ∈ st'.imports → st'.world.slot a = some (.resident frame) ∧
      st'.world.custody frame = .aliased ∧ ∃ rs, st'.world.policy a.flat = some (rs, false))
    (hpin : ∀ a v, st'.world.Pinned a → st.world.slot a = some v → v.busy = false) : Inv st' := by
  have hlt : ∀ a frame, st'.world.frameAt a = some frame → frame < st'.world.nextFrame := by
    intro a frame hf
    obtain ⟨v, hv, hf⟩ := bind_eq_some_iff.1 hf
    rcases hnew a v hv with hv | ⟨g, rfl, hg⟩
    · exact (h.frames_lt a frame (bind_eq_some_iff.2 ⟨v, hv, hf⟩)).trans_le hle
    · exact some.inj hf ▸ hg
  refine ⟨hinc, fun t ht => ?_, fun a frame id hv => ?_, fun b id m hv => ?_, htx ▸ h.ids,
    fun t ht => (h.ids_lt t (htx ▸ ht)).trans_le hnt, fun frame hf => ?_, hlt,
    fun frame hf => hcust ▸ h.fresh frame (hle.trans hf), fun frame hm => ?_,
    fun a b frame ha hb => ?_, himp, fun a v hp hv => ?_⟩
  · obtain ⟨frame, m, hu⟩ := h.underway t (htx ▸ ht)
    exact ⟨frame, m, hold _ _ hu.source, hold _ _ hu.target, hcust ▸ hu.custody⟩
  · rcases hnew _ _ hv with hv | ⟨f, he, _⟩
    · exact htx ▸ h.moving a frame id hv
    · cases he
  · rcases hnew _ _ hv with hv | ⟨f, he, _⟩
    · exact htx ▸ h.reserved b id m hv
    · cases he
  · obtain ⟨a, id, hv⟩ := h.transit frame (hcust ▸ hf)
    exact ⟨a, id, hold _ _ hv⟩
  · rcases hcreated frame hm with hm | ⟨a, ha⟩
    · obtain ⟨a, ha⟩ := h.home frame hm
      exact ⟨a, (hnat a frame).2 (.inl ha)⟩
    · exact ⟨a, (hnat a frame).2 (.inr ha)⟩
  · have hold : ∀ {c d}, Native st c frame → ¬ new d frame := fun hc hd =>
      absurd (h.frames_lt _ frame hc.1) (not_lt.2 (hone _ a frame hd).1)
    rcases (hnat a frame).1 ha with ha | ha <;> rcases (hnat b frame).1 hb with hb | hb
    · exact h.native_unique a b frame ha hb
    · exact absurd hb (hold ha)
    · exact absurd ha (hold hb)
    · exact (hone a b frame ha).2 hb
  · rcases hnew _ _ hv with hv | ⟨f, rfl, _⟩
    · exact hpin a v hp hv
    · rfl

variable {fl : Flat}

/-- A new source, empty or filled with imports. -/
theorem Inv.append (h : Inv st) (frames : List (Nat × Nat)) (hfl : fl.Increasing)
    (hslot : ∀ p, fl.slot p = (lookup frames p).map .resident) (hsort : Sorted frames)
    (hres : fl.residencies = []) (htr : frames ≠ [] → fl.transferable = false)
    (hf : ∀ x ∈ frames, x.2 < st.world.nextFrame)
    (hc : ∀ x ∈ frames, st.world.custody x.2 = .aliased) :
    Inv ⟨st.world.append fl, st.created,
      frames.map (fun x => (⟨st.world.flats.length, x.1⟩, x.2)) ++ st.imports⟩ := by
  -- no old seat lies in the new source
  have hseat : ∀ {a : Seat} {v}, st.world.slot a = some v → a.flat ≠ st.world.flats.length := by
    intro a v hv he
    rw [slot_of_length_le he.ge] at hv
    cases hv
  have hold : ∀ a v, st.world.slot a = some v → (st.world.append fl).slot a = some v := by
    intro a v hv
    rw [append_slot, if_neg (hseat hv), hv]
  have hnew : ∀ a v, (st.world.append fl).slot a = some v → st.world.slot a = some v ∨
      ∃ frame, v = .resident frame ∧ a.flat = st.world.flats.length ∧ (a.page, frame) ∈ frames := by
    intro a v hv
    rw [append_slot] at hv
    split at hv
    · next he =>
      rw [hslot, map_eq_some_iff] at hv
      obtain ⟨frame, hl, rfl⟩ := hv
      exact .inr ⟨frame, rfl, he, mem_of_lookup hl⟩
    · exact .inl hv
  refine h.extend (fun _ _ => False) (append_increasing h.increasing hfl) rfl le_rfl rfl le_rfl hold
    (fun a v hv => ?_) (fun a frame => ?_) nofun (by simp) (fun a frame hm => ?_)
    fun a v hp hv => ?_
  · exact (hnew a v hv).imp_right fun ⟨frame, he, _, hm⟩ => ⟨frame, he, hf _ hm⟩
  · unfold Native World.frameAt
    simp only [bind_eq_some_iff, mem_append, not_or, or_false]
    constructor
    · rintro ⟨⟨v, hv, hfr⟩, hni, hno⟩
      rcases hnew a v hv with hv | ⟨f, rfl, ha, hm⟩
      · exact ⟨⟨v, hv, hfr⟩, hno⟩
      · obtain rfl : f = frame := some.inj hfr
        exact absurd (List.mem_map.2 ⟨(a.page, f), hm, by rw [← ha]⟩) hni
    rintro ⟨⟨v, hv, hfr⟩, hno⟩
    refine ⟨⟨v, hold a v hv, hfr⟩, fun hm => ?_, hno⟩
    obtain ⟨x, _, he⟩ := List.mem_map.1 hm
    exact hseat hv (by rw [← (Prod.mk.inj he).1])
  · rcases mem_append.1 hm with hm | hm
    · obtain ⟨x, hx, he⟩ := List.mem_map.1 hm
      cases he
      refine ⟨?_, hc x hx, [], ?_⟩
      · rw [append_slot, if_pos rfl, hslot, lookup_of_mem hsort (v := x.2) hx]
        rfl
      · rw [append_policy, if_pos rfl, hres, htr (ne_nil_of_mem hx)]
    · obtain ⟨h1, h2, rs, h3⟩ := h.imports a frame hm
      exact ⟨hold _ _ h1, h2, rs, by rw [append_policy, if_neg (hseat h1), h3]⟩
  · obtain ⟨rs, tr, hpol, hcov⟩ := hp
    rw [append_policy, if_neg (hseat hv)] at hpol
    exact h.pinned a v ⟨rs, tr, hpol, hcov⟩ hv

theorem native_congr (st st' : State) (hf : ∀ a, st'.world.frameAt a = st.world.frameAt a)
    (hi : st'.imports = st.imports) (a : Seat) (frame : Nat) :
    Native st' a frame ↔ Native st a frame := by
  unfold Native
  rw [hf, hi]

variable {s : Nat}

/-- A source changes its residencies or its eligibility. -/
theorem Inv.replace (h : Inv st) {fl' : Flat} (hs : st.world.flats[s]? = some fl)
    (hfl : fl'.Increasing) (hslot : ∀ p, fl'.slot p = fl.slot p)
    (htr : fl'.transferable = true → fl.transferable = true)
    (hres : ∀ entry ∈ fl'.residencies, entry ∈ fl.residencies ∨ ∀ p, entry.index ≤ p →
      p < entry.index + entry.count → ∀ v, fl.slot p = some v → v.busy = false) :
    Inv { st with world := st.world.replace s fl' } := by
  have hsl : ∀ a, (st.world.replace s fl').slot a = st.world.slot a := by
    intro a
    rw [replace_slot hs]
    split
    · next he => rw [hslot, slot_of_flat (he ▸ hs)]
    · rfl
  have hnat := native_congr st { st with world := st.world.replace s fl' }
    (fun a => by rw [World.frameAt, hsl, World.frameAt]) rfl
  refine h.extend (fun _ _ => False) (replace_increasing h.increasing hfl) rfl le_rfl rfl le_rfl
    (fun a v hv => (hsl a).trans hv) (fun a v hv => .inl ((hsl a).symm.trans hv))
    (fun a frame => by rw [hnat, or_false]) nofun (by simp) (fun a frame hm => ?_)
    fun a v hp hv => ?_
  · obtain ⟨h1, h2, rs, h3⟩ := h.imports a frame hm
    refine ⟨(hsl a).trans h1, h2, ?_⟩
    rw [replace_policy hs]
    split
    · next he =>
      rw [he, World.policy, hs, map_some, some.injEq, Prod.mk.injEq] at h3
      refine ⟨fl'.residencies, ?_⟩
      cases ht : fl'.transferable with
      | false => rfl
      | true =>
        rw [htr ht] at h3
        simp at h3
    · exact ⟨rs, h3⟩
  · obtain ⟨rs, tr, hpol, entry, hm, hin⟩ := hp
    rw [replace_policy hs] at hpol
    split at hpol
    · next he =>
      rw [some.injEq, Prod.mk.injEq] at hpol
      rw [← hpol.1] at hm
      rcases hres entry hm with hold | hfree
      · refine h.pinned a v ⟨fl.residencies, fl.transferable, ?_, entry, hold, hin⟩ hv
        rw [he, World.policy, hs, map_some]
      · rw [slot_of_flat (he ▸ hs)] at hv
        exact hfree a.page hin.1 hin.2 v hv
    · exact h.pinned a v ⟨rs, tr, hpol, entry, hm, hin⟩ hv

variable {frame : Nat}

/-- Custody and counters move where no seat and no import looks at them. -/
theorem Inv.register (h : Inv st) {c : Custody} (hf : frame < st.world.nextFrame)
    (hc : (st.world.custody frame).register = .ok c) :
    Inv { st with world := { st.world with
      custody := update st.world.custody frame c } } := by
  have hcust : c = .aliased ∧ st.world.custody frame ≠ .inTransit := by
    cases hx : st.world.custody frame <;> rw [hx] at hc <;> simp [Custody.register] at hc ⊢ <;>
      exact hc.symm
  obtain ⟨rfl, hnt⟩ := hcust
  refine { h with underway := fun t ht => ?_, transit := fun g hg => ?_, fresh := fun g hg => ?_
                  imports := fun a g hm => ?_ }
  · obtain ⟨g, m, hu⟩ := h.underway t ht
    refine ⟨g, m, hu.source, hu.target, ?_⟩
    show update st.world.custody frame .aliased g = .inTransit
    rw [update_of_ne, hu.custody]
    rintro rfl
    exact hnt hu.custody
  · change update st.world.custody frame .aliased g = .inTransit at hg
    by_cases he : g = frame
    · subst he
      simp at hg
    · rw [update_of_ne he] at hg
      exact h.transit g hg
  · show update st.world.custody frame .aliased g = .sole
    rw [update_of_ne, h.fresh g hg]
    rintro rfl
    exact absurd hf (not_lt.2 hg)
  obtain ⟨h1, h2, h3⟩ := h.imports a g hm
  refine ⟨h1, ?_, h3⟩
  show update st.world.custody frame .aliased g = .aliased
  by_cases he : g = frame
  · rw [he, update_self]
  · rw [update_of_ne he, h2]

theorem Inv.counters (h : Inv st) {frames transactions : Nat} (hf : st.world.nextFrame ≤ frames)
    (ht : st.world.nextTransaction ≤ transactions) : Inv { st with world := { st.world with
      nextFrame := frames, nextTransaction := transactions } } :=
  h.extend (fun _ _ => False) h.increasing rfl ht rfl hf (fun _ _ hv => hv) (fun _ _ hv => .inl hv)
    (fun _ _ => (or_false _).symm ▸ .rfl) nofun (by simp) h.imports h.pinned

/-- One fresh page of a source gets the next frame. -/
theorem Inv.fill (h : Inv st) {fl' : Flat} {page : Nat} (hs : st.world.flats[s]? = some fl)
    (hfresh : fl.slot page = none) (hed : Edits fl fl' page (some (.resident st.world.nextFrame))) :
    Inv ⟨{ st.world.replace s fl' with nextFrame := st.world.nextFrame + 1 },
      st.created ++ [st.world.nextFrame], st.imports⟩ := by
  have hsl : ∀ a, (st.world.replace s fl').slot a =
      if a = ⟨s, page⟩ then some (.resident st.world.nextFrame) else st.world.slot a := by
    rintro ⟨af, ap⟩
    rw [replace_slot hs]
    simp only [Seat.mk.injEq]
    split
    · next he =>
      subst he
      rw [hed.slot_eq, slot_of_flat hs]
      simp
    · next he => rw [if_neg fun hc => he hc.1]
  have hold : ∀ a v, st.world.slot a = some v → (st.world.replace s fl').slot a = some v := by
    intro a v hv
    rw [hsl, if_neg, hv]
    rintro rfl
    rw [slot_of_flat hs, hfresh] at hv
    cases hv
  have hnew : ∀ a v, (st.world.replace s fl').slot a = some v → st.world.slot a = some v ∨
      a = ⟨s, page⟩ ∧ v = .resident st.world.nextFrame := by
    intro a v hv
    rw [hsl] at hv
    split at hv
    · next he => exact .inr ⟨he, (some.inj hv).symm⟩
    · exact .inl hv
  have hpol : ∀ t, (st.world.replace s fl').policy t = st.world.policy t := by
    intro t
    rw [replace_policy hs]
    split
    · next he => rw [he, World.policy, hs, hed.residencies, hed.transferable, map_some]
    · rfl
  have hnimp : ∀ a, (a, st.world.nextFrame) ∉ st.imports := by
    intro a hm
    have := (h.imports a _ hm).2.1
    rw [h.fresh _ le_rfl] at this
    cases this
  refine h.extend (fun a frame => a = ⟨s, page⟩ ∧ frame = st.world.nextFrame)
    (replace_increasing h.increasing hed.increasing) rfl le_rfl rfl (Nat.le_succ _) hold
    (fun a v hv => ?_) (fun a frame => ?_) ?_ (by simp) (fun a frame hm => ?_) fun a v hp hv => ?_
  · exact (hnew a v hv).imp_right fun hn => ⟨_, hn.2, Nat.lt_succ_self _⟩
  · constructor
    · rintro ⟨hf, hni⟩
      obtain ⟨v, hv, hf⟩ := bind_eq_some_iff.1 hf
      rcases hnew a v hv with hv | ⟨rfl, rfl⟩
      · exact .inl ⟨bind_eq_some_iff.2 ⟨v, hv, hf⟩, hni⟩
      · exact .inr ⟨rfl, (some.inj hf).symm⟩
    rintro (⟨hf, hni⟩ | ⟨rfl, rfl⟩)
    · obtain ⟨v, hv, hf⟩ := bind_eq_some_iff.1 hf
      exact ⟨bind_eq_some_iff.2 ⟨v, hold a v hv, hf⟩, hni⟩
    · exact ⟨bind_eq_some_iff.2 ⟨_, (hsl _).trans (if_pos rfl), rfl⟩, hnimp _⟩
  · rintro a b frame ⟨rfl, rfl⟩
    exact ⟨le_rfl, fun hb => hb.1.symm⟩
  · obtain ⟨h1, h2, rs, h3⟩ := h.imports a frame hm
    exact ⟨hold _ _ h1, h2, rs, (hpol _).trans h3⟩
  · obtain ⟨rs, tr, hp, hcov⟩ := hp
    exact h.pinned a v ⟨rs, tr, (hpol _).symm.trans hp, hcov⟩ hv

variable {a : Seat} {w : World}

theorem frameAt_of_slot {v : Slot} (h : w.slot a = some v) (hf : v.frame = some frame) :
    w.frameAt a = some frame := by
  rw [World.frameAt, h, bind_some, hf]

theorem Inv.transaction_eq (h : Inv st) {t t' : Transaction} (ht : t ∈ st.world.transactions)
    (ht' : t' ∈ st.world.transactions) (he : t.id = t'.id) : t = t' :=
  inj_on_of_nodup_map h.ids ht ht' he

theorem Inv.claimed (h : Inv st) {b : Seat} (hc : Claimed st.world w a b st.world.nextTransaction)
    (hn : w.nextTransaction = st.world.nextTransaction + 1) : Inv { st with world := w } := by
  obtain ⟨frame, m, ha, hsole, hb, hcust, hrw⟩ := hc.rewrites
  have hbnone : ∀ v, st.world.slot b = some v → v = .missing := by
    intro v hv
    cases m <;> simp_all
  have hsa := hrw.at_left hc.ne
  have hsb := hrw.at_right
  -- a busy seat was neither end, and an end is not busy
  have hbusy : ∀ c v, st.world.slot c = some v → v.busy = true → w.slot c = some v := by
    intro c v hv hvb
    rw [hrw.other, hv]
    · rintro rfl
      cases ha.symm.trans hv
      cases hvb
    · rintro rfl
      rw [hbnone v hv] at hvb
      cases hvb
  have hcustody : ∀ g, w.custody g = if g = frame then .inTransit else st.world.custody g :=
    fun g => by rw [hcust, update_apply]
  have hfr : w.frameAt = st.world.frameAt := by
    funext c
    by_cases hcb : c = b
    · subst hcb
      rw [World.frameAt, hsb, World.frameAt, hb]
      cases m <;> rfl
    by_cases hca : c = a
    · subst hca
      rw [World.frameAt, hsa, World.frameAt, ha]
      rfl
    · rw [World.frameAt, hrw.other hca hcb, World.frameAt]
  have hnative : Native { st with world := w } = Native st := by
    funext c g
    rw [Native, Native, hfr]
  constructor
  case increasing => exact hrw.increasing
  case underway =>
    rw [hc.transactions]
    refine forall_mem_cons.2 ⟨⟨frame, m, hsa, hsb, by rw [hcustody, if_pos rfl]⟩, fun t ht => ?_⟩
    obtain ⟨g, m', hu⟩ := h.underway t ht
    refine ⟨g, m', hbusy _ _ hu.source rfl, hbusy _ _ hu.target rfl, ?_⟩
    rw [hcustody]
    split
    · rfl
    · exact hu.custody
  case moving =>
    intro c g id hv
    rw [hc.transactions, exists_mem_cons_iff]
    by_cases hca : c = a
    · subst hca
      cases hsa.symm.trans hv
      exact .inl ⟨rfl, rfl⟩
    by_cases hcb : c = b
    · cases (hcb ▸ hsb).symm.trans hv
    · exact .inr (h.moving c g id (hrw.other hca hcb ▸ hv))
  case reserved =>
    intro c id m' hv
    rw [hc.transactions, exists_mem_cons_iff]
    by_cases hcb : c = b
    · subst hcb
      cases hsb.symm.trans hv
      exact .inl ⟨rfl, rfl⟩
    by_cases hca : c = a
    · cases (hca ▸ hsa).symm.trans hv
    · exact .inr (h.reserved c id m' (hrw.other hca hcb ▸ hv))
  case ids =>
    rw [hc.transactions, map_cons]
    refine nodup_cons.2 ⟨fun hm => ?_, h.ids⟩
    obtain ⟨t, ht, he⟩ := List.mem_map.1 hm
    exact (h.ids_lt t ht).ne he
  case ids_lt =>
    rw [hc.transactions, hn]
    exact forall_mem_cons.2 ⟨Nat.lt_succ_self _, fun t ht => Nat.lt_succ_of_lt (h.ids_lt t ht)⟩
  case transit =>
    intro g hg
    rw [hcustody] at hg
    split at hg
    · next he => exact ⟨a, _, he ▸ hsa⟩
    · obtain ⟨c, id, hv⟩ := h.transit g hg
      exact ⟨c, id, hbusy _ _ hv rfl⟩
  case frames_lt =>
    rw [hfr, hc.nextFrame]
    exact h.frames_lt
  case fresh =>
    intro g hg
    rw [hc.nextFrame] at hg
    rw [hcustody, if_neg, h.fresh g hg]
    rintro rfl
    exact absurd (h.frames_lt a g (frameAt_of_slot ha rfl)) (not_lt.2 hg)
  case home => exact hnative ▸ h.home
  case native_unique => exact hnative ▸ h.native_unique
  case imports =>
    intro c g hm
    obtain ⟨h1, h2, rs, h3⟩ := h.imports c g hm
    refine ⟨?_, ?_, rs, (hrw.policy_eq _).trans h3⟩
    · rw [hrw.other, h1]
      · rintro rfl
        obtain ⟨_, rs', h4⟩ := hc.eligible c (.inl rfl)
        cases h3.symm.trans h4
      · rintro rfl
        cases hbnone _ h1
    rw [hcustody, if_neg, h2]
    rintro rfl
    cases hsole.symm.trans h2
  case pinned =>
    intro c v hp hv
    rw [hrw.pinned] at hp
    rw [hrw.other] at hv
    · exact h.pinned c v hp hv
    · rintro rfl
      exact (hc.eligible c (.inl rfl)).1 hp
    · rintro rfl
      exact (hc.eligible c (.inr rfl)).1 hp

/-- A slot, or a fresh page, that no transfer holds. -/
def Idle (v : Option Slot) : Prop := ∀ s, v = some s → s.busy = false

/-- The end of a transaction: neither seat stays busy, and the frame lies at exactly one, its
home. -/
structure Settles (st : State) (t : Transaction) (frame : Nat) (m : Bool) (v u : Option Slot)
    (home : Seat) (w : World) : Prop where
  mem : t ∈ st.world.transactions
  underway : Underway st.world t frame m
  rewrites : Rewrites st.world w t.source v t.target u
  custody : w.custody = update st.world.custody frame .sole
  transactions : w.transactions = st.world.transactions.erase t
  nextFrame : w.nextFrame = st.world.nextFrame
  nextTransaction : w.nextTransaction = st.world.nextTransaction
  source : Idle v
  target : Idle u
  home : home = t.source ∧ v.bind Slot.frame = some frame ∧ u.bind Slot.frame = none ∨
    home = t.target ∧ v.bind Slot.frame = none ∧ u.bind Slot.frame = some frame

section

variable {t : Transaction} {m : Bool} {v u : Option Slot} {home : Seat}
  (h : Inv st) (he : Settles st t frame m v u home w)
include he

/-- A busy seat of the new world is an old one, and away from both ends. -/
theorem Settles.busy {c : Seat} {s : Slot} (hs : w.slot c = some s) (hb : s.busy = true) :
    st.world.slot c = some s ∧ c ≠ t.source ∧ c ≠ t.target := by
  have h1 : c ≠ t.source := by
    rintro rfl
    rw [he.rewrites.at_left he.underway.ne] at hs
    cases (he.source s hs).symm.trans hb
  have h2 : c ≠ t.target := by
    rintro rfl
    rw [he.rewrites.at_right] at hs
    cases (he.target s hs).symm.trans hb
  exact ⟨by rwa [he.rewrites.other h1 h2] at hs, h1, h2⟩

/-- The slots of other transactions stay. -/
theorem Settles.keeps {c : Seat} {s : Slot} (hs : st.world.slot c = some s)
    (h1 : s ≠ .moving frame t.id) (h2 : s ≠ .reserved t.id m) : w.slot c = some s := by
  rw [he.rewrites.other, hs]
  · rintro rfl
    exact h1 (some.inj (hs.symm.trans he.underway.source))
  · rintro rfl
    exact h2 (some.inj (hs.symm.trans he.underway.target))

theorem Settles.custody_eq (g : Nat) :
    w.custody g = if g = frame then .sole else st.world.custody g := by
  rw [he.custody, update_apply]

theorem Settles.frameAt_eq (c : Seat) : w.frameAt c = if c = home then some frame else
    if c = t.source ∨ c = t.target then none else st.world.frameAt c := by
  have hne := he.underway.ne
  by_cases h2 : c = t.target
  · subst h2
    rw [World.frameAt, he.rewrites.at_right]
    rcases he.home with ⟨rfl, _, h3⟩ | ⟨rfl, _, h3⟩
    · rw [h3, if_neg hne.symm, if_pos (.inr rfl)]
    · rw [h3, if_pos rfl]
  by_cases h1 : c = t.source
  · subst h1
    rw [World.frameAt, he.rewrites.at_left hne]
    rcases he.home with ⟨rfl, h3, _⟩ | ⟨rfl, h3, _⟩
    · rw [h3, if_pos rfl]
    · rw [h3, if_neg h2, if_pos (.inl rfl)]
  rw [World.frameAt, he.rewrites.other h1 h2, if_neg, if_neg (not_or.2 ⟨h1, h2⟩), World.frameAt]
  rcases he.home with ⟨rfl, _⟩ | ⟨rfl, _⟩
  · exact h1
  · exact h2

include h

theorem Settles.not_import (c : Seat) : (c, frame) ∉ st.imports := fun hm =>
  nomatch he.underway.custody.symm.trans (h.imports c frame hm).2.1

/-- While it moves, the frame is native where it comes from. -/
theorem Settles.native_source : Native st t.source frame :=
  ⟨frameAt_of_slot he.underway.source rfl, he.not_import h _⟩

/-- The frame is native at its home, and all others are where they were. -/
theorem Settles.native (c : Seat) (g : Nat) : Native { st with world := w } c g ↔
    c = home ∧ g = frame ∨ g ≠ frame ∧ Native st c g := by
  have hsource := he.native_source h
  unfold Native
  simp only [he.frameAt_eq]
  constructor
  · rintro ⟨hf, hni⟩
    split at hf
    · next hc => exact .inl ⟨hc, (some.inj hf).symm⟩
    split at hf
    · cases hf
    next hne =>
    refine .inr ⟨?_, hf, hni⟩
    rintro rfl
    exact hne (.inl (h.native_unique c t.source g ⟨hf, hni⟩ hsource))
  rintro (⟨rfl, rfl⟩ | ⟨hne, hf, hni⟩)
  · exact ⟨if_pos rfl, he.not_import h _⟩
  have h1 : c ≠ t.source := by
    rintro rfl
    exact hne (some.inj (hf.symm.trans hsource.1))
  have h2 : c ≠ t.target := by
    rintro rfl
    rw [World.frameAt, he.underway.target] at hf
    cases hf
  have h3 : c ≠ home := by
    rcases he.home with ⟨rfl, _⟩ | ⟨rfl, _⟩
    · exact h1
    · exact h2
  rw [if_neg h3, if_neg (not_or.2 ⟨h1, h2⟩)]
  exact ⟨hf, hni⟩

theorem Settles.mem_transactions (t' : Transaction) :
    t' ∈ w.transactions ↔ t' ≠ t ∧ t' ∈ st.world.transactions := by
  rw [he.transactions, (List.Nodup.of_map _ h.ids).mem_erase_iff]

theorem Inv.ended : Inv { st with world := w } := by
  have hnative := he.native h
  have hsource := he.native_source h
  constructor
  case increasing => exact he.rewrites.increasing
  case underway =>
    intro t' ht'
    obtain ⟨hne, ht'⟩ := (he.mem_transactions h t').1 ht'
    obtain ⟨g, m', hu⟩ := h.underway t' ht'
    have hne : t'.id ≠ t.id := fun hid => hne (h.transaction_eq ht' he.mem hid)
    refine ⟨g, m', he.keeps hu.source (by simp [hne]) nofun,
      he.keeps hu.target nofun (by simp [hne]), ?_⟩
    rw [he.custody_eq, if_neg, hu.custody]
    rintro rfl
    have hs := hu.source
    rw [h.native_unique _ _ g ⟨frameAt_of_slot hs rfl, he.not_import h _⟩ hsource,
      he.underway.source] at hs
    exact hne (by simpa using hs.symm)
  case moving =>
    intro c g id hs
    obtain ⟨hs, hcs, _⟩ := he.busy hs rfl
    obtain ⟨t', ht', h1, h2⟩ := h.moving c g id hs
    exact ⟨t', (he.mem_transactions h t').2 ⟨fun he => hcs (by rw [← h2, he]), ht'⟩, h1, h2⟩
  case reserved =>
    intro c id m' hs
    obtain ⟨hs, _, hct⟩ := he.busy hs rfl
    obtain ⟨t', ht', h1, h2⟩ := h.reserved c id m' hs
    exact ⟨t', (he.mem_transactions h t').2 ⟨fun he => hct (by rw [← h2, he]), ht'⟩, h1, h2⟩
  case ids =>
    rw [he.transactions]
    exact h.ids.sublist (erase_sublist.map _)
  case ids_lt =>
    intro t' ht'
    rw [he.nextTransaction]
    exact h.ids_lt t' ((he.mem_transactions h t').1 ht').2
  case transit =>
    intro g hg
    rw [he.custody_eq] at hg
    split at hg
    · cases hg
    next hne =>
    obtain ⟨c, id, hs⟩ := h.transit g hg
    exact ⟨c, id, he.keeps hs (by simp [hne]) nofun⟩
  case frames_lt =>
    intro c g hg
    rw [he.nextFrame]
    by_cases hm : (c, g) ∈ st.imports
    · exact h.frames_lt c g (frameAt_of_slot (h.imports c g hm).1 rfl)
    · rcases (hnative c g).1 ⟨hg, hm⟩ with ⟨_, rfl⟩ | ⟨_, hn⟩
      · exact h.frames_lt _ _ hsource.1
      · exact h.frames_lt c g hn.1
  case fresh =>
    intro g hg
    rw [he.custody_eq]
    split
    · rfl
    · exact h.fresh g (he.nextFrame ▸ hg)
  case home =>
    intro g hg
    by_cases hgf : g = frame
    · exact ⟨home, (hnative _ _).2 (.inl ⟨rfl, hgf⟩)⟩
    · obtain ⟨c, hc⟩ := h.home g hg
      exact ⟨c, (hnative c g).2 (.inr ⟨hgf, hc⟩)⟩
  case native_unique =>
    intro c d g hg hg'
    rcases (hnative c g).1 hg with ⟨hc, he⟩ | ⟨hne, hn⟩ <;>
      rcases (hnative d g).1 hg' with ⟨hd, he'⟩ | ⟨hne', hn'⟩
    · rw [hc, hd]
    · exact absurd he hne'
    · exact absurd he' hne
    · exact h.native_unique c d g hn hn'
  case imports =>
    intro c g hm
    obtain ⟨h1, h2, rs, h3⟩ := h.imports c g hm
    refine ⟨he.keeps h1 nofun nofun, ?_, rs, (he.rewrites.policy_eq _).trans h3⟩
    rw [he.custody_eq, if_neg, h2]
    rintro rfl
    exact he.not_import h c hm
  case pinned =>
    intro c s hp hs
    by_contra hb
    exact hb (h.pinned c s (he.rewrites.pinned.1 hp) (he.busy hs (by simpa using hb)).1)

end

theorem replace_self (hs : w.flats[s]? = some fl) : w.replace s fl = w := by
  obtain ⟨_, rfl⟩ := List.getElem?_eq_some_iff.1 hs
  rw [World.replace, set_getElem_self]

theorem Fills.le {slots slots' : List (Nat × Slot)} {next next' : Nat}
    (h : Fills slots next slots' next') : next ≤ next' := by
  induction h with
  | refl => exact le_rfl
  | fill _ _ _ _ _ ih => exact (Nat.le_succ _).trans ih

/-- Any number of fills, by induction on them. -/
theorem Inv.fills {slots slots' : List (Nat × Slot)} {next next' : Nat}
    (hfill : Fills slots next slots' next') (h : Inv st)
    (hs : st.world.flats[s]? = some fl) (hm : fl.source = .managed slots)
    (hn : st.world.nextFrame = next) :
    Inv ⟨{ st.world.replace s { fl with source := .managed slots' } with nextFrame := next' },
      st.created ++ List.range' next (next' - next), st.imports⟩ := by
  induction hfill generalizing st fl with
  | refl slots next =>
    have hfl : { fl with source := .managed slots } = fl := by rw [← hm]
    rw [hfl, replace_self hs, Nat.sub_self, List.range'_zero, append_nil, ← hn]
    exact h
  | @fill slots slots1 slots2 next next2 page hfresh hsort heq rest ih =>
    subst hn
    have hed := edits_of_lookup hm hsort heq
    have h1 := h.fill hs (by rw [slot_of_managed hm, hfresh]) hed
    have h2 := ih h1 ((replace_get hs s).trans (if_pos rfl)) rfl rfl
    have hle := rest.le
    have hrange : st.created ++ [st.world.nextFrame] ++
        List.range' (st.world.nextFrame + 1) (next2 - (st.world.nextFrame + 1)) =
        st.created ++ List.range' st.world.nextFrame (next2 - st.world.nextFrame) := by
      rw [show next2 - st.world.nextFrame = next2 - (st.world.nextFrame + 1) + 1 by omega,
        List.range'_succ, append_assoc, singleton_append]
    simp only [World.replace, set_set, hrange] at h2
    exact h2

/-- Every step keeps the invariant. -/
theorem inv_step {st st' : State} (h : Inv st) (hstep : Step st st') : Inv st' := by
  cases hstep with
  | acquire pageCount =>
    exact h.append [] List.Pairwise.nil (fun p => rfl) List.Pairwise.nil rfl (by simp)
      (by simp) (by simp)
  | @fromRegion start size fl hfl =>
    unfold Flat.fromRegion at hfl
    split at hfl
    · simp at hfl
    · cases hfl
      exact h.append [] trivial (fun p => rfl) List.Pairwise.nil rfl (by simp)
        (by simp) (by simp)
  | allocate => exact h.counters (Nat.le_succ _) le_rfl
  | register hf hc => exact h.register hf hc
  | @fromFrames pageCount frames fl hfl hf hc =>
    unfold Flat.fromFrames at hfl
    split at hfl
    on_goal 2 => simp at hfl
    next hok =>
    cases hfl
    have hsort := (framesOk_sorted hok).2
    exact h.append frames (pairwise_map.2 hsort) (fun p => lookup_map frames Slot.resident p) hsort
      rfl (fun _ => rfl) hf hc
  | @markUntransferable s fl hs =>
    exact h.replace hs (h.increasing fl (mem_of_getElem? hs)) (fun p => rfl) (by simp)
      fun entry hm => .inl hm
  | @reside s index count id fl fl' room hs hr =>
    have hinc := h.increasing fl (mem_of_getElem? hs)
    unfold Flat.reside at hr
    split at hr
    · simp at hr
    next hb =>
    split at hr
    · simp at hr
    split at hr
    on_goal 2 => simp at hr
    cases hr
    refine h.replace hs hinc (fun p => rfl) (fun hb => hb) fun entry hm => ?_
    rcases mem_append.1 hm with hm | hm
    · exact .inl hm
    · obtain rfl := mem_singleton.1 hm
      exact .inr fun p h1 h2 v hv => not_busy_spec hinc (by simpa using hb) h1 h2 hv
  | @releaseResidency s id fl fl' hs hr =>
    unfold Flat.releaseResidency at hr
    split at hr
    · simp at hr
    · cases hr
      exact h.replace hs (h.increasing fl (mem_of_getElem? hs)) (fun p => rfl) (fun hb => hb)
        fun entry hm => .inl (mem_of_mem_eraseIdx hm)
  | @materialize s index count next fl fl' room r hs hm =>
    have same : ∀ {r' : Except FlatError Unit}, (r', fl, st.world.nextFrame) = (r, fl', next) →
        Inv ⟨{ st.world.replace s fl' with nextFrame := next },
          st.created ++ List.range' st.world.nextFrame (next - st.world.nextFrame),
          st.imports⟩ := by
      intro r' he
      cases he
      rw [replace_self hs, Nat.sub_self, List.range'_zero, append_nil]
      exact h
    unfold Flat.materializeRange at hm
    split at hm
    · exact same hm
    split at hm
    · exact same hm
    split at hm
    · exact same hm
    next slots hsrc =>
    have hsort := (increasing_of_managed hsrc).1 (h.increasing fl (mem_of_getElem? hs))
    have hfill := materializeFrom_fills hsort rfl
      (rfl : Flat.materializeFrom room count index _ slots st.world.nextFrame = _)
    cases hm
    exact h.fills hfill hs hsrc rfl
  | @claim source target sp tp room prepare r w hc =>
    rcases claim_cases h.increasing hc with ⟨_, n, _, hn, rfl⟩ | ⟨_, hn, hcl⟩
    · exact h.counters le_rfl hn
    · exact h.claimed hcl hn
  | @commit t w ht hc =>
    obtain ⟨frame, m, hu⟩ := h.underway t ht
    obtain ⟨w', hw, h1, h2, h3, h4, h5⟩ := commit_spec h.increasing hu
    cases hw.symm.trans hc
    refine h.ended ⟨ht, hu, h5, h1, h2, h3, h4, ?_, ?_, .inr ⟨rfl, rfl, rfl⟩⟩
    · rintro s ⟨⟩
      rfl
    · rintro s ⟨⟩
      rfl
  | @rollback t w ht hc =>
    obtain ⟨frame, m, hu⟩ := h.underway t ht
    obtain ⟨w', hw, h1, h2, h3, h4, h5⟩ := rollback_spec h.increasing hu
    cases hw.symm.trans hc
    refine h.ended ⟨ht, hu, h5, h1, h2, h3, h4, ?_, ?_, .inl ⟨rfl, rfl, by cases m <;> rfl⟩⟩
    · rintro s ⟨⟩
      rfl
    · intro s hs
      cases m
      · simp at hs
      · simp only [if_true, some.injEq] at hs
        exact hs ▸ rfl

theorem inv_init : Inv {} := by
  have hslot : ∀ a, ({} : World).slot a = none := fun a => rfl
  refine ⟨by simp [World.Increasing], by simp, fun a f id hs => ?_, fun b id m hs => ?_, by simp,
    by simp, by simp, fun a f hf => ?_, by simp, by simp, fun a b f hn => ?_, by simp,
    fun a s _ hs => ?_⟩
  · simp [hslot] at hs
  · simp [hslot] at hs
  · simp [World.frameAt, hslot] at hf
  · simp [Native, World.frameAt, hslot] at hn
  · simp [hslot] at hs

theorem inv_run (hrun : Relation.ReflTransGen Step {} st) : Inv st := by
  induction hrun with
  | refl => exact inv_init
  | tail _ hstep ih => exact inv_step ih hstep

end

/-! ## Top theorems -/

/-- Every frame that materialization created lies at exactly one seat, imports aside, and a frame
that lies at a seat as an import is aliased for good; the ends of every transfer match; custody
says exactly which frames move; no residency covers a page a transfer holds; and the assertions
of `carrier`, `commit` and the drop of a guard hold. -/
structure Conserved (st : State) : Prop where
  home : ∀ frame ∈ st.created, ∃! a, Native st a frame
  imported : ∀ a frame, st.world.frameAt a = some frame → ¬ Native st a frame →
    st.world.slot a = some (.resident frame) ∧ st.world.custody frame = .aliased
  sole : ∀ frame ∈ st.created, st.world.custody frame ≠ .aliased →
    ∃! a, st.world.frameAt a = some frame
  moving_matched : ∀ a frame id, st.world.slot a = some (.moving frame id) →
    ∃! b, ∃ m, st.world.slot b = some (.reserved id m)
  reserved_matched : ∀ b id m, st.world.slot b = some (.reserved id m) →
    ∃! a, ∃ frame, st.world.slot a = some (.moving frame id)
  custody : ∀ frame, st.world.custody frame = .inTransit ↔
    ∃ a id, st.world.slot a = some (.moving frame id)
  pinned : ∀ a s, st.world.Pinned a → st.world.slot a = some s → s.busy = false
  increasing : ∀ fl ∈ st.world.flats, fl.Increasing
  carrier_ok : ∀ t ∈ st.world.transactions, (st.world.carrier t).isSome
  commit_ok : ∀ t ∈ st.world.transactions, (st.world.commit t).isSome
  rollback_ok : ∀ t ∈ st.world.transactions, (st.world.rollback t).isSome

theorem Inv.conserved {st : State} (h : Inv st) : Conserved st where
  home := fun frame hm => by
    obtain ⟨a, ha⟩ := h.home frame hm
    exact ⟨a, ha, fun b hb => h.native_unique b a frame hb ha⟩
  imported := fun a frame hf hn => by
    have hm : (a, frame) ∈ st.imports := by
      by_contra hni
      exact hn ⟨hf, hni⟩
    exact ⟨(h.imports a frame hm).1, (h.imports a frame hm).2.1⟩
  sole := fun frame hm hc => by
    obtain ⟨a, ha⟩ := h.home frame hm
    exact ⟨a, ha.1, fun b hb =>
      h.native_unique b a frame ⟨hb, fun hm => hc (h.imports b frame hm).2.1⟩ ha⟩
  moving_matched := fun a frame id hs => by
    obtain ⟨t, ht, rfl, _⟩ := h.moving a frame id hs
    obtain ⟨_, m, hu⟩ := h.underway t ht
    refine ⟨t.target, ⟨m, hu.target⟩, fun b ⟨m', hb⟩ => ?_⟩
    obtain ⟨t', ht', he, rfl⟩ := h.reserved b _ m' hb
    rw [h.transaction_eq ht' ht he]
  reserved_matched := fun b id m hs => by
    obtain ⟨t, ht, rfl, _⟩ := h.reserved b id m hs
    obtain ⟨frame, _, hu⟩ := h.underway t ht
    refine ⟨t.source, ⟨frame, hu.source⟩, fun a ⟨frame', ha⟩ => ?_⟩
    obtain ⟨t', ht', he, rfl⟩ := h.moving a frame' _ ha
    rw [h.transaction_eq ht' ht he]
  custody := fun frame => by
    refine ⟨h.transit frame, fun ⟨a, id, hs⟩ => ?_⟩
    obtain ⟨t, ht, _, rfl⟩ := h.moving a frame id hs
    obtain ⟨frame', _, hu⟩ := h.underway t ht
    rw [hu.source, some.injEq, Slot.moving.injEq] at hs
    rw [← hs.1]
    exact hu.custody
  pinned := h.pinned
  increasing := h.increasing
  carrier_ok := fun t ht => by
    obtain ⟨_, _, hu⟩ := h.underway t ht
    rw [carrier_spec h.increasing hu]
    rfl
  commit_ok := fun t ht => by
    obtain ⟨_, _, hu⟩ := h.underway t ht
    obtain ⟨w, hw, _⟩ := commit_spec h.increasing hu
    rw [hw]
    rfl
  rollback_ok := fun t ht => by
    obtain ⟨_, _, hu⟩ := h.underway t ht
    obtain ⟨w, hw, _⟩ := rollback_spec h.increasing hu
    rw [hw]
    rfl

/-- In every interleaving of the sections of any number of callers, frames are conserved: see
`Conserved`. -/
theorem transfer_conserves (st : State) (hrun : Relation.ReflTransGen Step {} st) :
    Conserved st :=
  (inv_run hrun).conserved

/-- `from_frames` may be given a frame that another source holds: then two sources hold it. -/
theorem import_shares_a_frame :
    ∃ st, Relation.ReflTransGen Step {} st ∧ 0 ∈ st.created ∧
      st.world.frameAt ⟨0, 0⟩ = some 0 ∧ st.world.frameAt ⟨1, 0⟩ = some 0 := by
  have h1 : Relation.ReflTransGen Step {} ⟨⟨[Flat.acquire 1], fun _ => .sole, 0, 1, []⟩, [], []⟩ :=
    .tail .refl (Step.acquire 1)
  have h2 := h1.tail (Step.materialize (s := 0) rfl
    (rfl : (Flat.acquire 1).materializeRange (fun _ => true) 0 0 1 = _))
  have h3 := h2.tail (Step.register (show 0 < 1 by decide) rfl)
  have h4 := h3.tail
    (Step.fromFrames (rfl : Flat.fromFrames 1 [(0, 0)] = _) (by decide) (by decide))
  exact ⟨_, h4, by decide, rfl, rfl⟩

/-- A state that is reached with a transfer underway. -/
theorem transfer_conserves_claimed :
    ∃ st, Relation.ReflTransGen Step {} st ∧ st.world.transactions ≠ [] ∧ Conserved st := by
  have h1 : Relation.ReflTransGen Step {} ⟨⟨[Flat.acquire 2], fun _ => .sole, 0, 1, []⟩, [], []⟩ :=
    .tail .refl (Step.acquire 2)
  have h2 := h1.tail (Step.materialize (s := 0) rfl
    (rfl : (Flat.acquire 2).materializeRange (fun _ => true) 0 0 1 = _))
  have h3 := h2.tail (Step.claim
    (rfl : World.claim _ ⟨0, 0, 2⟩ 0 ⟨0, 0, 2⟩ 1 true (.ok ()) = _))
  exact ⟨_, h3, by decide, transfer_conserves _ h3⟩

end Sqware.Flats
