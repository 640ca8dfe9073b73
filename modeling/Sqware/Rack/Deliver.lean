import Sqware.Lib.Lists
import Sqware.Rack.Ring

/-!
# What the rack delivers

Whole calls of one writer and one reader.  Message `m` is the `m`-th that was accepted; it lies in
the ring until message `m + CAP` is written over it.  When the reader wants a message that is gone
it goes on with the last message in that slot, and so passes over messages that are still there,
unless that last message is the oldest one in the ring.
-/

namespace Sqware.Rack

open List Lists Sqware.Rack.Ring

/-- The two ends and, beside them, what was sent, what was got with which number, and which messages
were written over before they were read. -/
structure World where
  ring : Ring := {}
  reader : Reader := {}
  sent : List Bytes := []
  got : List (Nat × Bytes) := []
  overwritten : List Nat := []

/-- `Writer::send` and `Reader::try_recv`. -/
inductive Call
  | send (bytes : Bytes)
  | recv

/-- Is there a message in the slot that was not read? -/
def World.unread (w : World) (i : Nat) : Bool :=
  (w.ring.slot i).seq ≠ 0 ∧ (w.ring.slot i).seq ∉ w.got.map Prod.fst

/-- `send` refuses what does not fit a slot; `try_recv` has room for a whole slot. -/
def step (mode : Mode) (w : World) : Call → World
  | .send bytes =>
    if bytes.length = 0 ∨ SLOT < bytes.length then w
    else
      match w.ring.push mode bytes with
      | (false, ring) => { w with ring }
      | (true, ring) =>
        { w with
          ring
          sent := w.sent ++ [bytes]
          overwritten :=
            if w.unread w.ring.write then w.overwritten ++ [(w.ring.slot w.ring.write).seq]
            else w.overwritten }
  | .recv =>
    match pop w.ring w.reader SLOT with
    | (.ok (some payload), ring, reader) =>
      { w with ring, reader, got := w.got ++ [(ring.read, payload)] }
    | (_, ring, reader) => { w with ring, reader }

/-- Runs from an empty ring, each call under a condition. -/
inductive Runs (mode : Mode) (cond : World → Call → Prop) : World → Prop
  | start : Runs mode cond {}
  | step {w : World} {call : Call} :
      Runs mode cond w → cond w call → Runs mode cond (step mode w call)

/-- The numbers do not wrap; and a reader that was overrun was so by a whole number of rounds. -/
def Even (mode : Mode) (w : World) : Call → Prop
  | .send _ => w.ring.write + 2 < usizeSize
  | .recv => mode = .newest ∨ w.ring.write - w.ring.read ≤ CAP ∨ CAP ∣ w.ring.write - w.ring.read

/-- The reader finds nothing more. -/
def World.Drained (w : World) : Prop := (pop w.ring w.reader SLOT).1 = .ok none

instance (w : World) : Decidable w.Drained := inferInstanceAs (Decidable (_ = _))

/-- Ring, reader and counters against the messages sent, got and written over. -/
structure Inv (mode : Mode) (w : World) : Prop where
  write : w.ring.write = w.sent.length
  lt : w.sent.length + 1 < usizeSize
  next : w.reader.next = w.ring.read + 1
  le : w.ring.read ≤ w.sent.length
  live : ∀ m, 1 ≤ m → m ≤ w.sent.length → w.sent.length < m + CAP →
    (w.ring.slot (m - 1)).seq = m ∧ w.sent[m - 1]? = some (w.ring.slot (m - 1)).payload
  fresh : ∀ i, w.sent.length ≤ i → i < CAP → (w.ring.slot i).seq = 0
  got : ∀ x ∈ w.got, 1 ≤ x.1 ∧ x.1 ≤ w.ring.read ∧ w.sent[x.1 - 1]? = some x.2
  sorted : (w.got.map Prod.fst).Pairwise (· < ·)
  over_sorted : w.overwritten.Pairwise (· < ·)
  over_iff : ∀ m, m ∈ w.overwritten ↔ 1 ≤ m ∧ m + CAP ≤ w.sent.length ∧ m ∉ w.got.map Prod.fst
  passed : ∀ m, 1 ≤ m → m ≤ w.ring.read → m ∈ w.got.map Prod.fst ∨ m + CAP ≤ w.sent.length
  lost : w.ring.lost = w.overwritten.length
  skipped : w.reader.skipped = w.overwritten.countP (· ≤ w.ring.read)
  newest : mode = .newest → w.sent.length ≤ w.ring.read + CAP ∧
    w.got.map Prod.snd = w.sent.take w.ring.read

section

variable {mode : Mode} {w : World}

theorem inv_start (mode : Mode) : Inv mode {} := by
  refine ⟨rfl, by decide, rfl, Nat.le_refl _, ?_, fun i _ _ => rfl, by simp, .nil, .nil,
    ?_, ?_, rfl, rfl, fun _ => ⟨Nat.zero_le _, rfl⟩⟩
  · intro m h1 h2
    simp at h2
    omega
  · intro m
    simp [CAP]
  · intro m h1 h2
    simp at h2
    omega

namespace Inv

theorem got_le (h : Inv mode w) {m : Nat} (hm : m ∈ w.got.map Prod.fst) : m ≤ w.ring.read := by
  obtain ⟨x, hx, rfl⟩ := mem_map.1 hm
  exact (h.got x hx).2.1

theorem over_nodup (h : Inv mode w) : w.overwritten.Nodup := h.over_sorted.imp Nat.ne_of_lt

theorem over_pos (h : Inv mode w) (m : Nat) (hm : m ∈ w.overwritten) : 0 < m :=
  ((h.over_iff m).1 hm).1

theorem over_length_le (h : Inv mode w) : w.overwritten.length ≤ w.sent.length := by
  have hall : w.overwritten.countP (· ≤ w.sent.length) = w.overwritten.length := by
    rw [countP_eq_length]
    intro m hm
    have := (h.over_iff m).1 hm
    simp
    omega
  have := countP_le_of_pos h.over_nodup h.over_pos w.sent.length
  omega

end Inv

/-! ## What a pop takes -/

/-- The last message in the slot the reader looks at. -/
def World.target (w : World) : Nat :=
  w.sent.length - (w.sent.length - (w.ring.read + 1)) % CAP

theorem target_spec (h : w.ring.read < w.sent.length) :
    w.ring.read < w.target ∧ w.target ≤ w.sent.length ∧ w.sent.length < w.target + CAP ∧
      (w.target - 1) % CAP = w.ring.read % CAP := by
  unfold World.target CAP
  omega

/-- What a pop takes, in every state. -/
theorem pop_live (h : Inv mode w) (hlt : w.ring.read < w.sent.length) :
    ∃ payload, w.sent[w.target - 1]? = some payload ∧
      pop w.ring w.reader SLOT = (.ok (some payload), { w.ring with read := w.target },
        { next := w.target + 1,
          skipped := w.reader.skipped + (w.target - (w.ring.read + 1)) }) := by
  obtain ⟨hr, hle, hw, hmod⟩ := target_spec hlt
  obtain ⟨hseq, hpay⟩ := h.live w.target (by omega) hle hw
  have hs : w.ring.slot w.ring.read = w.ring.slot (w.target - 1) := by
    unfold slot
    rw [hmod]
  have hroom : ¬SLOT < (w.ring.slot (w.target - 1)).payload.length := by
    unfold Slot.payload
    rw [length_take]
    omega
  have hadd : wrappingAdd w.target 1 = w.target + 1 := by
    have := h.lt
    exact wrappingAdd_eq (by omega)
  -- at the message itself the loop ends, whatever was skipped before
  have htake : ∀ k s, popLoop w.ring SLOT (k + 1) { next := w.target, skipped := s } =
      (.ok (some (w.ring.slot (w.target - 1)).payload), { w.ring with read := w.target },
        { next := w.target + 1, skipped := s }) := by
    intro k s
    have hl : look w.ring { next := w.target, skipped := s } = .found := if_pos hseq
    simp only [popLoop, hl, if_neg hroom, advance, hadd]
  refine ⟨_, hpay, ?_⟩
  have hpop : pop w.ring w.reader SLOT = popLoop w.ring SLOT CAP w.reader := by
    refine if_neg ?_
    have := h.write
    have := h.next
    omega
  have hreader : w.reader = { next := w.ring.read + 1, skipped := w.reader.skipped } := by
    rw [← h.next]
  rw [hpop, hreader]
  by_cases heq : w.target = w.ring.read + 1
  · rw [← heq, Nat.sub_self]
    exact htake 15 _
  have hsat : saturatingAdd w.reader.skipped (w.target - (w.ring.read + 1)) =
      w.reader.skipped + (w.target - (w.ring.read + 1)) := by
    have hcount := countP_le_of_pos h.over_nodup h.over_pos w.ring.read
    have hskip := h.skipped
    have := h.lt
    unfold saturatingAdd
    omega
  have hl : look w.ring { next := w.ring.read + 1, skipped := w.reader.skipped } =
      .ahead ⟨w.target, w.reader.skipped + (w.target - (w.ring.read + 1))⟩ := by
    unfold look
    dsimp only
    rw [Nat.add_sub_cancel, hs, hseq, if_neg heq, if_pos (by omega), hsat]
  show popLoop w.ring SLOT (15 + 1) _ = _
  rw [popLoop, hl]
  exact htake 14 _

/-! ## One step -/

theorem admit_cases (mode : Mode) {ring : Ring} (hle : ring.read ≤ ring.write) :
    (ring.write - ring.read < CAP ∧ ring.admits mode = (true, ring)) ∨
    (CAP ≤ ring.write - ring.read ∧ mode = .oldest ∧
      ring.admits mode = (true, { ring with lost := wrappingAdd ring.lost 1 })) ∨
    (CAP ≤ ring.write - ring.read ∧ mode = .newest ∧
      ring.admits mode = (false, { ring with dropped := wrappingAdd ring.dropped 1 })) := by
  unfold admits
  rw [wrappingSub_eq hle]
  by_cases hfull : CAP ≤ ring.write - ring.read
  · rw [if_pos hfull]
    cases mode
    · exact .inr (.inl ⟨hfull, rfl, rfl⟩)
    · exact .inr (.inr ⟨hfull, rfl, rfl⟩)
  · exact .inl ⟨by omega, if_neg hfull⟩

/-- The slot after a push. -/
def Slot.filled (s : Slot) (seq : Nat) (bytes : Bytes) : Slot :=
  ⟨seq, bytes.length, bytes ++ s.data.drop bytes.length⟩

variable {bytes : Bytes}

theorem payload_filled (s : Slot) (seq : Nat) (h : bytes.length ≤ SLOT) :
    (s.filled seq bytes).payload = bytes := by
  show (bytes ++ s.data.drop bytes.length).take (min bytes.length SLOT) = bytes
  rw [Nat.min_eq_left h, take_left]

theorem push_admitted {ring ring' : Ring} (h : ring.admits mode = (true, ring'))
    (hlen : bytes.length ≤ SLOT) :
    ring.push mode bytes =
      (true, (ring'.setSlot ring.write
        ((ring'.slot ring.write).filled (wrappingAdd ring.write 1) bytes)).publish
          (wrappingAdd ring.write 1)) := by
  unfold push
  rw [h]
  dsimp only
  rw [if_neg (by omega)]
  unfold storeSeq storeLen Ring.copyIn
  simp only [slot_setSlot_self, setSlot_setSlot]
  rfl

theorem index_ne {i j : Nat} (hlt : i < j) (hj : j < i + CAP) : i % CAP ≠ j % CAP := by
  unfold CAP at *
  omega

/-- The number found in the slot that is written next. -/
theorem Inv.seq_write (h : Inv mode w) :
    (w.ring.slot w.ring.write).seq = w.sent.length + 1 - CAP := by
  rw [h.write]
  by_cases hlt : w.sent.length < CAP
  · rw [h.fresh _ (Nat.le_refl _) hlt]
    omega
  have hcap : CAP = 16 := rfl
  have hseq := (h.live (w.sent.length + 1 - CAP) (by omega) (by omega) (by omega)).1
  have hslot : w.ring.slot w.sent.length = w.ring.slot (w.sent.length + 1 - CAP - 1) := by
    have hidx : w.sent.length % CAP = (w.sent.length + 1 - CAP - 1) % CAP := by
      unfold CAP at *
      omega
    unfold slot
    rw [hidx]
  rw [hslot, hseq]

theorem Inv.accept (h : Inv mode w) {lost : Nat} {overwritten : List Nat}
    (hlt : w.sent.length + 2 < usizeSize) (hlen : bytes.length ≤ SLOT)
    (hlost : lost = overwritten.length) (hsorted : overwritten.Pairwise (· < ·))
    (hover : ∀ m, m ∈ overwritten ↔
      1 ≤ m ∧ m + CAP ≤ w.sent.length + 1 ∧ m ∉ w.got.map Prod.fst)
    (hcount : overwritten.countP (· ≤ w.ring.read) = w.overwritten.countP (· ≤ w.ring.read))
    (hnew : mode = .newest → w.sent.length < w.ring.read + CAP) :
    Inv mode { w with
      ring := (setSlot { w.ring with lost } w.ring.write
        ((w.ring.slot w.ring.write).filled (wrappingAdd w.ring.write 1) bytes)).publish
          (wrappingAdd w.ring.write 1)
      sent := w.sent ++ [bytes]
      overwritten } := by
  have hadd : wrappingAdd w.ring.write 1 = w.sent.length + 1 := by
    rw [h.write]
    exact wrappingAdd_eq (by omega)
  have hold : ∀ n, n < w.sent.length → (w.sent ++ [bytes])[n]? = w.sent[n]? :=
    fun n hn => getElem?_append_left hn
  rw [hadd, h.write]
  refine { h with
    write := by simp [publish]
    lt := by simp; omega
    le := ?_
    live := fun m h1 h2 h3 => ?_
    fresh := fun i h1 h2 => ?_
    got := fun x hx => ?_
    over_sorted := hsorted
    over_iff := fun m => by rw [hover, length_append, length_singleton]
    passed := fun m h1 h2 => ?_
    lost := hlost
    skipped := h.skipped.trans hcount.symm
    newest := fun hm => ?_ }
  · have := h.le
    simp [publish, setSlot]
    omega
  · simp only [length_append, length_singleton] at h2 h3
    -- the new message, or one that lies in another slot
    by_cases hm : m = w.sent.length + 1
    · subst hm
      refine ⟨congrArg Slot.seq (slot_setSlot_self rfl _), ?_⟩
      have hpay := payload_filled (w.ring.slot w.sent.length) (w.sent.length + 1) hlen
      rw [Nat.add_sub_cancel, getElem?_concat_length]
      exact congrArg some ((congrArg Slot.payload (slot_setSlot_self rfl _)).trans hpay).symm
    have hne : (m - 1) % CAP ≠ w.sent.length % CAP :=
      index_ne (by omega) (by omega)
    obtain ⟨hseq, hpay⟩ := h.live m h1 (by omega) (by omega)
    have hslot : (setSlot { w.ring with lost } w.sent.length
        ((w.ring.slot w.sent.length).filled (w.sent.length + 1) bytes)).slot (m - 1) =
        w.ring.slot (m - 1) := slot_setSlot_of_ne hne _
    refine ⟨(congrArg Slot.seq hslot).trans hseq, ?_⟩
    rw [hold _ (by omega), hpay]
    exact congrArg some (congrArg Slot.payload hslot).symm
  · simp only [length_append, length_singleton] at h1
    have hne : i % CAP ≠ w.sent.length % CAP := (index_ne (by omega) (by omega)).symm
    exact (congrArg Slot.seq (slot_setSlot_of_ne hne _)).trans (h.fresh i (by omega) h2)
  · obtain ⟨h1, h2, h3⟩ := h.got x hx
    refine ⟨h1, h2, ?_⟩
    have := h.le
    rw [hold _ (by omega), h3]
  · refine (h.passed m h1 h2).imp_right fun hle => ?_
    rw [length_append]
    omega
  have := hnew hm
  refine ⟨?_, ?_⟩
  · show (w.sent ++ [bytes]).length ≤ w.ring.read + CAP
    rw [length_append, length_singleton]
    omega
  · show w.got.map Prod.snd = (w.sent ++ [bytes]).take w.ring.read
    rw [(h.newest hm).2, take_append_of_le_length h.le]

/-- One step of the writer. -/
theorem inv_send (h : Inv mode w) (bytes : Bytes) (hlt : w.ring.write + 2 < usizeSize) :
    Inv mode (step mode w (.send bytes)) := by
  have hcap : CAP = 16 := rfl
  simp only [step]
  split
  · exact h
  next hlen =>
  have hseq := h.seq_write
  have hwr := h.write
  have hfit : bytes.length ≤ SLOT := by omega
  rcases admit_cases mode (show w.ring.read ≤ w.ring.write from h.write ▸ h.le) with
    ⟨hfree, hadm⟩ | ⟨hfull, hmode, hadm⟩ | ⟨hfull, hmode, hadm⟩
  · -- the slot is empty or its message was read: nothing is lost
    have hread : ∀ m, 1 ≤ m → m + CAP = w.sent.length + 1 → m ∈ w.got.map Prod.fst := by
      intro m h1 h2
      refine (h.passed m h1 (by omega)).resolve_right ?_
      omega
    have hunread : w.unread w.ring.write = false := by
      unfold World.unread
      rw [hseq]
      by_cases h0 : w.sent.length + 1 - CAP = 0
      · simp [h0]
      · have := hread (w.sent.length + 1 - CAP) (by omega) (by omega)
        simp only [this, not_true_eq_false, and_false, decide_false]
    rw [push_admitted hadm hfit]
    simp only [hunread, Bool.false_eq_true, if_false]
    refine h.accept (by omega) hfit h.lost h.over_sorted ?_ rfl fun _ => by omega
    intro m
    rw [h.over_iff]
    refine ⟨fun ⟨h1, h2, h3⟩ => ⟨h1, by omega, h3⟩, fun ⟨h1, h2, h3⟩ => ⟨h1, ?_, h3⟩⟩
    by_contra hm
    exact h3 (hread m h1 (by omega))
  · -- the oldest message is written over before it was read
    have hnot : w.sent.length + 1 - CAP ∉ w.got.map Prod.fst := fun hm => by
      have := h.got_le hm
      omega
    have hunread : w.unread w.ring.write = true := by
      unfold World.unread
      rw [hseq]
      exact decide_eq_true ⟨by omega, hnot⟩
    have hlost : wrappingAdd w.ring.lost 1 = w.overwritten.length + 1 := by
      have := h.over_length_le
      rw [h.lost]
      exact wrappingAdd_eq (by omega)
    rw [push_admitted hadm hfit]
    simp only [hunread, hseq, if_true, hlost]
    refine h.accept (by omega) hfit ?_ ?_ ?_ ?_ fun hnew => ?_
    · simp
    · refine pairwise_append.2 ⟨h.over_sorted, pairwise_singleton _ _, ?_⟩
      intro a ha b hb
      have := (h.over_iff a).1 ha
      rw [mem_singleton] at hb
      omega
    · intro m
      rw [mem_append, mem_singleton, h.over_iff]
      constructor
      · rintro (⟨h1, h2, h3⟩ | rfl)
        · exact ⟨h1, by omega, h3⟩
        · exact ⟨by omega, by omega, hnot⟩
      rintro ⟨h1, h2, h3⟩
      by_cases hm : m = w.sent.length + 1 - CAP
      · exact .inr hm
      · exact .inl ⟨h1, by omega, h3⟩
    · rw [countP_append, countP_singleton]
      have : ¬w.sent.length + 1 - CAP ≤ w.ring.read := by omega
      simp [this]
    · exact absurd (hmode.symm.trans hnew) (by decide)
  · rw [push, hadm]
    exact { h with }

/-- Under the condition the messages passed over are gone. -/
theorem Inv.gone (h : Inv mode w) (hlt : w.ring.read < w.sent.length) (heven : Even mode w .recv)
    {m : Nat} (h1 : w.ring.read < m) (h2 : m < w.target) : m + CAP ≤ w.sent.length := by
  have hnear : w.sent.length ≤ w.ring.read + CAP ∨ CAP ∣ w.sent.length - w.ring.read := by
    rcases heven with hnew | hle | hdvd
    · exact .inl (h.newest hnew).1
    · exact .inl (by have := h.write; omega)
    · exact .inr (h.write ▸ hdvd)
  unfold World.target at h2
  unfold CAP at *
  omega

theorem pop_empty (h : Inv mode w) (hle : w.sent.length ≤ w.ring.read) :
    pop w.ring w.reader SLOT = (.ok none, w.ring, w.reader) := by
  refine if_pos ?_
  rw [h.write, h.next]
  omega

/-- One step of the reader, which must not jump over live messages. -/
theorem inv_recv (h : Inv mode w) (heven : Even mode w .recv) : Inv mode (step mode w .recv) := by
  simp only [step]
  by_cases hlt : w.ring.read < w.sent.length
  swap
  · rw [pop_empty h (by omega)]
    exact h
  obtain ⟨payload, hpay, hpop⟩ := pop_live h hlt
  obtain ⟨hr, hle, hw, -⟩ := target_spec hlt
  have hgone : ∀ m, w.ring.read < m → m < w.target → m + CAP ≤ w.sent.length :=
    fun m => h.gone hlt heven
  have hnot : ∀ m, w.ring.read < m → m ∉ w.got.map Prod.fst := fun m hm hgot => by
    have := h.got_le hgot
    omega
  rw [hpop]
  refine { h with
    next := rfl
    le := hle
    got := fun x hx => ?_
    sorted := ?_
    over_iff := fun m => ?_
    passed := fun m h1 h2 => ?_
    skipped := ?_
    newest := fun hnew => ?_ }
  · rcases mem_append.1 hx with hx | hx
    · obtain ⟨h1, h2, h3⟩ := h.got x hx
      exact ⟨h1, Nat.le_of_lt (Nat.lt_of_le_of_lt h2 hr), h3⟩
    · rw [mem_singleton] at hx
      subst hx
      exact ⟨Nat.lt_of_le_of_lt (Nat.zero_le _) hr, Nat.le_refl _, hpay⟩
  · rw [map_append]
    refine pairwise_append.2 ⟨h.sorted, pairwise_singleton _ _, ?_⟩
    intro a ha b hb
    have := h.got_le ha
    rw [map_singleton, mem_singleton] at hb
    exact hb ▸ Nat.lt_of_le_of_lt this hr
  · rw [h.over_iff, map_append, mem_append]
    refine ⟨fun ⟨h1, h2, h3⟩ => ⟨h1, h2, ?_⟩, fun ⟨h1, h2, h3⟩ => ⟨h1, h2, fun hm => h3 (.inl hm)⟩⟩
    rintro (hm | hm)
    · exact h3 hm
    · have hm : m = w.target := mem_singleton.1 hm
      omega
  · rw [map_append, mem_append]
    have h2 : m ≤ w.target := h2
    by_cases hold : m ≤ w.ring.read
    · exact (h.passed m h1 hold).imp_left .inl
    · by_cases hm : m = w.target
      · exact .inl (.inr (mem_singleton.2 hm))
      · exact .inr (hgone m (by omega) (by omega))
  · -- all of the messages passed over were counted, and the one taken was not
    show w.reader.skipped + (w.target - (w.ring.read + 1)) = w.overwritten.countP (· ≤ w.target)
    obtain ⟨d, hd⟩ : ∃ d, w.target = w.ring.read + d + 1 := ⟨w.target - w.ring.read - 1, by omega⟩
    have hall : w.overwritten.countP (· ≤ w.ring.read + d) =
        w.overwritten.countP (· ≤ w.ring.read) + d := by
      refine countP_le_add h.over_nodup fun m h1 h2 => ?_
      exact (h.over_iff m).2 ⟨by omega, hgone m h1 (by omega), hnot m h1⟩
    have htarget : w.overwritten.count (w.ring.read + d + 1) = 0 := by
      refine count_eq_zero.2 fun hm => ?_
      have := (h.over_iff _).1 hm
      omega
    rw [hd, countP_le_succ, hall, htarget, h.skipped]
    omega
  · obtain ⟨hnear, hgot⟩ := h.newest hnew
    have htarget : w.target = w.ring.read + 1 := by
      unfold World.target
      unfold CAP at *
      omega
    refine ⟨Nat.le_trans hnear (Nat.add_le_add_right (Nat.le_of_lt hr) _), ?_⟩
    rw [htarget, Nat.add_sub_cancel] at hpay
    show (w.got ++ [(w.target, payload)]).map Prod.snd = w.sent.take w.target
    rw [map_append, hgot, htarget, take_add_one, hpay]
    rfl

/-- Every even run keeps the invariant. -/
theorem run_inv (h : Runs mode (Even mode) w) : Inv mode w := by
  induction h with
  | start => exact inv_start mode
  | @step w call _ hcond ih =>
    cases call with
    | send bytes => exact inv_send ih bytes hcond
    | recv => exact inv_recv ih hcond

theorem Inv.drained (h : Inv mode w) (hd : w.Drained) : w.ring.read = w.sent.length := by
  by_contra hne
  have := h.le
  obtain ⟨payload, -, hpop⟩ := pop_live h (by omega)
  unfold World.Drained at hd
  rw [hpop] at hd
  cases hd

end

/-- In every run of whole calls in which the numbers do not wrap and an overrun reader is so by
whole rounds: numbers are got in order, each with its own message; in `Newest` mode nothing that was
accepted is lost; `lost` counts the messages written over unread; and when the ring is drained,
`skipped` counts them too and every other message was got. -/
theorem rack_delivers {mode : Mode} {w : World} (h : Runs mode (Even mode) w) :
    (w.got.map Prod.fst).Pairwise (· < ·) ∧
    (∀ x ∈ w.got, 1 ≤ x.1 ∧ w.sent[x.1 - 1]? = some x.2) ∧
    (mode = .newest →
      w.got.map Prod.snd <+: w.sent ∧ (w.Drained → w.got.map Prod.snd = w.sent)) ∧
    w.overwritten.Nodup ∧ w.ring.lost = w.overwritten.length ∧
    (w.Drained → w.reader.skipped = w.overwritten.length ∧
      ∀ m, 1 ≤ m → m ≤ w.sent.length → m ∈ w.got.map Prod.fst ∨ m ∈ w.overwritten) := by
  have hi := run_inv h
  refine ⟨hi.sorted, fun x hx => ⟨(hi.got x hx).1, (hi.got x hx).2.2⟩, fun hnew => ?_,
    hi.over_nodup, hi.lost, fun hd => ⟨?_, ?_⟩⟩
  · rw [(hi.newest hnew).2]
    refine ⟨ take_prefix _ _, fun hd => ?_⟩
    rw [hi.drained hd, take_length]
  · rw [hi.skipped, countP_eq_length]
    intro m hm
    have := (hi.over_iff m).1 hm
    have := hi.drained hd
    simp
    omega
  intro m h1 h2
  by_cases hgot : m ∈ w.got.map Prod.fst
  · exact .inl hgot
  · have hle := (hi.passed m h1 (hi.drained hd ▸ h2)).resolve_left hgot
    exact .inr ((hi.over_iff m).2 ⟨h1, hle, hgot⟩)

/-! ## Runs -/

def holds (cond : World → Call → Prop) [∀ w call, Decidable (cond w call)] (mode : Mode) :
    World → List Call → Bool
  | _, [] => true
  | w, call :: calls => cond w call && holds cond mode (step mode w call) calls

theorem runs_foldl {cond : World → Call → Prop} [∀ w call, Decidable (cond w call)] {mode : Mode}
    {w : World} (hw : Runs mode cond w) {calls : List Call} (h : holds cond mode w calls = true) :
    Runs mode cond (calls.foldl (step mode) w) := by
  induction calls generalizing w with
  | nil => exact hw
  | cons call calls ih =>
    simp only [holds, Bool.and_eq_true, decide_eq_true_eq] at h
    exact ih (.step hw h.1) h.2

instance (mode : Mode) (w : World) (call : Call) : Decidable (Even mode w call) :=
  match call with
  | .send _ => inferInstanceAs (Decidable (_ < _))
  | .recv => inferInstanceAs (Decidable (_ ∨ _ ∨ _))

/-- Two whole rounds, then the reader. -/
def overrun : World :=
  ((List.range 32).map (fun i => Call.send [UInt8.ofNat i]) ++ List.replicate 16 Call.recv).foldl
    (step .oldest) {}

/-- After an overrun by two rounds, of 32 messages 16 are got and 16 counted as lost and skipped. -/
theorem rack_delivers_overrun :
    Runs .oldest (Even .oldest) overrun ∧ overrun.Drained ∧
      overrun.reader.skipped = 16 ∧ overrun.ring.lost = 16 ∧
      ∀ m, 1 ≤ m → m ≤ overrun.sent.length →
        m ∈ overrun.got.map Prod.fst ∨ m ∈ overrun.overwritten := by
  have hrun : Runs .oldest (Even .oldest) overrun := runs_foldl .start (by decide +kernel)
  have hd : overrun.Drained := by decide +kernel
  refine ⟨hrun, hd, by decide +kernel, by decide +kernel, ?_⟩
  exact ((rack_delivers hrun).2.2.2.2.2 hd).2

/-- Seventeen messages, one of them written over: the reader takes the last and passes over fifteen
that lie in the ring. -/
def overrunByOne : World :=
  ((List.range 17).map (fun i => Call.send [UInt8.ofNat i]) ++ [Call.recv]).foldl (step .oldest) {}

/-- Of 17 messages the reader gets one, although 16 of them lie in the ring; it counts 16 as skipped
where one was lost. -/
theorem passes_over :
    Runs .oldest (fun _ _ => True) overrunByOne ∧ overrunByOne.Drained ∧
      overrunByOne.sent.length = 17 ∧ overrunByOne.got.map Prod.fst = [17] ∧
      overrunByOne.overwritten = [1] ∧ overrunByOne.ring.lost = 1 ∧
      overrunByOne.reader.skipped = 16 :=
  ⟨runs_foldl .start (by decide +kernel), by decide +kernel, by decide +kernel, by decide +kernel,
    by decide +kernel, by decide +kernel, by decide +kernel⟩

end Sqware.Rack
