import Mathlib.Logic.Function.Iterate
import Sqware.Rack.Deliver

/-!
# The rack, access by access

The writer and the reader at the granularity of their loads, stores and copies, in any order.  The
reader looks at the number of a slot before it copies and not after, so what it copies is whole
only if the writer keeps away from that slot meanwhile.  In Newest mode it does so by itself.
-/

namespace Sqware.Rack

open List Sqware.Rack.Ring Function

/-- Where the writer is in `push`; `w` is the cursor it loaded. -/
inductive Pushing
  | idle
  | copying (w : Nat) (bytes : Bytes)
  | sizing (w : Nat) (bytes : Bytes)
  | numbering (w : Nat) (bytes : Bytes)
  | publishing (w : Nat) (bytes : Bytes)

/-- Where the reader is in `pop`; `k` rounds of its loop are left. -/
inductive Popping
  | idle
  | looking (room k : Nat)
  | copying (room : Nat)
  | storing (result : Except Nat Bytes)

/-- `sent` lists what the writer took on, in the order of the numbers; `got` what `pop` returned,
with the number it consumed. -/
structure Pipe where
  ring : Ring := {}
  writer : Pushing := .idle
  reader : Reader := {}
  popping : Popping := .idle
  sent : List Bytes := []
  got : List (Nat × Bytes) := []

/-- A call that starts, or the next step of the one under way. -/
inductive Access
  | push (bytes : Bytes)
  | write
  | pop (room : Nat)
  | read

namespace Pipe

/-- Loads the cursors. -/
def startPush (p : Pipe) (mode : Mode) (bytes : Bytes) : Pipe :=
  match p.ring.admits mode with
  | (false, ring) => { p with ring }
  | (true, ring) =>
    if SLOT < bytes.length then { p with ring }
    else { p with ring, writer := .copying p.ring.write bytes, sent := p.sent ++ [bytes] }

def write (p : Pipe) : Pipe :=
  match p.writer with
  | .idle => p
  | .copying w bytes => { p with ring := p.ring.copyIn w bytes, writer := .sizing w bytes }
  | .sizing w bytes =>
    { p with ring := p.ring.storeLen w bytes.length, writer := .numbering w bytes }
  | .numbering w bytes => { p with ring := p.ring.storeSeq w, writer := .publishing w bytes }
  | .publishing w _ => { p with ring := p.ring.publish (wrappingAdd w 1), writer := .idle }

/-- Loads the write cursor. -/
def startPop (p : Pipe) (room : Nat) : Pipe :=
  if p.ring.write < p.reader.next then p else { p with popping := .looking room CAP }

def read (p : Pipe) : Pipe :=
  match p.popping with
  | .idle => p
  | .looking _ 0 => { p with popping := .idle }
  | .looking room (k + 1) =>
    match look p.ring p.reader with
    | .found => { p with popping := .copying room }
    | .ahead reader => { p with reader, popping := .looking room k }
    | .empty => { p with popping := .idle }
  | .copying room =>
    let src := (p.ring.slot (p.reader.next - 1)).payload
    { p with popping := .storing (if room < src.length then .error src.length else .ok src) }
  | .storing result =>
    let (ring, reader) := advance p.ring p.reader
    { p with
      ring, reader, popping := .idle
      got := match result with
        | .ok payload => p.got ++ [(p.reader.next, payload)]
        | .error _ => p.got }

/-- One access; a call starts only when the one before it is over. -/
def step (mode : Mode) (p : Pipe) : Access → Pipe
  | .push bytes =>
    match p.writer with
    | .idle => p.startPush mode bytes
    | _ => p
  | .write => p.write
  | .pop room =>
    match p.popping with
    | .idle => p.startPop room
    | _ => p
  | .read => p.read

/-- Runs from an empty pipe, each access under a condition. -/
inductive Runs (mode : Mode) (cond : Pipe → Access → Prop) : Pipe → Prop
  | start : Runs mode cond {}
  | step {p : Pipe} {access : Access} :
      Runs mode cond p → cond p access → Runs mode cond (p.step mode access)

/-! ## The steps in a row -/

/-- The writer's steps in a row are `push`. -/
theorem push_steps {mode : Mode} {p : Pipe} (hidle : p.writer = .idle) (bytes : Bytes) :
    (p.startPush mode bytes).write.write.write.write.ring = (p.ring.push mode bytes).2 := by
  unfold startPush push
  rcases p.ring.admits mode with ⟨admitted, ring⟩
  cases admitted with
  | false => simp only [write, hidle]
  | true =>
    dsimp only
    split
    · simp only [write, hidle]
    · rfl

/-- The reader's steps in a row are `pop`: from the rounds that are left they come to an end, with
the ring, the reader and the payload of the loop. -/
theorem pop_steps {p : Pipe} {room k : Nat} (h : p.popping = .looking room k) :
    ∃ n q, Pipe.read^[n] p = q ∧ q.popping = .idle ∧
      (q.ring, q.reader) = (popLoop p.ring room k p.reader).2 ∧
      q.got = match (popLoop p.ring room k p.reader).1 with
        | .ok (some payload) => p.got ++ [(q.ring.read, payload)]
        | _ => p.got := by
  induction k generalizing p with
  | zero =>
    have hread : p.read = { p with popping := .idle } := by simp only [read, h]
    exact ⟨1, _, hread, rfl, rfl, rfl⟩
  | succ k ih =>
    cases hl : look p.ring p.reader with
    | found =>
      refine ⟨3, p.read.read.read, rfl, ?_⟩
      simp only [read, h, hl, popLoop]
      split <;> exact ⟨trivial, rfl, rfl⟩
    | ahead reader =>
      have hread : p.read = { p with reader, popping := .looking room k } := by
        simp only [read, h, hl]
      obtain ⟨n, q, hn, hq⟩ := ih (p := p.read) (by rw [hread])
      rw [hread] at hn hq
      refine ⟨n + 1, q, ?_, ?_⟩
      · rw [iterate_succ_apply, hread, hn]
      · simp only [popLoop, hl]
        exact hq
    | empty =>
      have hread : p.read = { p with popping := .idle } := by simp only [read, h, hl]
      refine ⟨1, _, hread, rfl, ?_⟩
      simp only [popLoop, hl]
      trivial

/-- One message is pushed and popped access by access. -/
theorem pop_steps_one : ∃ n, (Pipe.read^[n]
    ((startPush {} .oldest [7]).write.write.write.write.startPop SLOT)).got = [(1, [7])] := by
  obtain ⟨n, q, hn, -, hq, hgot⟩ := pop_steps
    (p := (startPush {} .oldest [7]).write.write.write.write.startPop SLOT) rfl
  rw [show q.ring = _ from congrArg Prod.fst hq] at hgot
  exact ⟨n, by rw [hn, hgot]; decide +kernel⟩

end Pipe

/-! ## One access -/

/-- The bytes of the slot are being replaced, under the old number. -/
def Pushing.half : Pushing → Bool
  | .sizing _ _ | .numbering _ _ => true
  | _ => false

/-- The number was right, and the bytes are yet to be copied. -/
def Popping.matched : Popping → Bool
  | .copying _ => true
  | _ => false

/-- The two sides are not in the middle of one slot. -/
def Pipe.Apart (p : Pipe) : Prop :=
  p.writer.half = true → p.popping.matched = true →
    (p.reader.next - 1) % CAP ≠ p.ring.write % CAP

/-- The numbers do not wrap, and in Oldest mode the two sides keep apart. -/
def Steady (mode : Mode) (p : Pipe) : Prop :=
  p.sent.length + 1 < usizeSize ∧ (mode = .newest ∨ p.Apart)

instance (mode : Mode) (p : Pipe) : Decidable (Steady mode p) :=
  inferInstanceAs (Decidable (_ ∧ (_ ∨ (_ → _ → _))))

/-- The message in the writer's hands. -/
structure Filling (cursor : Nat) (sent : List Bytes) (w : Nat) (bytes : Bytes) : Prop where
  write : w = cursor
  fits : bytes.length ≤ SLOT
  length : sent.length = cursor + 1
  last : sent[cursor]? = some bytes

/-- What the slot holds at each step of `push`. -/
def Writing (ring : Ring) (sent : List Bytes) : Pushing → Prop
  | .idle => sent.length = ring.write
  | .copying w bytes => Filling ring.write sent w bytes
  | .sizing w bytes =>
    Filling ring.write sent w bytes ∧ (ring.slot w).data.take bytes.length = bytes
  | .numbering w bytes => Filling ring.write sent w bytes ∧ (ring.slot w).payload = bytes
  | .publishing w bytes => Filling ring.write sent w bytes ∧ (ring.slot w).seq = w + 1

/-- A slot that has a number, and is not half written, holds the message of that number. -/
structure Safe (p : Pipe) : Prop where
  pos : 1 ≤ p.reader.next
  whole : ∀ i n, (p.writer.half = true → i % CAP ≠ p.ring.write % CAP) →
    (p.ring.slot i).seq = n + 1 → p.sent[n]? = some (p.ring.slot i).payload
  writing : Writing p.ring p.sent p.writer
  matched : p.popping.matched = true →
    p.sent[p.reader.next - 1]? = some (p.ring.slot (p.reader.next - 1)).payload
  copied : ∀ result, p.popping = .storing result → p.reader.next ≤ p.sent.length ∧
    ∀ payload, result = .ok payload → p.sent[p.reader.next - 1]? = some payload
  got : ∀ x ∈ p.got, 1 ≤ x.1 ∧ p.sent[x.1 - 1]? = some x.2

section

variable {p : Pipe} {bytes : Bytes}

theorem safe_start : Safe {} :=
  ⟨Nat.le_refl 1, fun _ _ _ => nofun, rfl, nofun, nofun, nofun⟩

/-- What the writer does to its slot while the reader is not in the middle of it. -/
theorem Safe.setSlot (h : Safe p)
    (hfar : p.popping.matched = true → (p.reader.next - 1) % CAP ≠ p.ring.write % CAP)
    {s : Slot} {writer : Pushing}
    (hw : Writing (p.ring.setSlot p.ring.write s) p.sent writer)
    (hs : writer.half = true ∨ ∀ n, s.seq = n + 1 → p.sent[n]? = some s.payload) :
    Safe { p with ring := p.ring.setSlot p.ring.write s, writer } := by
  refine { h with whole := fun i n hi => ?_, writing := hw, matched := fun hm => ?_ }
  · by_cases he : i % CAP = p.ring.write % CAP
    · rw [slot_setSlot_self he]
      exact hs.resolve_left (fun hhalf => hi hhalf he) n
    · rw [slot_setSlot_of_ne he]
      exact h.whole i n fun _ => he
  · rw [slot_setSlot_of_ne (hfar hm)]
    exact h.matched hm

theorem write_safe (h : Safe p) (hlt : p.sent.length + 1 < usizeSize) (hp : p.Apart)
    (hq : p.write.Apart) : Safe p.write := by
  have hw := h.writing
  unfold Pipe.Apart at hp
  unfold Pipe.write at hq ⊢
  cases hwriter : p.writer with
  | idle => exact h
  | copying w bytes =>
    rw [hwriter] at hw hq
    have hf : Filling p.ring.write p.sent w bytes := hw
    obtain rfl := hf.write
    refine h.setSlot (hq rfl) ⟨hf, ?_⟩ (.inl rfl)
    rw [slot_setSlot_self rfl]
    exact take_left
  | sizing w bytes =>
    rw [hwriter] at hw hp
    obtain ⟨hf, hdata⟩ := hw
    obtain rfl := hf.write
    refine h.setSlot (hp rfl) ⟨hf, ?_⟩ (.inl rfl)
    rw [slot_setSlot_self rfl]
    show (p.ring.slot p.ring.write).data.take (min bytes.length SLOT) = bytes
    rw [Nat.min_eq_left hf.fits, hdata]
  | numbering w bytes =>
    rw [hwriter] at hw hp
    obtain ⟨hf, hpay⟩ := hw
    obtain rfl := hf.write
    have hlen := hf.length
    have hadd : wrappingAdd p.ring.write 1 = p.ring.write + 1 := wrappingAdd_eq (by omega)
    refine h.setSlot (hp rfl) ⟨hf, ?_⟩ (.inr fun n hn => ?_)
    · rw [slot_setSlot_self rfl, hadd]
    · rw [hadd] at hn
      rw [← Nat.succ.inj hn, hf.last, ← hpay]
      rfl
  | publishing w bytes =>
    rw [hwriter] at hw
    obtain ⟨hf, -⟩ := hw
    obtain rfl := hf.write
    have hlen := hf.length
    refine { h with whole := fun i n _ => h.whole i n (by rw [hwriter]; nofun), writing := ?_ }
    show p.sent.length = wrappingAdd p.ring.write 1
    rw [hlen, wrappingAdd_eq (by omega)]

theorem admits_ring (ring : Ring) (mode : Mode) :
    ∃ lost dropped, (ring.admits mode).2 = { ring with lost, dropped } := by
  unfold admits
  split
  · cases mode <;> exact ⟨_, _, rfl⟩
  · exact ⟨_, _, rfl⟩

theorem startPush_safe {mode : Mode} (h : Safe p) (hidle : p.writer = .idle) :
    Safe (p.startPush mode bytes) := by
  have hw := h.writing
  rw [hidle] at hw
  have hlen : p.sent.length = p.ring.write := hw
  obtain ⟨lost, dropped, hring⟩ := admits_ring p.ring mode
  unfold Pipe.startPush
  generalize p.ring.admits mode = res at hring
  obtain ⟨admitted, ring⟩ := res
  obtain rfl : ring = _ := hring
  -- a refusal and a lost message only count
  have hcount : Safe { p with ring := { p.ring with lost, dropped } } :=
    { h with writing := by rwa [hidle] }
  cases admitted with
  | false => exact hcount
  | true =>
    dsimp only
    split
    · exact hcount
    have hold : ∀ {n b}, p.sent[n]? = some b → (p.sent ++ [bytes])[n]? = some b := fun hn =>
      (getElem?_append_left (List.getElem?_eq_some_iff.1 hn).1).trans hn
    refine { h with
      whole := fun i n _ hn => hold (h.whole i n (by rw [hidle]; nofun) hn)
      writing := ⟨rfl, by omega, ?_, ?_⟩
      matched := fun hm => hold (h.matched hm)
      copied := fun result hr => ?_
      got := fun x hx => (h.got x hx).imp_right hold }
    · show (p.sent ++ [bytes]).length = p.ring.write + 1
      rw [length_append, hlen, length_singleton]
    · show (p.sent ++ [bytes])[p.ring.write]? = some bytes
      rw [← hlen, getElem?_concat_length]
    · obtain ⟨hle, hres⟩ := h.copied result hr
      refine ⟨?_, fun payload hp => hold (hres payload hp)⟩
      show _ ≤ (p.sent ++ [bytes]).length
      rw [length_append]
      exact Nat.le_add_right_of_le hle

theorem startPop_safe (h : Safe p) (room : Nat) : Safe (p.startPop room) := by
  unfold Pipe.startPop
  split
  · exact h
  · exact { h with matched := nofun, copied := nofun }

theorem look_found {ring : Ring} {rd : Reader} :
    look ring rd = .found ↔ (ring.slot (rd.next - 1)).seq = rd.next := by
  unfold look
  dsimp only
  split
  · simp [*]
  · split <;> simp [*]

theorem look_ahead {ring : Ring} {rd rd' : Reader} (h : look ring rd = .ahead rd') :
    rd.next < rd'.next := by
  unfold look at h
  dsimp only at h
  split at h
  · cases h
  split at h
  · next hlt =>
    cases h
    exact hlt
  · cases h

theorem read_safe (h : Safe p) (hlt : p.sent.length + 1 < usizeSize) (hq : p.read.Apart) :
    Safe p.read := by
  have hpos := h.pos
  unfold Pipe.read at hq ⊢
  cases hpop : p.popping with
  | idle => exact h
  | looking room k =>
    cases k with
    | zero => exact { h with matched := nofun, copied := nofun }
    | succ k =>
      rw [hpop] at hq
      cases hl : look p.ring p.reader with
      | found =>
        rw [hl] at hq
        refine { h with matched := fun _ => ?_, copied := nofun }
        exact h.whole _ _ (fun hhalf => hq hhalf rfl)
          ((look_found.1 hl).trans (Nat.sub_add_cancel hpos).symm)
      | ahead reader =>
        exact { h with
          pos := Nat.le_trans hpos (Nat.le_of_lt (look_ahead hl))
          matched := nofun
          copied := nofun }
      | empty => exact { h with matched := nofun, copied := nofun }
  | copying room =>
    have hpay := h.matched (by rw [hpop]; rfl)
    have hle := (List.getElem?_eq_some_iff.1 hpay).1
    refine { h with matched := nofun, copied := fun result hr => ⟨by dsimp only; omega, ?_⟩ }
    intro payload hok
    injection hr with hr
    rw [← hr] at hok
    split at hok
    · cases hok
    · cases hok
      exact hpay
  | storing result =>
    obtain ⟨hle, hres⟩ := h.copied result hpop
    have hw := h.writing
    refine { h with
      pos := ?_
      writing := ?_
      matched := nofun
      copied := nofun
      got := fun x hx => ?_ }
    · show 1 ≤ wrappingAdd p.reader.next 1
      rw [wrappingAdd_eq (by omega)]
      exact Nat.le_add_left 1 _
    · revert hw
      cases p.writer <;> exact id
    · cases result with
      | error n => exact h.got x hx
      | ok payload =>
        rcases mem_append.1 hx with hx | hx
        · exact h.got x hx
        · rw [mem_singleton] at hx
          subst hx
          exact ⟨hpos, hres payload rfl⟩

/-- One access that leaves the two sides apart. -/
theorem step_safe {mode : Mode} {access : Access} (h : Safe p)
    (hlt : p.sent.length + 1 < usizeSize) (hp : p.Apart) (hq : (p.step mode access).Apart) :
    Safe (p.step mode access) := by
  cases access with
  | push bytes =>
    simp only [Pipe.step]
    split
    · next hidle => exact startPush_safe h hidle
    · exact h
  | write => exact write_safe h hlt hp hq
  | pop room =>
    simp only [Pipe.step]
    split
    · exact startPop_safe h room
    · exact h
  | read => exact read_safe h hlt hq

/-! ## In Newest mode -/

/-- The slots of the messages that are not yet read are neither written to nor passed over. -/
structure Near (p : Pipe) : Prop where
  next : p.reader.next = p.ring.read + 1
  le : p.ring.read ≤ p.ring.write
  cap : p.ring.write ≤ p.ring.read + CAP
  busy : p.writer ≠ .idle → p.ring.write < p.ring.read + CAP
  wanted : p.popping ≠ .idle → p.ring.read < p.ring.write
  live : ∀ m, p.ring.read < m → m ≤ p.ring.write → (p.ring.slot (m - 1)).seq = m

theorem near_start : Near {} :=
  ⟨rfl, Nat.le_refl _, Nat.zero_le _, (absurd rfl ·), (absurd rfl ·),
    fun _ h1 h2 => absurd h2 (Nat.not_le_of_lt h1)⟩

theorem Near.apart (h : Near p) : p.Apart := by
  intro hw hp
  have hlt := h.wanted fun he => by rw [he] at hp; cases hp
  rw [h.next, Nat.add_sub_cancel]
  exact index_ne hlt (h.busy fun he => by rw [he] at hw; cases hw)

/-- The writer is not in the slot of an unread message. -/
theorem Near.setSlot (h : Near p) (hbusy : p.ring.write < p.ring.read + CAP) (s : Slot)
    (writer : Pushing) : Near { p with ring := p.ring.setSlot p.ring.write s, writer } := by
  refine { h with busy := fun _ => hbusy, live := fun m h1 h2 => ?_ }
  have h1 : p.ring.read < m := h1
  have h2 : m ≤ p.ring.write := h2
  rw [slot_setSlot_of_ne (index_ne (by omega) (by omega))]
  exact h.live m h1 h2

theorem write_near (h : Near p) (hs : Safe p) (hlt : p.sent.length + 1 < usizeSize) :
    Near p.write := by
  have hw := hs.writing
  have hbusy := h.busy
  unfold Pipe.write
  cases hwriter : p.writer with
  | idle => exact h
  | copying w bytes =>
    rw [hwriter] at hw hbusy
    obtain rfl := Filling.write hw
    exact h.setSlot (hbusy nofun) _ _
  | sizing w bytes | numbering w bytes =>
    rw [hwriter] at hw hbusy
    obtain rfl := hw.1.write
    exact h.setSlot (hbusy nofun) _ _
  | publishing w bytes =>
    rw [hwriter] at hw hbusy
    obtain ⟨hf, hseq⟩ := hw
    obtain rfl := hf.write
    have hlen := hf.length
    dsimp only
    rw [wrappingAdd_eq (by omega)]
    refine { h with
      le := Nat.le_succ_of_le h.le
      cap := hbusy nofun
      busy := (absurd rfl ·)
      wanted := fun hp => Nat.lt_succ_of_lt (h.wanted hp)
      live := fun m h1 h2 => ?_ }
    by_cases hm : m = p.ring.write + 1
    · subst hm
      exact hseq
    · exact h.live m h1 (Nat.le_of_lt_succ (Nat.lt_of_le_of_ne h2 hm))

theorem startPush_near (h : Near p) : Near (p.startPush .newest bytes) := by
  unfold Pipe.startPush
  rcases admit_cases .newest h.le with ⟨hfree, hadm⟩ | ⟨-, hmode, -⟩ | ⟨-, -, hadm⟩
  · rw [hadm]
    dsimp only
    split
    · exact h
    · have hle := h.le
      exact { h with busy := fun _ => by dsimp only; omega }
  · cases hmode
  · rw [hadm]
    exact { h with }

theorem startPop_near (h : Near p) (room : Nat) : Near (p.startPop room) := by
  unfold Pipe.startPop
  split
  · exact h
  have hnext := h.next
  exact { h with wanted := fun _ => by dsimp only; omega }

theorem read_near (h : Near p) (hs : Safe p) (hlt : p.sent.length + 1 < usizeSize) :
    Near p.read := by
  have hnext := h.next
  unfold Pipe.read
  cases hpop : p.popping with
  | idle => exact h
  | looking room k =>
    have hwant := h.wanted (by rw [hpop]; nofun)
    cases k with
    | zero => exact { h with wanted := (absurd rfl ·) }
    | succ k =>
      have hfound : (p.ring.slot (p.reader.next - 1)).seq = p.reader.next := by
        rw [hnext]
        exact h.live _ (Nat.lt_succ_self _) hwant
      rw [look_found.2 hfound]
      exact { h with wanted := fun _ => hwant }
  | copying room =>
    have hwant := h.wanted (by rw [hpop]; nofun)
    exact { h with wanted := fun _ => hwant }
  | storing result =>
    have hwant := h.wanted (by rw [hpop]; nofun)
    have hcap := h.cap
    have hle := (hs.copied result hpop).1
    refine ⟨?_, ?_, ?_, fun hw => ?_, (absurd rfl ·), fun m h1 h2 => ?_⟩
    · exact wrappingAdd_eq (by omega)
    all_goals
      dsimp only [advance] at *
      rw [hnext] at *
    · exact hwant
    · omega
    · exact Nat.lt_succ_of_lt (h.busy hw)
    · exact h.live m (Nat.lt_of_succ_lt h1) h2

/-- One access in Newest mode. -/
theorem step_near {access : Access} (h : Near p) (hs : Safe p)
    (hlt : p.sent.length + 1 < usizeSize) : Near (p.step .newest access) := by
  cases access with
  | push bytes =>
    simp only [Pipe.step]
    split
    · exact startPush_near h
    · exact h
  | write => exact write_near h hs hlt
  | pop room =>
    simp only [Pipe.step]
    split
    · exact startPop_near h room
    · exact h
  | read => exact read_near h hs hlt

end

/-- In every interleaving of the accesses of one writer and one reader, each payload that a pop
returns is, byte for byte, the message of the number that it consumed; in Oldest mode as long as the
writer never replaces the bytes of a slot that the reader has matched and is yet to copy. -/
theorem payloads_whole {mode : Mode} {p : Pipe}
    (h : Pipe.Runs mode (fun p access => Steady mode (p.step mode access)) p) :
    ∀ x ∈ p.got, 1 ≤ x.1 ∧ p.sent[x.1 - 1]? = some x.2 := by
  have hsafe : (p.sent.length + 1 < usizeSize ∧ p.Apart) ∧ Safe p ∧ (mode = .newest → Near p) := by
    induction h with
    | start => exact ⟨⟨by decide, nofun⟩, safe_start, fun _ => near_start⟩
    | @step p access _ hcond ih =>
      obtain ⟨⟨hlt, hp⟩, hs, hn⟩ := ih
      have hn' : mode = .newest → Near (p.step mode access) := by
        rintro rfl
        exact step_near (hn rfl) hs hlt
      have hq := hcond.2.elim (fun hm => (hn' hm).apart) id
      exact ⟨⟨hcond.1, hq⟩, step_safe hs hlt hp hq, hn'⟩
  exact hsafe.2.1.got

/-! ## Runs -/

theorem Pipe.runs_foldl {cond : Pipe → Access → Prop} {mode : Mode} {p : Pipe}
    (hp : Pipe.Runs mode cond p) {accesses : List Access}
    (h : ∀ i (hi : i < accesses.length),
      cond ((accesses.take i).foldl (Pipe.step mode) p) accesses[i]) :
    Pipe.Runs mode cond (accesses.foldl (Pipe.step mode) p) := by
  induction accesses generalizing p with
  | nil => exact hp
  | cons access accesses ih =>
    exact ih (.step hp (h 0 (Nat.succ_pos _))) fun i hi => h (i + 1) (Nat.succ_lt_succ hi)

/-- Messages that are sent whole. -/
def pushes (n : Nat) (bytes : Bytes) : List Access :=
  (List.replicate n [Access.push bytes, .write, .write, .write, .write]).flatten

/-- Seventeen messages; the reader starts while the last is written in the place of the first. -/
def passed : Pipe :=
  (pushes 16 [1, 1] ++ [Access.push [2], .write, .pop SLOT, .write, .write, .write, .read, .read,
    .read, .read]).foldl (Pipe.step .oldest) {}

/-- The reader goes on to the last message and gets it whole. -/
theorem payloads_whole_passed : passed.got = [(17, [2])] ∧
    ∀ x ∈ passed.got, 1 ≤ x.1 ∧ passed.sent[x.1 - 1]? = some x.2 := by
  refine ⟨by decide +kernel, payloads_whole (Pipe.runs_foldl .start ?_)⟩
  decide +kernel

/-- Sixteen messages `[1, 1]`; the reader has found the first when the writer copies `[2]` over
it. -/
def torn : Pipe :=
  (pushes 16 [1, 1] ++ [Access.pop SLOT, .read, .push [2], .write, .read, .read]).foldl
    (Pipe.step .oldest) {}

/-- A pop returns bytes of two messages, which no push ever sent. -/
theorem payload_torn :
    Pipe.Runs .oldest (fun _ _ => True) torn ∧ torn.got = [(1, [2, 1])] ∧ [2, 1] ∉ torn.sent :=
  ⟨Pipe.runs_foldl .start fun _ _ => trivial, by decide +kernel, by decide +kernel⟩

end Sqware.Rack
