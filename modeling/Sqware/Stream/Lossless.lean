import Mathlib.Data.List.Infix
import Sqware.Stream.Ring

/-!
# The byte stream loses nothing

Every interleaving of the accesses of a reader and a writer.  Each side relies on what the other may
do: to the reader, the accepted bytes only grow, and not at all once the writer has closed; to the
writer, the read cursor only grows.  The bytes between the cursors are always the last ones
accepted.
-/

namespace Sqware.Stream

open Threads List Function

/-- The cursors count what was sent and got, and what is between them is in the ring. -/
structure RingInv (capacity : Nat) (s : Shared) : Prop where
  magic : s.magic = MAGIC
  version : s.version = VERSION
  size : s.capacity = capacity
  read : s.read = s.got.length
  write : s.write = s.sent.length
  le : s.read ≤ s.write
  room : s.write ≤ s.read + capacity
  lt : s.write < usizeSize
  got : s.got <+: s.sent
  live : ∀ k, s.read ≤ k → k < s.write → s.sent[k]? = some (s.bytes (k % capacity))

/-- What the other side may do. -/
def Rely (capacity : Nat) : Direction → Shared → Shared → Prop
  | .read, s, s' =>
    (RingInv capacity s → RingInv capacity s') ∧ s'.read = s.read ∧ s'.got = s.got ∧
      s.sent <+: s'.sent ∧ (s.writeClosed ≠ 0 → s'.writeClosed ≠ 0 ∧ s'.sent = s.sent)
  | .write, s, s' =>
    (RingInv capacity s → RingInv capacity s') ∧ s'.write = s.write ∧ s'.sent = s.sent ∧
      s'.writeClosed = s.writeClosed ∧ s'.bytes = s.bytes ∧ s.read ≤ s'.read

/-- What a side knows, from the answers it had. -/
def Known (capacity : Nat) : Direction → List (Call × Answer) → Shared → Prop
  | .read, log, s =>
    RingInv capacity s ∧ s.got = returned log ∧ ∀ e ∈ log, e.2 ≠ .read (.error .corrupt) ∧
      (e.2 = .read (.ok .eof) → s.writeClosed ≠ 0 ∧ s.got = s.sent)
  | .write, log, s =>
    RingInv capacity s ∧ s.sent = accepted log ∧
      (s.writeClosed ≠ 0 → ∃ e ∈ log, e.1 = .closeWrite)

/-- What an access promises to the other side. -/
def Promise (capacity : Nat) (d : Direction) (s s' : Shared) : Prop :=
  ∀ e, e ≠ d → Rely capacity e s s'

section

variable {capacity : Nat} {d : Direction} {log : List (Call × Answer)} {s s' s'' : Shared}

theorem rely_refl (capacity : Nat) (d : Direction) (s : Shared) : Rely capacity d s s := by
  cases d with
  | read => exact ⟨id, rfl, rfl, prefix_rfl, fun h => ⟨h, rfl⟩⟩
  | write => exact ⟨id, rfl, rfl, rfl, rfl, Nat.le_refl _⟩

theorem rely_trans (h1 : Rely capacity d s s') (h2 : Rely capacity d s' s'') :
    Rely capacity d s s'' := by
  cases d with
  | read =>
    obtain ⟨hi, hr, hg, hp, hc⟩ := h1
    obtain ⟨hi', hr', hg', hp', hc'⟩ := h2
    refine ⟨hi' ∘ hi, hr'.trans hr, hg'.trans hg, hp.trans hp', fun hne => ?_⟩
    obtain ⟨hne, heq⟩ := hc hne
    obtain ⟨hne, heq'⟩ := hc' hne
    exact ⟨hne, heq'.trans heq⟩
  | write =>
    obtain ⟨hi, hw, hs, hc, hb, hr⟩ := h1
    obtain ⟨hi', hw', hs', hc', hb', hr'⟩ := h2
    exact ⟨hi' ∘ hi, hw'.trans hw, hs'.trans hs, hc'.trans hc, hb'.trans hb, Nat.le_trans hr hr'⟩

theorem known_inv (h : Known capacity d log s) : RingInv capacity s := by
  cases d <;> exact h.1

theorem known_stable (h : Known capacity d log s) (hs : Rely capacity d s s') :
    Known capacity d log s' := by
  cases d with
  | read =>
    obtain ⟨hi, hg, hl⟩ := h
    obtain ⟨hi', -, hg', -, hc⟩ := hs
    refine ⟨hi' hi, hg'.trans hg, fun e he => ⟨(hl e he).1, fun heof => ?_⟩⟩
    obtain ⟨hne, heq⟩ := (hl e he).2 heof
    obtain ⟨hne, hsent⟩ := hc hne
    exact ⟨hne, by rw [hg', heq, hsent]⟩
  | write =>
    obtain ⟨hi, hsent, hc⟩ := h
    obtain ⟨hi', -, hs', hc', -⟩ := hs
    exact ⟨hi' hi, hs'.trans hsent, fun hne => hc (hc' ▸ hne)⟩

/-! ## Single accesses -/

variable {α β : Type} {Q : Except Fail β → Shared → Prop}

/-- What a side's program keeps, whatever the other side does meanwhile. -/
abbrev Kept (capacity : Nat) (d : Direction) (log : List (Call × Answer))
    (Q : α → Shared → Prop) : Prog Shared Empty α → Shared → Prop :=
  wp (Rely capacity d) (Promise capacity d) (Known capacity d log) Q

theorem wp_load {f : Shared → α} {c : α → Io β} (hk : Known capacity d log s)
    (h : ∀ s', Rely capacity d s s' → Known capacity d log s' →
      Kept capacity d log Q (c (f s')).run s') : Kept capacity d log Q (load f >>= c).run s := by
  refine wp_try ⟨hk, fun s' hs => ⟨fun e _ => rely_refl capacity e s', ?_⟩⟩
  exact h s' hs (known_stable hk hs)

theorem wp_store {f : Shared → Shared} {c : Unit → Io β} (hk : Known capacity d log s)
    (h : ∀ s', Rely capacity d s s' → Known capacity d log s' → Promise capacity d s' (f s') ∧
      Kept capacity d log Q (c ()).run (f s')) : Kept capacity d log Q (store f >>= c).run s :=
  wp_try ⟨hk, fun s' hs => h s' hs (known_stable hk hs)⟩

theorem ensure_true {ok : Bool} {fail : Fail} (h : ok = true) : ensure ok fail = pure () := by
  rw [h]
  rfl

theorem ensure_false {ok : Bool} {fail : Fail} (h : ok = false) : ensure ok fail = throw fail := by
  rw [h]
  rfl

theorem wp_ite {p : Prop} [Decidable p] {a b : Io β} (ha : p → Kept capacity d log Q a.run s)
    (hb : ¬ p → Kept capacity d log Q b.run s) :
    Kept capacity d log Q (if p then a else b).run s := by
  split
  · next h => exact ha h
  · next h => exact hb h

theorem wp_check {c : Unit → Io β} (hk : Known capacity d log s)
    (h : ∀ s', Rely capacity d s s' → Known capacity d log s' →
      Kept capacity d log Q (c ()).run s') : Kept capacity d log Q
      (check capacity >>= c).run s := by
  refine wp_try ?_
  refine wp_load hk fun s1 h1 k1 => ?_
  rw [ensure_true (decide_eq_true (known_inv k1).magic)]
  refine wp_load k1 fun s2 h2 k2 => ?_
  rw [ensure_true (decide_eq_true (known_inv k2).version)]
  refine wp_load k2 fun s3 h3 k3 => ?_
  rw [ensure_true (decide_eq_true (known_inv k3).size)]
  exact h s3 (rely_trans h1 (rely_trans h2 h3)) k3

/-- One of the cursors is this side's own, so the two loads agree. -/
theorem cursors_agree (hi : RingInv capacity s) (hs : Rely capacity d s s') :
    s.read ≤ s'.write ∧ s'.write - s.read ≤ capacity := by
  cases d with
  | read =>
    have hi' := hs.1 hi
    have hr := hs.2.1
    have := hi'.le
    have := hi'.room
    omega
  | write =>
    have hw := hs.2.1
    have := hi.le
    have := hi.room
    omega

theorem wp_cursors {c : Nat × Nat → Io β} (hk : Known capacity d log s)
    (h : ∀ s1 s2, Rely capacity d s s1 → Known capacity d log s1 → Rely capacity d s1 s2 →
      Known capacity d log s2 → Kept capacity d log Q (c (s1.read, s2.write)).run s2) :
    Kept capacity d log Q (cursors capacity >>= c).run s := by
  refine wp_try ?_
  refine wp_check hk fun s0 h0 k0 => ?_
  refine wp_load k0 fun s1 h1 k1 => ?_
  refine wp_load k1 fun s2 h2 k2 => ?_
  rw [ensure_true (decide_eq_true (cursors_agree (known_inv k1) h2))]
  exact h s1 s2 (rely_trans h0 h1) k1 h2 k2

/-! ## The reader -/

theorem known_note {c : Call} {a : Answer} (hk : Known capacity .read log s)
    (hbytes : returned [(c, a)] = []) (hok : a ≠ .read (.error .corrupt))
    (heof : a = .read (.ok .eof) → s.writeClosed ≠ 0 ∧ s.got = s.sent) :
    Known capacity .read (log ++ [(c, a)]) s := by
  obtain ⟨hi, hg, hl⟩ := hk
  refine ⟨hi, ?_, fun e he => ?_⟩
  · unfold returned at hbytes ⊢
    rw [flatMap_append, hbytes, append_nil]
    exact hg
  rcases mem_append.1 he with he | he
  · exact hl e he
  · rw [mem_singleton] at he
    subst he
    exact ⟨hok, heof⟩

theorem wp_copyOut {r i n : Nat} {c : List UInt8 → Io β} (hk : Known capacity .read log s)
    (hr : s.read = r) (hn : r + i + n ≤ s.write)
    (h : ∀ s', Rely capacity .read s s' → Known capacity .read log s' → Kept capacity .read log Q
        (c ((s'.sent.drop (r + i)).take n)).run s') : Kept capacity .read log Q
      (copyOut capacity r i n >>= c).run s := by
  induction n generalizing β i s with
  | zero =>
    have := h s (rely_refl capacity .read s) hk
    rwa [take_zero] at this
  | succ n ih =>
    refine wp_try ?_
    refine wp_load hk fun s1 h1 k1 => ?_
    have hi := known_inv k1
    have hgrow := h1.2.2.2.1.length_le
    have hi0 := known_inv hk
    have hw0 := hi0.write
    have hw1 := hi.write
    have hlive := hi.live (r + i) (by have := h1.2.1; omega) (by omega)
    refine ih (i := i + 1) k1 (h1.2.1.trans hr) (by omega) fun s2 h2 k2 => ?_
    have hbyte : s2.sent[r + i]? = some (s1.bytes ((r + i) % capacity)) := by
      obtain ⟨rest, hrest⟩ := h2.2.2.2.1
      rw [← hrest, getElem?_append_left (by omega), hlive]
    have hout : (s2.sent.drop (r + i)).take (n + 1) =
        s1.bytes ((r + i) % capacity) :: (s2.sent.drop (r + (i + 1))).take n := by
      obtain ⟨hlt, hget⟩ := List.getElem?_eq_some_iff.1 hbyte
      rw [drop_eq_getElem_cons hlt, take_succ_cons, hget, Nat.add_assoc]
    have := h s2 (rely_trans h1 h2) k2
    rwa [hout] at this

/-- The read cursor moves over bytes that were accepted. -/
theorem storeRead_keeps {n : Nat} (hi : RingInv capacity s) (hn : s.read + n ≤ s.write) :
    RingInv capacity
      { s with read := s.read + n, got := s.got ++ (s.sent.drop s.read).take n } := by
  have hw := hi.write
  have hr := hi.read
  have htake : s.got ++ (s.sent.drop s.read).take n = s.sent.take (s.read + n) := by
    rw [take_add, hr, ← prefix_iff_eq_take.1 hi.got]
  refine { hi with
    read := ?_
    le := hn
    room := Nat.le_trans hi.room (Nat.add_le_add_right (Nat.le_add_right _ _) _)
    got := ?_
    live := fun k h1 h2 => hi.live k (Nat.le_trans (Nat.le_add_right _ _) h1) h2 }
  · show s.read + n = (s.got ++ (s.sent.drop s.read).take n).length
    rw [htake, length_take]
    omega
  · show s.got ++ (s.sent.drop s.read).take n <+: s.sent
    rw [htake]
    exact take_prefix _ _

theorem storeRead_spec {room n : Nat} (hk : Known capacity .read log s)
    (hn : s.read + n ≤ s.write) : Promise capacity .read s
        { s with read := s.read + n, got := s.got ++ (s.sent.drop s.read).take n } ∧
      Known capacity .read
        (log ++ [(.read room, .read (.ok (.bytes ((s.sent.drop s.read).take n))))])
        { s with read := s.read + n, got := s.got ++ (s.sent.drop s.read).take n } := by
  obtain ⟨hi, hg, hl⟩ := hk
  have hi' := storeRead_keeps hi hn
  refine ⟨fun e he => ?_, hi', ?_, fun e he => ?_⟩
  · cases e with
    | read => exact absurd rfl he
    | write => exact ⟨fun _ => hi', rfl, rfl, rfl, rfl, Nat.le_add_right _ _⟩
  · unfold returned at hg ⊢
    rw [flatMap_append, ← hg, flatMap_cons, flatMap_nil, append_nil]
  rcases mem_append.1 he with he | he
  · refine ⟨(hl e he).1, fun heof => ?_⟩
    obtain ⟨hshut, hall⟩ := (hl e he).2 heof
    refine ⟨hshut, ?_⟩
    show s.got ++ (s.sent.drop s.read).take n = s.sent
    rw [hi.read, hall, drop_length, take_nil, append_nil]
  · rw [mem_singleton] at he
    subst he
    simp

theorem wp_takeBytes {room r write : Nat} {shut : Bool} (hk : Known capacity .read log s)
    (hr : s.read = r) (hle : r ≤ write) (hw : write ≤ s.write)
    (heof : write = r → shut = true → s.writeClosed ≠ 0 ∧ s.write = r) : Kept capacity .read log
      (fun a => Known capacity .read (log ++ [(.read room, .read a)]))
      (takeBytes capacity room r write shut).run s := by
  have hi := known_inv hk
  have hroom := hi.room
  unfold takeBytes
  rw [ensure_true (decide_eq_true (by omega))]
  refine wp_ite (fun heq => ?_) fun _ => ?_
  · -- nothing between the cursors
    refine known_note hk ?_ ?_ ?_
    · cases shut <;> rfl
    · cases shut <;> simp
    intro ha
    cases shut with
    | false => simp at ha
    | true =>
      obtain ⟨hshut, hend⟩ := heof heq rfl
      refine ⟨hshut, hi.got.eq_of_length ?_⟩
      rw [← hi.read, ← hi.write, hend, hr]
  · have hn : r + min room (write - r) ≤ s.write := by omega
    have hadd : checkedAdd r (min room (write - r)) = some (r + min room (write - r)) :=
      if_pos (by have := hi.lt; omega)
    simp only [hadd]
    refine wp_copyOut hk hr (by omega) fun s1 h1 k1 => ?_
    refine wp_store k1 fun s2 h2 k2 => ?_
    have hread : s2.read = r := h2.2.1.trans (h1.2.1.trans hr)
    have hout : ((s1.sent.drop (r + 0)).take (min room (write - r))) =
        (s2.sent.drop r).take (min room (write - r)) := by
      obtain ⟨rest, hrest⟩ := h2.2.2.2.1
      have hgrow := h1.2.2.2.1.length_le
      have := hi.write
      rw [← hrest, Nat.add_zero, drop_append_of_le_length (by omega),
        take_append_of_le_length (by rw [length_drop]; omega)]
    rw [hout]
    subst hread
    exact storeRead_spec k2 (by
      have := (rely_trans h1 h2).2.2.2.1.length_le
      have := hi.write
      have := (known_inv k2).write
      omega)

/-- What `read` keeps, whatever the writer does meanwhile. -/
theorem read_spec (room : Nat) (hk : Known capacity .read log s) : Kept capacity .read log
      (fun a => Known capacity .read (log ++ [(.read room, .read a)]))
      (read capacity room).run s := by
  refine wp_check hk fun s1 _ k1 => ?_
  refine wp_load k1 fun s2 _ k2 => ?_
  by_cases hshut : s2.readClosed ≠ 0
  · rw [ensure_false (by simpa using hshut)]
    exact known_note k2 rfl (by simp) (by simp)
  rw [ensure_true (by simpa using hshut)]
  refine wp_ite (fun _ => known_note k2 rfl (by simp) (by simp)) fun _ => ?_
  refine wp_cursors k2 fun s3 s4 _ k3 h4 k4 => ?_
  obtain ⟨hle, -⟩ := cursors_agree (known_inv k3) h4
  refine wp_load k4 fun s5 h5 k5 => ?_
  have hgrow : s4.write ≤ s5.write := by
    rw [(known_inv k4).write, (known_inv k5).write]
    exact h5.2.2.2.1.length_le
  have hread : s5.read = s3.read := h5.2.1.trans h4.2.1
  refine wp_ite (fun hagain => ?_) fun hagain => ?_
  · -- the second load, after the writer was seen to have closed
    refine wp_load k5 fun s6 h6 k6 => ?_
    have hclosed := h6.2.2.2.2 (of_decide_eq_true hagain.2)
    have hsame : s6.write = s5.write := by
      rw [(known_inv k6).write, (known_inv k5).write, hclosed.2]
    exact wp_takeBytes k6 (h6.2.1.trans hread) (by omega) (Nat.le_refl _)
      fun heq _ => ⟨hclosed.1, heq⟩
  · exact wp_takeBytes k5 hread hle hgrow fun heq hshut => absurd ⟨heq, hshut⟩ hagain

/-! ## The writer -/

theorem known_wrote {c : Call} {a : Answer} (hk : Known capacity .write log s)
    (hbytes : accepted [(c, a)] = []) : Known capacity .write (log ++ [(c, a)]) s := by
  obtain ⟨hi, hsent, hc⟩ := hk
  refine ⟨hi, ?_, fun hne => ?_⟩
  · unfold accepted at hsent hbytes ⊢
    rw [flatMap_append, hbytes, append_nil]
    exact hsent
  · obtain ⟨e, he, hclose⟩ := hc hne
    exact ⟨e, mem_append_left _ he, hclose⟩

/-- The bytes copied so far, beyond the write cursor. -/
def Ahead (capacity : Nat) (s : Shared) (copied : List UInt8) : Prop :=
  ∀ j b, copied[j]? = some b → s.bytes ((s.write + j) % capacity) = b

theorem index_inj {j k : Nat} (hlt : j < k) (hk : k < j + capacity) :
    j % capacity ≠ k % capacity := by
  intro h
  have hd : capacity ∣ k - j := Nat.dvd_of_mod_eq_zero (Nat.sub_mod_eq_zero_of_mod_eq h.symm)
  exact Nat.not_lt_of_le (Nat.le_of_dvd (by omega) hd) (by omega)

/-- A byte stored beyond the write cursor is not one of those the reader may take. -/
theorem storeByte_keeps {i : Nat} {byte : UInt8} (hi : RingInv capacity s) (hle : s.write ≤ i)
    (hroom : i < s.read + capacity) :
    RingInv capacity { s with bytes := update s.bytes (i % capacity) byte } := by
  refine { hi with live := fun k h1 h2 => ?_ }
  have hne : k % capacity ≠ i % capacity :=
    index_inj (Nat.lt_of_lt_of_le h2 hle) (Nat.lt_of_lt_of_le hroom (Nat.add_le_add_right h1 _))
  show s.sent[k]? = some (update s.bytes _ byte (k % capacity))
  rw [update_of_ne hne]
  exact hi.live k h1 h2

theorem ahead_concat {copied : List UInt8} {byte : UInt8} (hahead : Ahead capacity s copied)
    (hroom : copied.length < capacity) :
    Ahead capacity
      { s with bytes := update s.bytes ((s.write + copied.length) % capacity) byte }
      (copied ++ [byte]) := by
  intro j b hb
  show update s.bytes _ byte ((s.write + j) % capacity) = b
  by_cases hj : j < copied.length
  · have hne : (s.write + j) % capacity ≠ (s.write + copied.length) % capacity :=
      index_inj (by omega) (by omega)
    rw [getElem?_append_left hj] at hb
    rw [update_of_ne hne]
    exact hahead j b hb
  have hlt := (List.getElem?_eq_some_iff.1 hb).1
  rw [length_append, length_singleton] at hlt
  have hj : j = copied.length := by omega
  subst hj
  rw [getElem?_concat_length] at hb
  cases hb
  exact update_self ..

theorem wp_copyIn {w : Nat} {copied input : List UInt8} {Q : Except Fail Unit → Shared → Prop}
    (hk : Known capacity .write log s) (hw : s.write = w) (hshut : s.writeClosed = 0)
    (hahead : Ahead capacity s copied)
    (hroom : w + copied.length + input.length ≤ s.read + capacity)
    (h : ∀ s', Known capacity .write log s' → s'.write = w → s'.writeClosed = 0 →
      Ahead capacity s' (copied ++ input) →
      w + copied.length + input.length ≤ s'.read + capacity → Q (.ok ()) s') :
    Kept capacity .write log Q (copyIn capacity w copied.length input).run s := by
  induction input generalizing s copied with
  | nil =>
    refine h s hk hw hshut ?_ hroom
    rwa [append_nil]
  | cons byte input ih =>
    rw [length_cons] at hroom
    refine wp_store hk fun s1 h1 k1 => ?_
    obtain ⟨hi, hsent, hclose⟩ := k1
    obtain ⟨-, hw1, -, hc1, hb1, hr1⟩ := h1
    have hle := hi.le
    have hahead1 : Ahead capacity s1 copied := by
      unfold Ahead
      rw [hb1, hw1]
      exact hahead
    rw [hw] at hw1
    subst hw1
    have hi' : RingInv capacity { s1 with
        bytes := update s1.bytes ((s1.write + copied.length) % capacity) byte } :=
      storeByte_keeps hi (Nat.le_add_right _ copied.length) (by omega)
    have hlen : (copied ++ [byte]).length = copied.length + 1 := by simp
    have hroom' : s1.write + (copied ++ [byte]).length + input.length ≤ s1.read + capacity := by
      omega
    refine ⟨fun e he => ?_, ?_⟩
    · cases e with
      | write => exact absurd rfl he
      | read => exact ⟨fun _ => hi', rfl, rfl, prefix_rfl, fun hne => ⟨hne, rfl⟩⟩
    have hrest := ih ⟨hi', hsent, hclose⟩ rfl (hc1.trans hshut)
      (ahead_concat hahead1 (by omega)) hroom' fun s' k' hw' hc' ha' hr' => by
        rw [append_assoc] at ha'
        exact h s' k' hw' hc' ha' (by rw [length_cons]; omega)
    rwa [hlen] at hrest

/-- The write cursor moves over the bytes that were copied. -/
theorem storeWrite_keeps {input : List UInt8} (hi : RingInv capacity s)
    (hahead : Ahead capacity s input) (hroom : s.write + input.length ≤ s.read + capacity)
    (hlt : s.write + input.length < usizeSize) :
    RingInv capacity { s with write := s.write + input.length, sent := s.sent ++ input } := by
  have hw := hi.write
  refine { hi with
    write := by rw [length_append, hw]
    le := Nat.le_trans hi.le (Nat.le_add_right _ _)
    room := hroom
    lt := hlt
    got := hi.got.trans (prefix_append _ _)
    live := fun k h1 h2 => ?_ }
  have h2 : k < s.write + input.length := h2
  show (s.sent ++ input)[k]? = _
  by_cases hk : k < s.write
  · rw [getElem?_append_left (hw ▸ hk)]
    exact hi.live k h1 hk
  obtain ⟨b, hget⟩ : ∃ b, input[k - s.write]? = some b :=
    ⟨_, getElem?_eq_getElem (by omega)⟩
  have hb := hahead (k - s.write) b hget
  rw [Nat.add_sub_cancel' (by omega)] at hb
  rw [getElem?_append_right (by omega), ← hw, hget, ← hb]

theorem storeWrite_spec {input : List UInt8} {n : Nat} (hk : Known capacity .write log s)
    (hshut : s.writeClosed = 0) (hn : n ≤ input.length) (hahead : Ahead capacity s (input.take n))
    (hroom : s.write + n ≤ s.read + capacity) (hlt : s.write + n < usizeSize) :
    Promise capacity .write s { s with write := s.write + n, sent := s.sent ++ input.take n } ∧
      Known capacity .write (log ++ [(.write input, .write (.ok (.bytes n)))])
        { s with write := s.write + n, sent := s.sent ++ input.take n } := by
  obtain ⟨hi, hsent, -⟩ := hk
  have hlen : (input.take n).length = n := by
    rw [length_take]
    omega
  have hi' := storeWrite_keeps hi hahead (hlen.symm ▸ hroom) (hlen.symm ▸ hlt)
  rw [hlen] at hi'
  refine ⟨fun e he => ?_, hi', ?_, fun hne => absurd hshut hne⟩
  · cases e with
    | write => exact absurd rfl he
    | read =>
      exact ⟨fun _ => hi', rfl, rfl, prefix_append _ _, fun hne => absurd hshut hne⟩
  · unfold accepted at hsent ⊢
    rw [flatMap_append, ← hsent, flatMap_cons, flatMap_nil, append_nil]

/-- What `write` keeps, whatever the reader does meanwhile. -/
theorem write_spec (input : List UInt8) (hk : Known capacity .write log s) :
    Kept capacity .write log (fun a => Known capacity .write (log ++ [(.write input, .write a)]))
      (write capacity input).run s := by
  refine wp_check hk fun s1 _ k1 => ?_
  refine wp_load k1 fun s2 h2 k2 => ?_
  by_cases hshut : s2.writeClosed ≠ 0
  · rw [ensure_false (by simpa using hshut)]
    exact known_wrote k2 rfl
  rw [ensure_true (by simpa using hshut)]
  have hshut : s2.writeClosed = 0 := not_not.1 hshut
  refine wp_load k2 fun s3 h3 k3 => ?_
  by_cases hbroken : s3.readClosed ≠ 0
  · rw [ensure_false (by simpa using hbroken)]
    exact known_wrote k3 rfl
  rw [ensure_true (by simpa using hbroken)]
  refine wp_ite (fun _ => known_wrote k3 rfl) fun _ => ?_
  refine wp_cursors k3 fun s4 s5 h4 k4 h5 k5 => ?_
  obtain ⟨hle, hroom⟩ := cursors_agree (known_inv k4) h5
  have hclosed : s5.writeClosed = 0 :=
    (rely_trans h3 (rely_trans h4 h5)).2.2.2.1.trans hshut
  have hread : s4.read ≤ s5.read := h5.2.2.2.2.2
  by_cases hfull : min input.length (capacity - (s5.write - s4.read)) = 0
  · simp only [hfull, if_true]
    exact known_wrote k5 rfl
  simp only [hfull, if_false]
  cases hadd : checkedAdd s5.write (min input.length (capacity - (s5.write - s4.read))) with
  | none => exact known_wrote k5 rfl
  | some next =>
    obtain ⟨rfl, hlt⟩ := checkedAdd_eq_some.1 hadd
    generalize hn : min input.length (capacity - (s5.write - s4.read)) = n at hlt ⊢
    have hlen : (input.take n).length = n := by
      rw [length_take]
      omega
    have hnone : Ahead capacity s5 [] := by simp [Ahead]
    show wp _ _ _ _ (copyIn capacity s5.write 0 (input.take n) >>= _ : Io Write).run s5
    refine wp_try (wp_copyIn k5 rfl hclosed hnone (by rw [hlen, length_nil]; omega)
      fun s6 k6 hw6 hc6 ha6 hr6 => ?_)
    refine wp_store k6 fun s7 h7 k7 => ?_
    obtain ⟨-, hw7, -, hc7, hb7, hr7⟩ := h7
    have hw : s7.write = s5.write := hw7.trans hw6
    rw [← hw] at hlt hr6 ⊢
    refine storeWrite_spec k7 (hc7.trans hc6) (by omega) ?_ (by omega) hlt
    unfold Ahead at ha6 ⊢
    rw [hb7, hw7]
    exact ha6

/-! ## Closing -/

theorem closeRead_spec (hk : Known capacity .read log s) : Kept capacity .read log
      (fun a => Known capacity .read (log ++ [(.closeRead, a)])) (body capacity .closeRead) s := by
  refine ⟨hk, fun s' hs => ⟨fun e he => ?_, ?_⟩⟩
  · cases e with
    | read => exact absurd rfl he
    | write =>
      exact ⟨fun hi => { hi with }, rfl, rfl, rfl, rfl, Nat.le_refl _⟩
  obtain ⟨hi, hg, hl⟩ := known_stable hk hs
  exact known_note ⟨{ hi with }, hg, hl⟩ rfl (by simp) (by simp)

theorem closeWrite_spec (hk : Known capacity .write log s) : Kept capacity .write log
      (fun a => Known capacity .write (log ++ [(.closeWrite, a)]))
      (body capacity .closeWrite) s := by
  refine ⟨hk, fun s' hs => ⟨fun e he => ?_, ?_⟩⟩
  · cases e with
    | write => exact absurd rfl he
    | read =>
      exact ⟨fun hi => { hi with }, rfl, rfl, prefix_rfl, fun _ => ⟨Nat.one_ne_zero, rfl⟩⟩
  obtain ⟨hi, hsent, hc⟩ := known_stable hk hs
  refine ⟨{ hi with }, ?_, fun _ => ?_⟩
  · show s'.sent = accepted (log ++ [(.closeWrite, .closed)])
    unfold accepted at hsent ⊢
    rw [flatMap_append, ← hsent]
    exact (append_nil _).symm
  · exact ⟨_, mem_append_right _ (mem_singleton.2 rfl), rfl⟩

end

/-! ## Every run -/

theorem stream_rules (capacity : Nat) :
    Rules (body capacity) May (Rely capacity) (Known capacity) where
  refl := rely_refl capacity
  trans _ := rely_trans
  stable _ _ := known_stable
  call := by
    intro w d c hmay hk
    have hd := hk d
    cases d with
    | read =>
      cases c with
      | read room => exact wp_bind (read_spec room hd)
      | closeRead => exact closeRead_spec hd
      | write input => exact hmay.elim
      | closeWrite => exact hmay.elim
    | write =>
      cases c with
      | read room => exact hmay.elim
      | closeRead => exact hmay.elim
      | write input => exact wp_bind (write_spec input hd)
      | closeWrite => exact closeWrite_spec hd

theorem new_known {capacity : Nat} {bytes : Nat → UInt8} {s : Shared}
    (h : Shared.new capacity bytes = .ok s) (d : Direction) : Known capacity d [] s := by
  unfold Shared.new at h
  split at h
  · cases h
  cases h
  have hi : RingInv capacity
      { magic := MAGIC, version := VERSION, capacity, read := 0, write := 0, readClosed := 0,
        writeClosed := 0, bytes } :=
    ⟨rfl, rfl, rfl, rfl, rfl, Nat.le_refl _, Nat.zero_le _, Nat.two_pow_pos 64, prefix_rfl,
      fun k _ hk => absurd hk (Nat.not_lt_zero k)⟩
  cases d with
  | read => exact ⟨hi, rfl, by simp⟩
  | write => exact ⟨hi, rfl, fun hne => absurd rfl hne⟩

/-- In every interleaving of one reader and one writer of a new ring: what was read is a first part
of what was accepted, and not more than the capacity behind it; no read answers `Corrupt`; and a
read answers the end only if the writer closed and everything accepted was read. -/
theorem stream_lossless {capacity : Nat} {bytes : Nat → UInt8} {s : Shared}
    (hnew : Shared.new capacity bytes = .ok s) {w : World}
    (h : Threads.World.Runs (body capacity) May s w) :
    returned (w.log .read) <+: accepted (w.log .write) ∧
    (accepted (w.log .write)).length - (returned (w.log .read)).length ≤ capacity ∧
    (∀ e ∈ w.log .read, e.2 ≠ .read (.error .corrupt)) ∧
    ∀ e ∈ w.log .read, e.2 = .read (.ok .eof) →
      (∃ e ∈ w.log .write, e.1 = .closeWrite) ∧
        returned (w.log .read) = accepted (w.log .write) := by
  have hinv := (stream_rules capacity).runs_inv (new_known hnew) h
  obtain ⟨hi, hgot, hanswers⟩ := hinv .read
  obtain ⟨-, hsent, hclosed⟩ := hinv .write
  rw [← hgot, ← hsent]
  refine ⟨hi.got, ?_, fun e he => (hanswers e he).1, fun e he heof => ?_⟩
  · have := hi.room
    rw [← hi.read, ← hi.write]
    omega
  · obtain ⟨hshut, hall⟩ := (hanswers e he).2 heof
    exact ⟨hclosed hshut, hall⟩

/-- The writer offers three bytes to a ring of two and closes; the reader starts while it copies,
and reads to the end. -/
def toTheEnd : List (Event Direction Call Empty) :=
  [.call .write (.write [1, 2, 3])] ++ List.replicate 11 (.act .write) ++ [.call .read (.read 5)] ++
  List.replicate 4 (.act .read) ++ List.replicate 2 (.act .write) ++ [.call .write .closeWrite] ++
  List.replicate 4 (.act .read) ++ [.act .write] ++ List.replicate 5 (.act .read) ++
  [.call .read (.read 5)] ++ List.replicate 11 (.act .read)

def ringOfTwo : Shared :=
  { magic := MAGIC, version := VERSION, capacity := 2, read := 0, write := 0, readClosed := 0,
    writeClosed := 0, bytes := fun _ => 0 }

def atTheEnd : Option World :=
  toTheEnd.foldlM (Threads.World.step (body 2)) { shared := ringOfTwo }

/-- Two bytes are accepted and read, and the next read answers the end. -/
theorem stream_lossless_to_the_end :
    ∃ w, atTheEnd = some w ∧ Threads.World.Runs (body 2) May ringOfTwo w ∧
      (w.log .read).map Prod.snd = [.read (.ok (.bytes [1, 2])), .read (.ok .eof)] ∧
      returned (w.log .read) = accepted (w.log .write) := by
  obtain ⟨w, hw⟩ : ∃ w, atTheEnd = some w := Option.isSome_iff_exists.1 (by decide +kernel)
  have hmay : ∀ w : World, ∀ e ∈ toTheEnd, May w e := by
    simp [toTheEnd, May]
  have hnew : Shared.new 2 (fun _ => 0) = .ok ringOfTwo := rfl
  have hrun := Threads.World.runs_foldlM hmay .start hw
  have hread : (w.log .read).map Prod.snd = [.read (.ok (.bytes [1, 2])), .read (.ok .eof)] := by
    have : atTheEnd.map (fun w => (w.log .read).map Prod.snd) =
        some [.read (.ok (.bytes [1, 2])), .read (.ok .eof)] := by decide +kernel
    rw [hw] at this
    exact Option.some.inj this
  obtain ⟨e, he, heof⟩ : ∃ e ∈ w.log .read, e.2 = .read (.ok .eof) := by
    have : Answer.read (.ok .eof) ∈ (w.log .read).map Prod.snd := by simp [hread]
    exact mem_map.1 this
  exact ⟨w, hw, hrun, hread, ((stream_lossless hnew hrun).2.2.2 e he heof).2⟩

end Sqware.Stream
