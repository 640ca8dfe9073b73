import Sqware.Stream.Ring

/-!
# The byte stream against a hostile peer

The header lies in memory that the other task can write at any time.  Here every addition,
subtraction and index of a call is one that can panic, and before each access the peer may put
anything into the header and the bytes.
-/

namespace Sqware.Stream

open Threads Function

/-- What `attach` returns: `len` is the length of the slice of bytes. -/
structure Ring where
  len : Nat
  capacity : Nat
  pos : 0 < capacity
  small : capacity ≤ MAX_CAPACITY
  fits : capacity ≤ len

def attach (len capacity : Nat) : Io Ring :=
  if h : capacity = 0 ∨ MAX_CAPACITY < capacity ∨ len < capacity then throw .invalid
  else do
    check capacity
    return ⟨len, capacity, by omega, by omega, by omega⟩

/-! ## Calls that can panic -/

/-- The error `none` is a panic. -/
abbrev Strict (α : Type) : Type := ExceptT (Option Fail) (Prog Shared Empty) α

instance : MonadLift Io Strict := ⟨ExceptT.adapt some⟩

/-- An operation that panics where it has no result. -/
def strict {α : Type} : Option α → Strict α
  | some a => pure a
  | none => throw none

namespace Ring

variable (ring : Ring)

/-- The place of a byte: the sum must not overflow, and the index must be below the capacity. -/
def place (base i : Nat) : Strict Nat := do
  let sum ← strict (checkedAdd base i)
  strict (if sum % ring.capacity < ring.capacity then some (sum % ring.capacity) else none)

/-- `write < read || write - read > self.capacity` is refused. -/
def span (read write : Nat) : Strict Unit := do
  ensure (read ≤ write) .corrupt
  let used ← strict (checkedSub write read)
  ensure (used ≤ ring.capacity) .corrupt

def cursors : Strict (Nat × Nat) := do
  check ring.capacity
  let read ← load (·.read)
  let write ← load (·.write)
  ring.span read write
  return (read, write)

def copyOut (read : Nat) : Nat → Nat → Strict (List UInt8)
  | _, 0 => return []
  | i, n + 1 => do
    let place ← ring.place read i
    let byte ← load fun s => s.bytes place
    let rest ← copyOut read (i + 1) n
    return byte :: rest

def copyIn (write : Nat) : Nat → List UInt8 → Strict Unit
  | _, [] => return ()
  | i, byte :: rest => do
    let place ← ring.place write i
    store fun s => { s with bytes := update s.bytes place byte }
    copyIn write (i + 1) rest

def takeBytes (room read write : Nat) (shut : Bool) : Strict Read := do
  ring.span read write
  if write = read then return if shut then .eof else .pending
  else do
    let used ← strict (checkedSub write read)
    let next ← ofOption .corrupt (checkedAdd read (min room used))
    let out ← ring.copyOut read 0 (min room used)
    storeRead next out
    return .bytes out

def read (room : Nat) : Strict Read := do
  check ring.capacity
  let shut ← closed .read
  ensure (!shut) .closed
  if room = 0 then return .bytes []
  else do
    let (read, write) ← ring.cursors
    let shut ← closed .write
    if write = read ∧ shut then do
      let write ← load (·.write)
      ring.takeBytes room read write shut
    else ring.takeBytes room read write shut

def write (input : List UInt8) : Strict Write := do
  check ring.capacity
  let shut ← closed .write
  ensure (!shut) .closed
  let shut ← closed .read
  ensure (!shut) .brokenPipe
  if input = [] then return .bytes 0
  else do
    let (read, write) ← ring.cursors
    let used ← strict (checkedSub write read)
    let free ← strict (checkedSub ring.capacity used)
    let n := min input.length free
    if n = 0 then return .pending
    else do
      let next ← ofOption .corrupt (checkedAdd write n)
      ring.copyIn write 0 (input.take n)
      storeWrite next (input.take n)
      return .bytes n

def ready (direction : Direction) : Strict Bool := do
  let (read, write) ← ring.cursors
  match direction with
  | .read =>
    if write ≠ read then return true
    else if ← closed .write then return true
    else closed .read
  | .write => do
    let used ← strict (checkedSub write read)
    if used < ring.capacity then return true
    else if ← closed .read then return true
    else closed .write

end Ring

/-! ## Whatever the peer does -/

section

variable {G : Shared → Shared → Prop} {α β : Type} {P : α → Prop} {Q : β → Prop}

/-- Whatever the peer does before each access, the accesses do what `G` allows, and the call ends
with an error that it reports or with a result in `P`. -/
def Holds (G : Shared → Shared → Prop) (P : α → Prop) (x : Strict α) : Prop :=
  ∀ s, wp (fun _ _ => True) G (fun _ => True) (fun r _ => match r with
    | .ok a => P a
    | .error e => e ≠ none) x.run s

theorem Holds.pure {a : α} (h : P a) : Holds G P (pure a) := fun _ => h

theorem Holds.bind {x : Strict α} {c : α → Strict β} (hx : Holds G P x)
    (hc : ∀ a, P a → Holds G Q (c a)) : Holds G Q (x >>= c) := by
  refine fun s => wp_try (wp_mono ?_ (hx s))
  rintro (e | a) s h
  · exact h
  · exact hc a h s

theorem Holds.mono {P' : α → Prop} {x : Strict α} (hx : Holds G P x) (h : ∀ a, P a → P' a) :
    Holds G P' x := by
  refine fun s => wp_mono ?_ (hx s)
  rintro (e | a) _ ha
  · exact ha
  · exact h a ha

/-- How a call goes on matters for the results it can have only. -/
theorem Holds.congr {x : Strict α} {c c' : α → Strict β} (hx : Holds (fun _ _ => True) P x)
    (h : ∀ a, P a → c a = c' a) : x >>= c = x >>= c' := by
  replace hx := hx ⟨0, 0, 0, 0, 0, 0, 0, fun _ => 0, [], []⟩
  generalize Shared.mk 0 0 0 0 0 0 0 _ [] [] = s at hx
  induction x generalizing s with
  | ret r =>
    cases r with
    | error => rfl
    | ok a => exact h a hx
  | act f k ih => exact congrArg (Prog.act f) (funext fun s => ih s _ (hx.2 s trivial).2)
  | ask k => exact congrArg Prog.ask (funext nofun)

variable (hG : ∀ s, G s s)
include hG

end

/-! ## The calls are those of the plain model

An attached ring has a capacity, differences are taken of cursors that were compared, and sums of
those that `checked_add` let through.  So no operation panics, and each call is the call of `Ring`.
-/

namespace Ring

variable (ring : Ring)

end Ring

/-! ## What a call may do -/

section

variable (ring : Ring)

end

end Sqware.Stream
