import Sqware.Lib.Threads
import Sqware.Machine.Word

/-!
# The byte stream

A ring of bytes between one reader and one writer, with a header of counters beside it.  Both sides
load the cursors, copy, and store their own cursor last.  Each `load` and `store` here is one access
to the shared memory.
-/

namespace Sqware.Stream

open Threads

def MAX_CAPACITY : Nat := 1024 * 1024

def MAGIC : Nat := 0x7371776172657069

def VERSION : Nat := 1

inductive Direction
  | read | write
  deriving DecidableEq, Repr

inductive Fail
  | invalid | corrupt | closed | brokenPipe
  deriving DecidableEq, Repr

/-- What `read` answers, with the bytes it put into the buffer. -/
inductive Read
  | bytes (out : List UInt8) | eof | pending
  deriving DecidableEq, Repr

inductive Write
  | bytes (n : Nat) | pending
  deriving DecidableEq, Repr

/-- The header and the bytes.  `sent` and `got` are the history of the two cursors: no access
depends on them. -/
structure Shared where
  magic : Nat
  version : Nat
  capacity : Nat
  read : Nat
  write : Nat
  readClosed : Nat
  writeClosed : Nat
  bytes : Nat → UInt8
  sent : List UInt8 := []
  got : List UInt8 := []

/-- `Header::new`, over memory with any bytes in it. -/
def Shared.new (capacity : Nat) (bytes : Nat → UInt8) : Except Fail Shared :=
  if capacity = 0 ∨ MAX_CAPACITY < capacity then .error .invalid
  else
    .ok { magic := MAGIC, version := VERSION, capacity, read := 0, write := 0, readClosed := 0,
          writeClosed := 0, bytes }

/-! ## Accesses -/

abbrev Io (α : Type) : Type := ExceptT Fail (Prog Shared Empty) α

def load {α : Type} (f : Shared → α) : Io α := ExceptT.lift (.get f)

def store (f : Shared → Shared) : Io Unit := ExceptT.lift (.set f)

def ensure (ok : Bool) (fail : Fail) : Io Unit := if ok then pure () else throw fail

def ofOption {α : Type} (fail : Fail) : Option α → Io α
  | some a => pure a
  | none => throw fail

def closed : Direction → Io Bool
  | .read => load fun s => s.readClosed ≠ 0
  | .write => load fun s => s.writeClosed ≠ 0

def close : Direction → Io Unit
  | .read => store fun s => { s with readClosed := 1 }
  | .write => store fun s => { s with writeClosed := 1 }

section

variable (capacity : Nat)

def check : Io Unit := do
  let magic ← load (·.magic)
  ensure (magic = MAGIC) .corrupt
  let version ← load (·.version)
  ensure (version = VERSION) .corrupt
  let there ← load (·.capacity)
  ensure (there = capacity) .corrupt

def cursors : Io (Nat × Nat) := do
  check capacity
  let read ← load (·.read)
  let write ← load (·.write)
  ensure (read ≤ write ∧ write - read ≤ capacity) .corrupt
  return (read, write)

def copyOut (read : Nat) : Nat → Nat → Io (List UInt8)
  | _, 0 => return []
  | i, n + 1 => do
    let byte ← load fun s => s.bytes ((read + i) % capacity)
    let rest ← copyOut read (i + 1) n
    return byte :: rest

def copyIn (write : Nat) : Nat → List UInt8 → Io Unit
  | _, [] => return ()
  | i, byte :: rest => do
    store fun s => { s with bytes := Function.update s.bytes ((write + i) % capacity) byte }
    copyIn write (i + 1) rest

/-- Stores the read cursor; the bytes up to it have been handed out. -/
def storeRead (next : Nat) (out : List UInt8) : Io Unit :=
  store fun s => { s with read := next, got := s.got ++ out }

/-- Stores the write cursor; the bytes up to it have been accepted. -/
def storeWrite (next : Nat) (input : List UInt8) : Io Unit :=
  store fun s => { s with write := next, sent := s.sent ++ input }

/-- The end of `read`, from the cursors it loaded and whether the writer was seen to have closed. -/
def takeBytes (room read write : Nat) (shut : Bool) : Io Read := do
  ensure (read ≤ write ∧ write - read ≤ capacity) .corrupt
  if write = read then return if shut then .eof else .pending
  else do
    let n := min room (write - read)
    let next ← ofOption .corrupt (checkedAdd read n)
    let out ← copyOut capacity read 0 n
    storeRead next out
    return .bytes out

/-- `room` is the length of the buffer. -/
def read (room : Nat) : Io Read := do
  check capacity
  let shut ← closed .read
  ensure (!shut) .closed
  if room = 0 then return .bytes []
  else do
    let (read, write) ← cursors capacity
    let shut ← closed .write
    if write = read ∧ shut then do
      let write ← load (·.write)
      takeBytes capacity room read write shut
    else takeBytes capacity room read write shut

def write (input : List UInt8) : Io Write := do
  check capacity
  let shut ← closed .write
  ensure (!shut) .closed
  let shut ← closed .read
  ensure (!shut) .brokenPipe
  if input = [] then return .bytes 0
  else do
    let (read, write) ← cursors capacity
    let n := min input.length (capacity - (write - read))
    if n = 0 then return .pending
    else do
      let next ← ofOption .corrupt (checkedAdd write n)
      copyIn capacity write 0 (input.take n)
      storeWrite next (input.take n)
      return .bytes n

end

/-! ## Calls -/

inductive Call
  | read (room : Nat)
  | closeRead
  | write (input : List UInt8)
  | closeWrite
  deriving DecidableEq, Repr

inductive Answer
  | read (result : Except Fail Read)
  | write (result : Except Fail Write)
  | closed
  deriving DecidableEq

def body (capacity : Nat) : Call → Prog Shared Empty Answer
  | .read room => (read capacity room).run >>= fun result => pure (.read result)
  | .closeRead => (close .read).run >>= fun _ => pure .closed
  | .write input => (write capacity input).run >>= fun result => pure (.write result)
  | .closeWrite => (close .write).run >>= fun _ => pure .closed

abbrev World : Type := Threads.World Direction Call Shared Empty Answer

/-- Each side makes its own calls. -/
def May (_ : World) : Event Direction Call Empty → Prop
  | .call .read (.read _) => True
  | .call .read .closeRead => True
  | .call .write (.write _) => True
  | .call .write .closeWrite => True
  | .call _ _ => False
  | _ => True

/-- The bytes that `read` returned, in order. -/
def returned (log : List (Call × Answer)) : List UInt8 :=
  log.flatMap fun
    | (_, .read (.ok (.bytes out))) => out
    | _ => []

/-- The bytes that `write` accepted, in order. -/
def accepted (log : List (Call × Answer)) : List UInt8 :=
  log.flatMap fun
    | (.write input, .write (.ok (.bytes n))) => input.take n
    | _ => []

end Sqware.Stream
