import Nachos.Lib.Runs
import Nachos.Machine.Machine
import Nachos.Threads.Semaphore

/-!
# Threads — SynchConsole

`class SynchConsole` (threads/synchcons.cc) over `class Console` (machine/console.cc): any number of
threads call `Write` and `Read`, and the device interrupts them to say that a character has
departed (`WriteDone`) or to look for one that has arrived (`CheckCharAvail`).

A thread gives up the CPU, and an interrupt comes in, only in a `P` or a `V`; the places of `PC` are
these.  `char` is signed on the host, so the byte `0xFF` is the `EOF` that marks an empty
`incoming`.
-/

namespace Nachos.SynchConsole
open Lib

/-- The semaphores of `SynchConsole`. -/
inductive Sem where
  | synchReadAvail | synchWriteAvail | RLineBlock | WLineBlock
  deriving DecidableEq, Repr

/-- `EOF`, as a `char`. -/
def EOF : Byte := 0xFF

/-- `'\012'` and `'\001'`, the characters that end a line. -/
def isEoln (ch : Byte) : Bool := ch == 0x0A || ch == 0x01

/-- Where a thread is, with its local variables. -/
inductive PC where
  /-- Outside `Write` and `Read`. -/
  | idle
  /-- In `WLineBlock->P()`. -/
  | writeLine (src : List Byte) (numBytes : Int)
  /-- At the head of the loop of `Write`. -/
  | writeNext (src : List Byte) (numBytes : Int) (loop : Nat)
  /-- In `synchWriteAvail->P()`, behind `PutChar`. -/
  | writeChar (src : List Byte) (numBytes : Int) (loop : Nat)
  /-- Behind `WLineBlock->V()`. -/
  | writeDone (numBytes : Int)
  /-- In `RLineBlock->P()`.  `ch` is not initialised. -/
  | readLine (numBytes : Int) (ch : Byte)
  /-- At the head of the loop of `Read`, with the characters stored so far. -/
  | readNext (numBytes : Int) (dst : List Byte) (ch : Byte)
  /-- In `synchReadAvail->P()`. -/
  | readChar (numBytes : Int) (dst : List Byte)
  /-- Behind it, before `GetChar`. -/
  | readGet (numBytes : Int) (dst : List Byte)
  /-- Behind `RLineBlock->V()`. -/
  | readDone (r : Int)
  deriving DecidableEq, Repr

namespace PC

/-- The semaphore in whose `P` a thread is. -/
def sem : PC → Option Sem
  | writeLine _ _ => some .WLineBlock
  | writeChar _ _ _ => some .synchWriteAvail
  | readLine _ _ => some .RLineBlock
  | readChar _ _ => some .synchReadAvail
  | _ => none

/-- Where a `P` that passes leads. -/
def afterP : PC → PC
  | writeLine src numBytes => writeNext src numBytes 0
  | writeChar src numBytes loop => writeNext src numBytes (loop + 1)
  | readLine numBytes ch => readNext numBytes [] ch
  | readChar numBytes dst => readGet numBytes dst
  | pc => pc

end PC

/-- A `Read` that has given up `RLineBlock`: its thread, what it was asked for, what it has put into
the buffer, and what it returns. -/
structure Line where
  thread : Tid
  numBytes : Int
  dst : List Byte
  ret : Int
  deriving DecidableEq, Repr

/-- The console, its threads and the host.  `sent` is what the display has received, `stream` what
the keyboard still has to deliver, `pending` the number of `WriteDone` interrupts scheduled.
`writes`, `reads` and `lines` are history: the buffers of the writers, and the readers with what
they ask for, in the order in which they obtained their lock; and the `Read`s that are over. -/
structure State where
  sync : Sync Sem
  pc : Tid → PC
  putBusy : Bool
  pending : Nat
  sent : List Byte
  incoming : Byte
  stream : List Byte
  writes : List (List Byte)
  reads : List (Tid × Int)
  lines : List Line

/-- The bytes a `Write` is asked to send. -/
def buffer (src : List Byte) (numBytes : Int) : List Byte := src.take numBytes.toNat

namespace State

def goto (s : State) (t : Tid) (pc : PC) : State := { s with pc := Function.update s.pc t pc }

/-- The order of the locks is recorded. -/
def grant (s : State) (t : Tid) : PC → State
  | .writeLine src numBytes => { s with writes := s.writes ++ [buffer src numBytes] }
  | .readLine numBytes _ => { s with reads := s.reads ++ [(t, numBytes)] }
  | _ => s

/-- One test of the `P` the thread `t` is in. -/
def P (s : State) (t : Tid) : State :=
  match (s.pc t).sem with
  | none => s
  | some r =>
      match s.sync.P t r with
      | (sync, true) => ({ s with sync := sync }.grant t (s.pc t)).goto t (s.pc t).afterP
      | (sync, false) => { s with sync := sync }

def V (s : State) (r : Sem) : State := { s with sync := s.sync.V r }

/-- `Console::PutChar`. -/
def putChar (s : State) (ch : Byte) : Except Stop State :=
  if s.putBusy then .error .assertFails
  else .ok { s with sent := s.sent ++ [ch], putBusy := true, pending := s.pending + 1 }

/-- `Console::WriteDone`. -/
def writeDone (s : State) : State := { s with putBusy := false }.V .synchWriteAvail

/-- `Console::CheckCharAvail`, where `PollFile` answers `avail`.  At the end of the input `Read`
finds nothing to read, and its `ASSERT` fails. -/
def checkCharAvail (s : State) (avail : Bool) : Except Stop State :=
  if s.incoming ≠ EOF ∨ avail = false then .ok s
  else
    match s.stream with
    | [] => .error .assertFails
    | c :: stream => .ok ({ s with incoming := c, stream := stream }.V .synchReadAvail)

/-- `Console::GetChar`. -/
def getChar (s : State) : Byte × State := (s.incoming, { s with incoming := EOF })

/-- The loop of `Write`, from its head to the next `P` or `V`. -/
def writeNext (s : State) (t : Tid) (src : List Byte) (numBytes : Int) (loop : Nat) :
    Except Stop State :=
  if loop < numBytes then
    match src[loop]? with
    | none => .error .outOfBounds
    | some ch =>
        match s.putChar ch with
        | .error e => .error e
        | .ok s => .ok ((s.goto t (.writeChar src numBytes loop)).P t)
  else .ok ((s.V .WLineBlock).goto t (.writeDone numBytes))

/-- The end of `Read`: `RLineBlock->V()` and the value to return. -/
def readEnd (s : State) (t : Tid) (numBytes : Int) (dst : List Byte) (ch : Byte) : State :=
  let r : Int := if ch = 0x01 ∧ dst.length = 0 then -1 else dst.length
  let line : Line := ⟨t, numBytes, dst, r⟩
  ({ s with lines := s.lines ++ [line] }.V .RLineBlock).goto t (.readDone r)

/-- The loop of `Read`, from its head to the next `P` or `V`. -/
def readNext (s : State) (t : Tid) (numBytes : Int) (dst : List Byte) (ch : Byte) : State :=
  if (dst.length : Int) < numBytes then (s.goto t (.readChar numBytes dst)).P t
  else s.readEnd t numBytes dst ch

/-- The loop of `Read` behind `synchReadAvail->P()`. -/
def readGet (s : State) (t : Tid) (numBytes : Int) (dst : List Byte) : State :=
  let (ch, s) := s.getChar
  if ch = EOF then (s.goto t (.readChar numBytes dst)).P t
  else if isEoln ch then s.readEnd t numBytes dst ch
  else s.readNext t numBytes (dst ++ [ch]) ch

/-- A ready thread goes on from where it is. -/
def resume (s : State) (t : Tid) : Except Stop State :=
  match s.pc t with
  | .writeLine _ _ | .writeChar _ _ _ | .readLine _ _ | .readChar _ _ => .ok (s.P t)
  | .writeNext src numBytes loop => s.writeNext t src numBytes loop
  | .readNext numBytes dst ch => .ok (s.readNext t numBytes dst ch)
  | .readGet numBytes dst => .ok (s.readGet t numBytes dst)
  | .writeDone _ | .readDone _ => .ok (s.goto t .idle)
  | .idle => .error .disabled

end State

inductive Action where
  /-- `Write(from, numBytes)`, where `src` is the memory from `from` on. -/
  | write (t : Tid) (src : List Byte) (numBytes : Int)
  /-- `Read(into, numBytes)`, where the stack holds `ch`. -/
  | read (t : Tid) (numBytes : Int) (ch : Byte)
  | resume (t : Tid)
  /-- The interrupts. -/
  | writeDone
  | checkCharAvail (avail : Bool)
  deriving DecidableEq, Repr

def step (s : State) : Action → Except Stop State
  | .write t src numBytes =>
      if s.sync.status t = .ready ∧ s.pc t = .idle then
        .ok ((s.goto t (.writeLine src numBytes)).P t)
      else .error .disabled
  | .read t numBytes ch =>
      if s.sync.status t = .ready ∧ s.pc t = .idle then
        .ok ((s.goto t (.readLine numBytes ch)).P t)
      else .error .disabled
  | .resume t => if s.sync.status t = .ready then s.resume t else .error .disabled
  | .writeDone =>
      if 0 < s.pending then .ok { s with pending := s.pending - 1 }.writeDone
      else .error .disabled
  | .checkCharAvail avail => s.checkCharAvail avail

/-- A new console, in front of the input `stream`. -/
def init (stream : List Byte) : State where
  sync := ⟨fun r => match r with
    | .synchReadAvail | .synchWriteAvail => Semaphore.new 0
    | .RLineBlock | .WLineBlock => Semaphore.new 1, fun _ => .ready⟩
  pc _ := .idle
  putBusy := false
  pending := 0
  sent := []
  incoming := EOF
  stream := stream
  writes := []
  reads := []
  lines := []

/-! ### What a `P` and a `V` do -/

/-- The value of a semaphore. -/
def State.value (s : State) (r : Sem) : Int := (s.sync.sems r).value

section
variable {s : State} {t u : Tid} {r : Sem}

/-- A `P` tests a semaphore of value 0 and changes no value, or takes it down by one and leads on.
-/
theorem P_cases (h : (s.pc t).sem = some r) :
    (s.value r = 0 ∧ ∃ y : Sync Sem, (∀ r', (y.sems r').value = s.value r') ∧
      s.P t = { s with sync := y }) ∨
    (s.value r ≠ 0 ∧ ∃ y : Sync Sem, (y.sems r).value = s.value r - 1 ∧
      (∀ r', r' ≠ r → (y.sems r').value = s.value r') ∧
      s.P t = ({ s with sync := y }.grant t (s.pc t)).goto t (s.pc t).afterP) := by
  by_cases hv : s.value r = 0
  · refine .inl ⟨hv, (s.sync.P t r).1, fun r' => ?_, by simp [State.P, h, Sync.P_zero hv]⟩
    by_cases e : r' = r
    · rw [e, Sync.P_value_zero hv, hv]
    · rw [Sync.P_sems_ne _ _ e]; rfl
  · refine .inr ⟨hv, (s.sync.P t r).1, Sync.P_value_pos hv t, fun r' e => ?_, ?_⟩
    · rw [Sync.P_sems_ne _ _ e]; rfl
    · simp [State.P, h, Sync.P_pos hv]

theorem V_value_self (s : State) (r : Sem) : (s.V r).value r = s.value r + 1 := Sync.V_value _ _

theorem V_value_ne {k : Sem} (h : k ≠ r) : (s.V r).value k = s.value k :=
  congrArg Semaphore.value (Sync.V_sems_ne _ h)

theorem goto_pc_self (s : State) (t : Tid) (q : PC) : (s.goto t q).pc t = q := by
  simp [State.goto]

theorem goto_pc_ne (s : State) (q : PC) (h : u ≠ t) : (s.goto t q).pc u = s.pc u := by
  simp [State.goto, Function.update_of_ne h]

end

end Nachos.SynchConsole
