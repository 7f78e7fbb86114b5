import Nachos.Lib.Copy
import Nachos.Test.Taps

/-!
# Test — main, with sinhvien and voinuoc

The program of test/main.c, which for each line of its input starts `sinhvien` and `voinuoc` on it,
joins both and appends what they have made of it to its output; and the whole system of the three
programs, one system call after the other in any order.

What the kernel does that they depend on is as it is there: the table of open files has ten slots, two
of them of the console, for all the programs together, and gives none back when a program exits; and
`Join` delivers the exit status of a program that is still running when it is called, and -1 for one
that has exited before.  `CreateFile`, `CreateSemaphore`, `Open` and `Exec` may be refused at any time.
The `Read` or `Write` of an open file is served, and so are `Wait`, `Signal` and `Close`: the programs
do not look at what a refused one answers.
-/

namespace Nachos.Taps
open Lib
open Syscall (isDigit digit writeFile)

/-- Where `main` is. -/
inductive MainPC where
  | createOut
  | createSem
  | openIn
  | openOut
  /-- The `Read` of the first loop of `read_unsigned_integer`. -/
  | skip
  /-- The `Read` of its second loop. -/
  | digits
  | createSv
  | openSv
  | createVn
  /-- The `Read` of the loop that copies a line. -/
  | read
  | write (c : Byte)
  | closeSv
  | execSv
  | execVo
  /-- At the call of `Join(job_sv)`, and in it. -/
  | joinSv
  | waitSv
  | joinVo
  | waitVo
  | openTmp
  /-- The `Read` of the loop that copies `tmp.txt`. -/
  | readTmp
  | writeTmp (c : Byte)
  | closeTmp
  | closeIn
  | closeOut
  | exit
  | finished
  /-- A message has been printed, and `Exit(-1)` called. -/
  | failed
  deriving DecidableEq, Repr

/-- `sinhvien` opens a file, or closes one. -/
def SvPC.opens : SvPC → Bool
  | openSv | openVn => true
  | _ => false

def SvPC.closes (pc : SvPC) : Bool := pc == .close

def VoPC.opens : VoPC → Bool
  | openVn | openTmp => true
  | _ => false

def VoPC.closes : VoPC → Bool
  | closeVn | closeTmp => true
  | _ => false

/-- Slots of `gFileTable`, and those the console has. -/
def tableSize : Nat := 10
def consoleSlots : Nat := 2

/-- The semaphore, the files of the two programs and where these are, in `taps`; whether they have
been started in this round, `sinhvien_inp.txt` and `output.txt` with the offsets of `main`, and the
number of slots of the file table that are taken. -/
structure MainState where
  taps : State
  sv : Bool
  vo : Bool
  line : List Byte
  lineOff : Nat
  out : List Byte
  outOff : Nat
  inOff : Nat
  tmpOff : Nat
  n : Word
  used : Nat
  pc : MainPC
  deriving DecidableEq, Repr

/-- There may be files from before. -/
def mainInit (line vn tmp out : List Byte) : MainState where
  taps := { init tmp with vn := vn }
  sv := false
  vo := false
  line := line
  lineOff := 0
  out := out
  outOff := 0
  inOff := 0
  tmpOff := 0
  n := 0
  used := consoleSlots
  pc := .createOut

namespace MainState

def goto (s : MainState) (pc : MainPC) : MainState := { s with pc := pc }

/-- A slot of the table is free. -/
def free (s : MainState) : Bool := s.used < tableSize

/-- Behind an `Open`, which takes a slot if the host has opened the file. -/
def opened (s : MainState) (ok : Bool) (pc : MainPC) : MainState :=
  if ok && s.free then { s with used := s.used + 1, pc := pc } else s.goto .failed

def closed (s : MainState) (pc : MainPC) : MainState := { s with used := s.used - 1, pc := pc }

/-- `while (n--)`. -/
def round (s : MainState) : MainState :=
  { s with n := s.n - 1, pc := if s.n = 0 then .closeIn else .createSv }

/-- The next system call of `main`, on the file `input.txt`.  `ok` says whether a `CreateFile`,
`CreateSemaphore`, `Open` or `Exec` succeeds. -/
def main (s : MainState) (inp : List Byte) (ok : Bool) : Except Stop MainState :=
  match s.pc with
  | .createOut => .ok (if ok then { s with out := [], outOff := 0 }.goto .createSem else s.goto .failed)
  | .createSem =>
      .ok (if ok then { s with taps := { s.taps with lock := 1 } }.goto .openIn else s.goto .failed)
  | .openIn => .ok (s.opened ok .openOut)
  | .openOut => .ok (s.opened ok .skip)
  | .skip =>
      match inp[s.inOff]? with
      | some c => .ok (if isDigit c then { s with inOff := s.inOff + 1, n := digit c }.goto .digits
          else { s with inOff := s.inOff + 1 })
      | none => .ok s.round
  | .digits =>
      match inp[s.inOff]? with
      | some c => .ok (if isDigit c then { s with inOff := s.inOff + 1, n := s.n * 10 + digit c }
          else { s with inOff := s.inOff + 1 }.round)
      | none => .ok s.round
  | .createSv =>
      .ok (if ok then { s with line := [], lineOff := 0 }.goto .openSv else s.goto .failed)
  | .openSv => .ok (s.opened ok .createVn)
  | .createVn =>
      .ok (if ok then { s with taps := { s.taps with vn := [] } }.goto .read else s.goto .failed)
  | .read =>
      match inp[s.inOff]? with
      | some c => .ok ({ s with inOff := s.inOff + 1 }.goto (.write c))
      | none => .ok (s.goto .closeSv)
  | .write c => .ok ({ s with line := writeFile s.line s.lineOff [c], lineOff := s.lineOff + 1 }.goto
      (if c = newline then .closeSv else .read))
  | .closeSv => .ok (s.closed .execSv)
  | .execSv => .ok (if ok then { s with
      taps := { init s.taps.tmp with lock := s.taps.lock, vn := s.taps.vn }
      sv := true }.goto .execVo else s.goto .failed)
  | .execVo => .ok (if ok then { s with vo := true }.goto .joinSv else s.goto .failed)
  | .joinSv => .ok (s.goto (if s.taps.svPc = .finished ∨ s.taps.svPc = .failed then .failed
      else .waitSv))
  | .waitSv =>
      if s.taps.svPc = .finished then .ok ({ s with sv := false }.goto .joinVo)
      else if s.taps.svPc = .failed then .ok (s.goto .failed) else .error .disabled
  | .joinVo => .ok (s.goto (if s.taps.voPc = .finished ∨ s.taps.voPc = .failed then .failed
      else .waitVo))
  | .waitVo =>
      if s.taps.voPc = .finished then .ok ({ s with vo := false }.goto .openTmp)
      else if s.taps.voPc = .failed then .ok (s.goto .failed) else .error .disabled
  | .openTmp => .ok ({ s with tmpOff := 0 }.opened ok .readTmp)
  | .readTmp =>
      match s.taps.tmp[s.tmpOff]? with
      | some c => .ok ({ s with tmpOff := s.tmpOff + 1 }.goto (.writeTmp c))
      | none => .ok (s.goto .closeTmp)
  | .writeTmp c => .ok ({ s with out := writeFile s.out s.outOff [c], outOff := s.outOff + 1 }.goto
      .readTmp)
  | .closeTmp => .ok { s with used := s.used - 1 }.round
  | .closeIn => .ok (s.closed .closeOut)
  | .closeOut => .ok (s.closed .exit)
  | .exit => .ok (s.goto .finished)
  | .finished | .failed => .error .disabled

/-- What the table of open files makes of a call. -/
def slots (s : MainState) (opens closes ok : Bool) : Nat :=
  if opens && ok then s.used + 1 else if closes then s.used - 1 else s.used

/-- The next system call of `sinhvien`, once it has been started. -/
def sinhvien (s : MainState) (ok : Bool) : Except Stop MainState :=
  if s.sv then
    let ok := ok && (!s.taps.svPc.opens || s.free)
    (s.taps.sinhvien s.line ok).map fun t =>
      { s with taps := t, used := s.slots s.taps.svPc.opens s.taps.svPc.closes ok }
  else .error .disabled

def voinuoc (s : MainState) (ok : Bool) : Except Stop MainState :=
  if s.vo then
    let ok := ok && (!s.taps.voPc.opens || s.free)
    (s.taps.voinuoc ok).map fun t =>
      { s with taps := t, used := s.slots s.taps.voPc.opens s.taps.voPc.closes ok }
  else .error .disabled

end MainState

inductive MainAction where
  | main (ok : Bool)
  | sinhvien (ok : Bool)
  | voinuoc (ok : Bool)
  deriving DecidableEq, Repr

/-- The host and the kernel do what is asked. -/
def MainAction.ok : MainAction → Bool
  | main ok | sinhvien ok | voinuoc ok => ok

def mainStep (inp : List Byte) (s : MainState) : MainAction → Except Stop MainState
  | .main ok => s.main inp ok
  | .sinhvien ok => s.sinhvien ok
  | .voinuoc ok => s.voinuoc ok

/-! ### What the program is for -/

/-- The value of a number as `read_unsigned_integer` computes it, of which `n` has been read, and the
input behind the number and the character that ends it. -/
def headerDigits (n : Word) (inp : List Byte) : Word × List Byte :=
  ((inp.takeWhile isDigit).foldl (fun n c => n * 10 + digit c) n, (inp.dropWhile isDigit).drop 1)

/-- The number of lines that the input says it has, and these lines. -/
def header (inp : List Byte) : Word × List Byte := headerDigits 0 (inp.dropWhile (!isDigit ·))

/-- A line with its newline, or what there is of it. -/
def firstLine (inp : List Byte) : List Byte := through (· == newline) inp

/-- What is behind `k` lines. -/
def behind (inp : List Byte) : Nat → List Byte
  | 0 => inp
  | k + 1 => (behind inp k).drop (firstLine (behind inp k)).length

/-- The first `k` lines. -/
def lines (inp : List Byte) (k : Nat) : List (List Byte) :=
  (List.range k).map fun i => firstLine (behind inp i)

end Nachos.Taps
