import Mathlib.Algebra.Ring.Nat
import Nachos.Lib.Chunks
import Nachos.Lib.Runs
import Nachos.Machine.HostFile
import Nachos.Threads.Semaphore
import Nachos.Userprog.Exception

/-!
# Test — sinhvien and voinuoc

The two programs of test/sinhvien.c and test/voinuoc.c, run side by side; one step of a program is one
of its system calls, with what it does up to the next.  `sinhvien` copies the numbers of its input,
each followed by a blank, to a file that `voinuoc` reads at the same time, and closes with a `-`;
`voinuoc` assigns each number to the tap with the smaller load and writes down which.  Both go to the
file only between `Wait("lock_file")` and `Signal("lock_file")`, and each through an offset of its own.

`greedy` is what the programs are for: the assignment of a list of numbers to two taps.
-/

namespace Nachos.Taps
open Lib
open Syscall (isDigit digit writeFile)

def blank : Byte := 0x20
def newline : Byte := 0x0A
def minus : Byte := 0x2D

/-- Where `sinhvien` is: at the system call of this name. -/
inductive SvPC where
  | openSv
  | openVn
  /-- The `Read` of the outer loop. -/
  | read
  | wait (c : Byte)
  | write (c : Byte)
  /-- The `Read` of the inner loop. -/
  | readNext
  /-- Behind the inner loop; `more` is `ret == 1`. -/
  | writeBlank (more : Bool)
  | signal (more : Bool)
  | waitEnd
  | writeEnd
  | signalEnd
  | close
  | exit
  | finished
  /-- `Exit(-1)` has been called. -/
  | failed
  deriving DecidableEq, Repr

/-- Where `voinuoc` is. -/
inductive VoPC where
  | openVn
  | createTmp
  | openTmp
  | wait
  /-- The `Read` of the first loop of `read_unsigned_integer`. -/
  | skip
  /-- The `Read` of its second loop. -/
  | digits (res : Word)
  /-- Behind `read_unsigned_integer`, which has returned `n`. -/
  | signal (n : Word)
  | writeTap (tap : Byte)
  | writeEnd
  | closeVn
  | closeTmp
  | finished
  | failed
  deriving DecidableEq, Repr

/-- The semaphore, `voinuoc_input.txt` and `tmp.txt`, and the two programs with the offsets of their
files.  `got` is history: the numbers `read_unsigned_integer` has returned. -/
structure State where
  lock : Int
  vn : List Byte
  tmp : List Byte
  svPc : SvPC
  svIn : Nat
  svOut : Nat
  voPc : VoPC
  voIn : Nat
  voOut : Nat
  s₁ : Word
  s₂ : Word
  got : List Word
  deriving DecidableEq, Repr

/-- `tmp.txt` may be there from before. -/
def init (tmp : List Byte) : State where
  lock := 1
  vn := []
  tmp := tmp
  svPc := .openSv
  svIn := 0
  svOut := 0
  voPc := .openVn
  voIn := 0
  voOut := 0
  s₁ := 0
  s₂ := 0
  got := []

namespace State

/-- `Wait("lock_file")`, which does not return as long as the value is 0. -/
def wait (s : State) : Except Stop State :=
  if s.lock = 0 then .error .disabled else .ok { s with lock := s.lock - 1 }

def signal (s : State) : State := { s with lock := s.lock + 1 }

/-- `Write` to `f_vn`. -/
def writeVn (s : State) (bytes : List Byte) : State :=
  { s with vn := writeFile s.vn s.svOut bytes, svOut := s.svOut + bytes.length }

/-- `Write` to `f_tmp`. -/
def writeTmp (s : State) (bytes : List Byte) : State :=
  { s with tmp := writeFile s.tmp s.voOut bytes, voOut := s.voOut + bytes.length }

def gotoSv (s : State) (pc : SvPC) : State := { s with svPc := pc }
def gotoVo (s : State) (pc : VoPC) : State := { s with voPc := pc }

/-- Behind a `Read` of `sinhvien` that has delivered a byte. -/
def readSv (s : State) (pc : SvPC) : State := { s with svIn := s.svIn + 1, svPc := pc }

/-- Behind a `Read` of `voinuoc` that has delivered a byte. -/
def readVo (s : State) (pc : VoPC) : State := { s with voIn := s.voIn + 1, voPc := pc }

/-- The next system call of `sinhvien`, on its input.  `ok` says whether an `Open` succeeds;
a `Read` or `Write` of an open file is served. -/
def sinhvien (s : State) (inp : List Byte) (ok : Bool) : Except Stop State :=
  match s.svPc with
  | .openSv => .ok (s.gotoSv (if ok then .openVn else .failed))
  | .openVn => .ok (s.gotoSv (if ok then .read else .failed))
  | .read =>
      match inp[s.svIn]? with
      | some c => .ok (s.readSv (if isDigit c then .wait c else .read))
      | none => .ok (s.gotoSv .waitEnd)
  | .wait c => s.wait.map (gotoSv · (.write c))
  | .write c => .ok ((s.writeVn [c]).gotoSv .readNext)
  | .readNext =>
      match inp[s.svIn]? with
      | some c => .ok (s.readSv (if isDigit c then .write c else .writeBlank true))
      | none => .ok (s.gotoSv (.writeBlank false))
  | .writeBlank more => .ok ((s.writeVn [blank]).gotoSv (.signal more))
  | .signal more => .ok (s.signal.gotoSv (if more then .read else .waitEnd))
  | .waitEnd => s.wait.map (gotoSv · .writeEnd)
  | .writeEnd => .ok ((s.writeVn [minus, newline]).gotoSv .signalEnd)
  | .signalEnd => .ok (s.signal.gotoSv .close)
  | .close => .ok (s.gotoSv .exit)
  | .exit => .ok (s.gotoSv .finished)
  | .finished | .failed => .error .disabled

/-- `read_unsigned_integer` returns `n`. -/
def returns (s : State) (n : Word) : State := { s with voPc := .signal n, got := s.got ++ [n] }

/-- The loop of `voinuoc` behind the `Signal`. -/
def assign (s : State) (n : Word) : State :=
  if s.s₁.toInt ≤ s.s₂.toInt then
    { s with s₁ := s.s₁ + n, voPc := if 0 < n.toInt then .writeTap 0x31 else .wait }
  else { s with s₂ := s.s₂ + n, voPc := if 0 < n.toInt then .writeTap 0x32 else .wait }

/-- The next system call of `voinuoc`. -/
def voinuoc (s : State) (ok : Bool) : Except Stop State :=
  match s.voPc with
  | .openVn => .ok (s.gotoVo (if ok then .createTmp else .failed))
  | .createTmp => .ok (if ok then { s with tmp := [] }.gotoVo .openTmp else s.gotoVo .failed)
  | .openTmp => .ok (s.gotoVo (if ok then .wait else .failed))
  | .wait => s.wait.map (gotoVo · .skip)
  | .skip =>
      match s.vn[s.voIn]? with
      | some c =>
          .ok (if c = minus then s.readVo (.signal (-1))
            else s.readVo (if isDigit c then .digits (digit c) else .skip))
      | none => .ok (s.returns 0)
  | .digits res =>
      match s.vn[s.voIn]? with
      | some c =>
          .ok (if isDigit c then s.readVo (.digits (res * 10 + digit c))
            else (s.readVo .skip).returns res)
      | none => .ok (s.returns res)
  | .signal n => .ok (if n = -1 then s.signal.gotoVo .writeEnd else s.signal.assign n)
  | .writeTap tap => .ok ((s.writeTmp [tap, blank]).gotoVo .wait)
  | .writeEnd => .ok ((s.writeTmp [newline]).gotoVo .closeVn)
  | .closeVn => .ok (s.gotoVo .closeTmp)
  | .closeTmp => .ok (s.gotoVo .finished)
  | .finished | .failed => .error .disabled

end State

inductive Action where
  | sinhvien (ok : Bool)
  | voinuoc (ok : Bool)
  deriving DecidableEq, Repr

def step (inp : List Byte) (s : State) : Action → Except Stop State
  | .sinhvien ok => s.sinhvien inp ok
  | .voinuoc ok => s.voinuoc ok

/-! ### What the programs compute -/

/-- The loads of the two taps, and the taps chosen so far. -/
structure Loads where
  one : Nat
  two : Nat
  out : List Byte

/-- A number goes to tap 1 if the load of tap 1 is at most that of tap 2. -/
def Loads.add (x : Loads) (n : Nat) : Loads :=
  if x.one ≤ x.two then ⟨x.one + n, x.two, x.out ++ [0x31, blank]⟩
  else ⟨x.one, x.two + n, x.out ++ [0x32, blank]⟩

/-- The greedy assignment. -/
def greedy (ns : List Nat) : Loads := ns.foldl Loads.add ⟨0, 0, []⟩

/-- The value of a decimal number. -/
def decimal (t : List Byte) : Nat := t.foldl (fun n c => n * 10 + (c.toNat - 0x30)) 0

/-- The positive ones of some decimal numbers. -/
def positives (ts : List (List Byte)) : List Nat := (ts.map decimal).filter (0 < ·)

end Nachos.Taps
