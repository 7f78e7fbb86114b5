import Nachos.Machine.Machine

/-!
# Userprog — Exception

The handlers of the system calls (userprog/exception.cc).  A handler is a `Prog`: what it does to
the machine, and the operations of the kernel it calls.  Of an operation the handler sees the value
it returns and what it leaves in a buffer (`Answer`), so a `Prog` goes on from any answer; whether
the operation has slept does not show.  A loop without a bound is a `Label`, and `code` is what
stands there.

`Prog.Adjusts` reads off a handler that on every way to its end it calls `AdjustPCRegs` once, and
writes no register but `r2`; all eighteen do (`handler_adjusts`, `code_adjusts`).
-/

namespace Nachos.Syscall

def BLOCK_SIZE : Nat := 32768
def MAX_BLOCK : Nat := 32
def MAX_FILENAME_LEN : Nat := 255
def MAX_SEMNAME_LEN : Nat := 255
def MAX_SEM_NAME : Nat := 255

/-- The operations of the console, the file system, the process table and the semaphore table. -/
inductive Call where
  | write (src : List Byte) (numBytes : Int)
  | read (numBytes : Int)
  | create (name : List Byte)
  | fopen (name : List Byte) (type : Int)
  | getOpenFile (fid : Int)
  | fileRead (fid numBytes : Int)
  | fileWrite (fid : Int) (src : List Byte) (numBytes : Int)
  | seek (fid pos : Int)
  | fclose (fid : Int)
  | execUpdate (name : List Byte)
  | joinUpdate (id : Int)
  | exitUpdate (ec : Int)
  | semCreate (name : List Byte) (init : Int)
  | semWait (name : List Byte)
  | semSignal (name : List Byte)
  deriving DecidableEq, Repr

/-- What an operation returns, and what the buffer it reads into holds then.  A `bool` and a pointer
are 0 or not. -/
structure Answer where
  value : Int
  bytes : List Byte
  deriving DecidableEq, Repr

/-- The heads of the loops, with the local variables. -/
inductive Label where
  | printString (strAddr : Word) (i : Nat)
  | readIntSkip (c : Byte)
  | readIntNegative (c : Byte) (count : Int) (res : Word)
  | readIntPositive (c : Byte) (count : Int) (res : Word)
  deriving DecidableEq, Repr

/-- The rest of a handler. -/
inductive Prog where
  | ret
  | readRegister (num : Nat) (k : Word → Prog)
  | writeRegister (num : Nat) (value : Word) (k : Prog)
  | adjustPCRegs (k : Prog)
  | user2System (virtAddr : Word) (limit : Nat) (k : List Byte → Prog)
  | system2User (virtAddr : Word) (len : Int) (buffer : List Byte) (k : Prog)
  | call (c : Call) (k : Answer → Prog)
  | jump (l : Label)
  | halt
  /-- An `ASSERT` that fails, or a host trap. -/
  | abort

namespace Prog

/-- `machine->WriteRegister(2, value); machine->AdjustPCRegs(); return;` -/
def returns (value : Int) : Prog := writeRegister 2 (BitVec.ofInt 32 value) (adjustPCRegs ret)

/-- `new char[n]`. -/
def newBuffer (n : Word) (k : Prog) : Prog := if n.toInt < 0 then abort else k

end Prog

open Prog

/-! ### Console -/

def SyscallPrintChar : Prog :=
  readRegister 4 fun r4 =>
  call (.write [r4.truncate 8] 1) fun _ =>
  returns 0

def SyscallReadChar : Prog :=
  call (.read 1) fun r =>
  returns ((r.bytes.headD 0).toInt)

def SyscallPrintString : Prog :=
  readRegister 4 fun strAddr =>
  if strAddr = 0 then returns (-1) else jump (.printString strAddr 0)

/-- The loop of `SyscallPrintString`. -/
def printString (strAddr : Word) (i : Nat) : Prog :=
  if i < MAX_BLOCK then
    user2System (strAddr + BitVec.ofNat 32 (i * BLOCK_SIZE)) BLOCK_SIZE fun kernelBuff =>
    let cnt := ((kernelBuff.take BLOCK_SIZE).takeWhile (· ≠ 0)).length
    call (.write kernelBuff cnt) fun _ =>
    if cnt < BLOCK_SIZE then returns 0 else jump (.printString strAddr (i + 1))
  else returns 0

/-- With a negative `len` the allocation or the `memset` does not return. -/
def SyscallReadString : Prog :=
  readRegister 4 fun strAddr =>
  if strAddr = 0 then returns (-1)
  else
    readRegister 5 fun len =>
    newBuffer (len + 1) <|
    if len.toInt < 0 then abort
    else
      call (.read len.toInt) fun r =>
      if len.toInt < r.value then abort
      else
        system2User strAddr (r.value + 1) (r.bytes.take r.value.toNat ++ [0]) <|
        returns 0

/-- The decimal digits of an `int`, with its sign. -/
def decimal (number : Int) : List Byte :=
  (if number < 0 then [0x2d] else []) ++
    (Nat.toDigits 10 number.natAbs).map fun ch => BitVec.ofNat 8 ch.toNat

/-- The register `r2` is left as it is. -/
def SyscallPrintInt : Prog :=
  readRegister 4 fun number =>
  let str := decimal number.toInt
  call (.write str str.length) fun _ =>
  adjustPCRegs ret

def isSpace (c : Byte) : Bool := c == 0x20 || c == 0x09 || c == 0x0a

def isDigit (c : Byte) : Bool := 0x30 ≤ c.toNat && c.toNat ≤ 0x39

def digit (c : Byte) : Word := BitVec.ofNat 32 (c.toNat - 0x30)

/-- The first loop of `SyscallReadInt`, and what it does behind it. -/
def readIntSkip (c : Byte) : Prog :=
  call (.read 1) fun r =>
  let c := r.bytes.headD c
  let count := r.value
  if count ≠ -1 ∧ (isSpace c ∨ count = 0) then jump (.readIntSkip c)
  else if count = -1 ∨ ¬ (c = 0x2d ∨ isDigit c) then returns 0
  else if c = 0x2d then
    call (.read 1) fun r =>
    jump (.readIntNegative (r.bytes.headD c) r.value 0)
  else jump (.readIntPositive c count 0)

/-- The loop over the digits of a negative number. -/
def readIntNegative (c : Byte) (count : Int) (res : Word) : Prog :=
  if isDigit c ∧ count = 1 then
    let res := if res.toInt ≤ 0 then res * 10 - digit c else res
    call (.read 1) fun r =>
    jump (.readIntNegative (r.bytes.headD c) r.value res)
  else returns (if 0 < res.toInt then 0 else res.toInt)

/-- The loop over the digits of a positive number. -/
def readIntPositive (c : Byte) (count : Int) (res : Word) : Prog :=
  if isDigit c ∧ count = 1 then
    let res := if 0 ≤ res.toInt then res * 10 + digit c else res
    call (.read 1) fun r =>
    jump (.readIntPositive (r.bytes.headD c) r.value res)
  else returns (if res.toInt < 0 then 0 else res.toInt)

/-- The character `c` is not initialised: the loop looks at it only behind a `Read`. -/
def SyscallReadInt : Prog := jump (.readIntSkip 0)

/-! ### Files -/

/-- The handlers that begin with the name of a file or of a semaphore, `limit` bytes at most. -/
def withName (limit : Nat) (k : List Byte → Prog) : Prog :=
  readRegister 4 fun strAddr =>
  if strAddr = 0 then returns (-1) else user2System strAddr limit k

def SyscallCreateFile : Prog :=
  withName (MAX_FILENAME_LEN + 1) fun kernelBuf =>
  call (.create kernelBuf) fun success =>
  returns (if success.value ≠ 0 then 0 else -1)

def SyscallOpen : Prog :=
  withName (MAX_FILENAME_LEN + 1) fun kernelBuf =>
  readRegister 5 fun openType =>
  call (.fopen kernelBuf openType.toInt) fun fid =>
  returns fid.value

def SyscallRead : Prog :=
  readRegister 4 fun strAddr =>
  if strAddr = 0 then returns (-1)
  else
    readRegister 5 fun charCount =>
    readRegister 6 fun fid =>
    if fid.toInt = 1 ∨ charCount.toInt < 0 then returns (-1)
    else if fid.toInt = 0 then
      newBuffer (charCount + 1) <|
      call (.read charCount.toInt) fun r =>
      if r.value = -1 then returns (-2)
      else
        system2User strAddr (r.value + 1) (r.bytes.take r.value.toNat ++ [0]) <|
        returns r.value
    else
      call (.getOpenFile fid.toInt) fun f =>
      if f.value = 0 then returns (-1)
      else
        newBuffer (charCount + 1) <|
        call (.fileRead fid.toInt charCount.toInt) fun r =>
        if 0 ≤ r.value then
          system2User strAddr r.value r.bytes <|
          returns (if 0 < r.value then r.value else -2)
        else returns (-1)

def SyscallWrite : Prog :=
  readRegister 4 fun strAddr =>
  if strAddr = 0 then returns (-1)
  else
    readRegister 5 fun charCount =>
    readRegister 6 fun fid =>
    if fid.toInt = 0 ∨ charCount.toInt < 0 then returns (-1)
    else if fid.toInt = 1 then
      user2System strAddr charCount.toNat fun kernelBuf =>
      call (.write kernelBuf charCount.toInt) fun r =>
      returns r.value
    else
      call (.getOpenFile fid.toInt) fun f =>
      if f.value = 0 then returns (-1)
      else
        user2System strAddr charCount.toNat fun kernelBuf =>
        call (.fileWrite fid.toInt kernelBuf charCount.toInt) fun r =>
        returns (if r.value = charCount.toInt then charCount.toInt else -1)

def SyscallSeek : Prog :=
  readRegister 4 fun pos =>
  readRegister 5 fun fid =>
  if fid.toInt < 2 then returns (-1)
  else
    call (.getOpenFile fid.toInt) fun f =>
    if f.value = 0 then returns (-1)
    else
      call (.seek fid.toInt pos.toInt) fun r =>
      returns r.value

/-- The register `r2` is left as it is. -/
def SyscallClose : Prog :=
  readRegister 4 fun fid =>
  call (.fclose fid.toInt) fun _ =>
  adjustPCRegs ret

/-! ### Processes and semaphores -/

def SyscallExec : Prog :=
  withName (MAX_FILENAME_LEN + 1) fun kernelBuf =>
  call (.execUpdate kernelBuf) fun r =>
  returns r.value

def SyscallJoin : Prog :=
  readRegister 4 fun tid =>
  call (.joinUpdate tid.toInt) fun r =>
  returns r.value

def SyscallExit : Prog :=
  readRegister 4 fun exitCode =>
  call (.exitUpdate exitCode.toInt) fun r =>
  returns r.value

def SyscallCreateSemaphore : Prog :=
  readRegister 4 fun strAddr =>
  readRegister 5 fun semVal =>
  if strAddr = 0 ∨ semVal.toInt < 0 then returns (-1)
  else
    user2System strAddr (MAX_SEMNAME_LEN + 1) fun kernelBuf =>
    call (.semCreate kernelBuf semVal.toInt) fun r =>
    returns r.value

def SyscallWait : Prog :=
  withName (MAX_SEMNAME_LEN + 1) fun kernelBuf =>
  call (.semWait kernelBuf) fun r =>
  returns r.value

def SyscallSignal : Prog :=
  withName (MAX_SEM_NAME + 1) fun kernelBuf =>
  call (.semSignal kernelBuf) fun r =>
  returns r.value

/-- The `switch` of `ExceptionHandler` over the code in `r2`. -/
def handler (type : Word) : Prog :=
  match type.toNat with
  | 0 => halt
  | 1 => SyscallExit
  | 2 => SyscallExec
  | 3 => SyscallJoin
  | 9 | 10 => halt
  | 11 => SyscallReadInt
  | 12 => SyscallPrintInt
  | 13 => SyscallReadChar
  | 14 => SyscallPrintChar
  | 15 => SyscallReadString
  | 16 => SyscallPrintString
  | 17 => SyscallCreateFile
  | 18 => SyscallOpen
  | 19 => SyscallRead
  | 20 => SyscallWrite
  | 21 => SyscallSeek
  | 22 => SyscallClose
  | 23 => SyscallCreateSemaphore
  | 24 => SyscallWait
  | 25 => SyscallSignal
  | _ => abort

/-- What stands at a label. -/
def code : Label → Prog
  | .printString strAddr i => printString strAddr i
  | .readIntSkip c => readIntSkip c
  | .readIntNegative c count res => readIntNegative c count res
  | .readIntPositive c count res => readIntPositive c count res

/-! ### What every handler does -/

/-- On every way to its end the rest of a handler calls `AdjustPCRegs` once, unless it is called
already (`adjusted`), and it writes no register but `r2`. -/
def Prog.Adjusts : (adjusted : Bool) → Prog → Prop
  | adjusted, ret => adjusted = true
  | adjusted, readRegister _ k => ∀ v, (k v).Adjusts adjusted
  | adjusted, writeRegister num _ k => num = 2 ∧ k.Adjusts adjusted
  | adjusted, adjustPCRegs k => adjusted = false ∧ k.Adjusts true
  | adjusted, user2System _ _ k => ∀ bytes, (k bytes).Adjusts adjusted
  | adjusted, system2User _ _ _ k => k.Adjusts adjusted
  | adjusted, call _ k => ∀ r, (k r).Adjusts adjusted
  | adjusted, jump _ => adjusted = false
  | _, halt => True
  | _, abort => True

section
variable {p q : Prog}

theorem adjusts_returns (v : Int) : (returns v).Adjusts false := ⟨rfl, rfl, rfl⟩

theorem adjusts_ite {c : Prop} [Decidable c] (hp : p.Adjusts false) (hq : q.Adjusts false) :
    (if c then p else q).Adjusts false := by
  split
  · exact hp
  · exact hq

theorem adjusts_newBuffer (n : Word) (hp : p.Adjusts false) : (newBuffer n p).Adjusts false :=
  adjusts_ite trivial hp

theorem adjusts_system2User {a : Word} {len : Int} {buffer : List Byte} (hp : p.Adjusts false) :
    (system2User a len buffer p).Adjusts false := hp

theorem adjusts_withName {limit : Nat} {k : List Byte → Prog} (hk : ∀ b, (k b).Adjusts false) :
    (withName limit k).Adjusts false := fun _ => adjusts_ite (adjusts_returns _) hk

end

/-- Behind a loop there is one call too. -/
theorem code_adjusts (l : Label) : (code l).Adjusts false := by
  cases l with
  | printString strAddr i =>
      refine adjusts_ite (fun _ _ => ?_) (adjusts_returns _)
      exact adjusts_ite (adjusts_returns _) rfl
  | readIntSkip c =>
      refine fun r => adjusts_ite rfl (adjusts_ite (adjusts_returns _) (adjusts_ite (fun _ => rfl) ?_))
      rfl
  | readIntNegative | readIntPositive => exact adjusts_ite (fun _ => rfl) (adjusts_returns _)

/-- **Every handler calls `AdjustPCRegs` once, and writes no register but `r2`.** -/
theorem handler_adjusts (type : Word) : (handler type).Adjusts false := by
  unfold handler
  split
  · trivial
  · exact fun _ _ => adjusts_returns _
  · exact adjusts_withName fun _ _ => adjusts_returns _
  · exact fun _ _ => adjusts_returns _
  · trivial
  · trivial
  · exact (rfl : SyscallReadInt.Adjusts false)
  · exact fun _ _ => ⟨rfl, rfl⟩
  · exact fun _ => adjusts_returns _
  · exact fun _ _ => adjusts_returns _
  · -- `SyscallReadString`
    refine fun _ => adjusts_ite (adjusts_returns _) fun _ => adjusts_newBuffer _ ?_
    exact adjusts_ite trivial fun _ =>
      adjusts_ite trivial (adjusts_system2User (adjusts_returns _))
  · exact fun _ => adjusts_ite (adjusts_returns _) rfl
  · exact adjusts_withName fun _ _ => adjusts_returns _
  · exact adjusts_withName fun _ _ _ => adjusts_returns _
  · -- `SyscallRead`
    refine fun _ => adjusts_ite (adjusts_returns _) fun _ _ => adjusts_ite (adjusts_returns _) ?_
    refine adjusts_ite (adjusts_newBuffer _ fun _ => ?_) fun _ => ?_
    · exact adjusts_ite (adjusts_returns _) (adjusts_system2User (adjusts_returns _))
    · refine adjusts_ite (adjusts_returns _) (adjusts_newBuffer _ fun _ => ?_)
      exact adjusts_ite (adjusts_system2User (adjusts_returns _)) (adjusts_returns _)
  · -- `SyscallWrite`
    refine fun _ => adjusts_ite (adjusts_returns _) fun _ _ => adjusts_ite (adjusts_returns _) ?_
    refine adjusts_ite (fun _ _ => adjusts_returns _) fun _ => ?_
    exact adjusts_ite (adjusts_returns _) fun _ _ => adjusts_returns _
  · refine fun _ _ => adjusts_ite (adjusts_returns _) fun _ => ?_
    exact adjusts_ite (adjusts_returns _) fun _ => adjusts_returns _
  · exact fun _ _ => ⟨rfl, rfl⟩
  · exact fun _ _ => adjusts_ite (adjusts_returns _) fun _ _ => adjusts_returns _
  · exact adjusts_withName fun _ _ => adjusts_returns _
  · exact adjusts_withName fun _ _ => adjusts_returns _
  · trivial

end Nachos.Syscall
