import Nachos.Machine.Mips
import Nachos.Threads.PTable

/-!
# Kernel — System

The machine shared by the processes: `Scheduler::Run` (threads/scheduler.cc) with
`Thread::SaveUserState` and `RestoreUserState` (threads/thread.cc), `AddrSpace::InitRegisters` and
`RestoreState` (userprog/addrspace.cc), `exec_func` and the start of the root (threads/pcb.cc),
`ExceptionHandler` (userprog/exception.cc), and the interrupts.

`machine->pageTable` is a pointer into an address space: `State.pageTable` says whose.  The process
table is that of `Proc`, one step of which is one step here, made by `currentThread`.  What else a
system call does is free: it copies from and to user memory, sleeps on semaphores of the console or
of user programs, and returns with a value in `r2` or without.  `Scheduler::Run` may come between
any two steps.
-/

namespace Nachos.Kernel
open Lib Machine

/-- What a thread is executing. -/
inductive Mode where
  /-- Nothing yet: it has never had the CPU. -/
  | unstarted
  /-- `ThreadRoot`, on the way to `exec_func`. -/
  | root
  | user
  | kernel
  deriving DecidableEq, Repr

/-- The hardware, `currentThread`, the processes, and of each thread the registers it has saved,
what it executes, and whether it sleeps outside of the process table. -/
structure State where
  procs : Proc.State
  currentThread : Tid
  registers : Nat → Word
  mainMemory : Nat → Byte
  pageTable : Option Tid
  pageTableSize : Nat
  userRegisters : Tid → Nat → Word
  mode : Tid → Mode
  asleep : Tid → Bool

/-- The first `NumTotalRegs` registers of `src`, in `dst`. -/
def copyRegisters (src dst : Nat → Word) : Nat → Word := fun i =>
  if i < NumTotalRegs then src i else dst i

/-- `AddrSpace::InitRegisters`. -/
def initRegisters (sp : AddrSpace) (registers : Nat → Word) : Nat → Word :=
  let zeroed := copyRegisters (fun _ => 0) registers
  let pc := Function.update (Function.update zeroed PCReg 0) NextPCReg 4
  Function.update pc StackReg (BitVec.ofInt 32 (sp.numPages * PageSize - 16))

/-- A thread that never has the CPU again. -/
def finished : Proc.PC → Bool
  | .done _ | .gone => true
  | _ => false

namespace State

/-- The hardware as a routine of the machine sees it.  A pointer to the page table of an address
space that has been deleted is one to no page table. -/
def machine (s : State) : Machine where
  registers := s.registers
  mainMemory := s.mainMemory
  pageTable := s.pageTable.bind fun t => (s.procs.spaces t).map AddrSpace.pageTable
  pageTableSize := s.pageTableSize

def setMode (s : State) (t : Tid) (mode : Mode) : State :=
  { s with mode := Function.update s.mode t mode }

/-- `AddrSpace::RestoreState`, where `t` is the thread of the address space. -/
def restoreState (s : State) (t : Tid) (sp : AddrSpace) : State :=
  { s with pageTable := some t, pageTableSize := sp.numPages }

/-- `Thread::SaveUserState`. -/
def saveUserState (s : State) (t : Tid) : State :=
  { s with
    userRegisters := Function.update s.userRegisters t
      (copyRegisters s.registers (s.userRegisters t)) }

/-- `Thread::RestoreUserState`. -/
def restoreUserState (s : State) (t : Tid) : State :=
  { s with registers := copyRegisters (s.userRegisters t) s.registers }

/-- What `Scheduler::Run` does before `SWITCH`.  The `space` of a thread that has exited dangles;
what it saves is never read again. -/
def switchOut (s : State) : State :=
  match s.procs.spaces s.currentThread with
  | some _ => s.saveUserState s.currentThread
  | none => s

/-- What it does behind `SWITCH`, in the next thread.  A thread that has never run goes to
`ThreadRoot`. -/
def switchIn (s : State) (next : Tid) : State :=
  let s := { s with currentThread := next }
  if s.mode next = .unstarted then s.setMode next .root
  else
    match s.procs.spaces next with
    | some sp => (s.restoreUserState next).restoreState next sp
    | none => s

/-- `Scheduler::Run`. -/
def run (s : State) (next : Tid) : State := s.switchOut.switchIn next

/-- A thread on the ready list, or running. -/
def Ready (s : State) (t : Tid) : Prop :=
  s.procs.sync.status t = .ready ∧ s.asleep t = false ∧ finished (s.procs.pc t) = false

instance (s : State) (t : Tid) : Decidable (s.Ready t) := inferInstanceAs (Decidable (_ ∧ _ ∧ _))

/-- `exec_func`. -/
def execFunc (s : State) : Except Stop State :=
  match s.procs.spaces s.currentThread with
  | none => .error .nullDeref
  | some sp =>
      .ok (({ s with registers := initRegisters sp s.registers }.restoreState s.currentThread
        sp).setMode s.currentThread .user)

/-! ### The process table -/

/-- A step of the process table. -/
def proc (s : State) (a : Proc.Action) : Except Stop State :=
  match Proc.step s.procs a with
  | .ok procs => .ok { s with procs := procs }
  | .error e => .error e

/-- The thread of the slot `pid`, when `PCB::Exec` finds `parentID == -1`. -/
def rootThread (procs : Proc.State) (pid : Proc.Pid) : Option Tid :=
  (procs.table.pcb pid).bind fun b => if b.parentID = none then b.thread else none

/-- The root's thread becomes `currentThread`, in the place of the main thread. -/
def takeOver (s : State) (thread : Tid) : Except Stop State :=
  match s.procs.spaces thread with
  | none => .error .nullDeref
  | some sp =>
      .ok (({ s with
        currentThread := thread
        registers := initRegisters sp s.registers }.restoreState thread sp).setMode thread .kernel)

/-- What `PCB::Exec` and `StartProcess` do to the machine in the step from `procs` on: the
constructor of `AddrSpace` loads the program, the root takes over, and `machine->Run()`. -/
def afterResume (s : State) (procs : Proc.State) (host : Proc.Host) : Except Stop State :=
  match procs.pc s.currentThread with
  | .execSpace pid _ =>
      match (procs.holder pid).bind s.procs.spaces with
      | none => .error .nullDeref
      | some sp => .ok { s with mainMemory := sp.load host.file s.mainMemory }
  | .execBuilt pid _ =>
      match rootThread procs pid with
      | some thread => s.takeOver thread
      | none => .ok s
  | .bootRet => .ok (s.setMode s.currentThread .user)
  | _ => .ok s

/-! ### User code -/

/-- What a routine of the machine has done: the registers, memory, and the bits of the page table.
-/
def writeBack (s : State) (m : Machine) : Except Stop State :=
  let s' := { s with registers := m.registers, mainMemory := m.mainMemory }
  match s.pageTable, m.pageTable with
  | some t, some pageTable => s'.proc (.touch t pageTable)
  | _, _ => .ok s'

/-- `ExceptionHandler`: a system call is made, anything else ends in `Halt`. -/
def exceptionHandler (s : State) : ExceptionType → Except Stop State
  | .noException => .ok s
  | .syscallException => .ok (s.setMode s.currentThread .kernel)
  | _ => s.proc (.halt s.currentThread)

/-- A routine of the machine. -/
def access {α : Type} (s : State) (x : Exec α) : Except Stop State :=
  match x s.machine with
  | .ok _ m => s.writeBack m
  | .raised which m =>
      match s.writeBack m with
      | .ok s => s.exceptionHandler which
      | .error e => .error e
  | .aborted => .error .assertFails

/-- The end of a system call. -/
def sysRet (s : State) (r2 : Option Word) : State :=
  let m := match r2 with
    | some v => s.machine.setRegister 2 v
    | none => s.machine
  { s with registers := m.adjustPCRegs.registers }.setMode s.currentThread .user

end State

inductive Action where
  /-- `Scheduler::Run`. -/
  | run (next : Tid)
  /-- `exec_func`, in a new thread. -/
  | execFunc
  /-- `Machine::OneInstruction`. -/
  | oneInstruction
  /-- The copy routines, in a system call. -/
  | user2System (virtAddr : Word) (limit : Nat)
  | system2User (virtAddr : Word) (len : Int) (buffer : Nat → Byte)
  | sysRet (r2 : Option Word)
  /-- `Interrupt::CheckIfDue` finds an interrupt. -/
  | interrupt
  /-- A `P` on a semaphore outside of the process table, and the `V` to it. -/
  | sleep
  | wake (t : Tid)
  /-- `StartProcess`. -/
  | boot (filename : Proc.Name)
  /-- The system calls of the process table. -/
  | exec (filename : Option Proc.Name)
  | join (id : Int)
  | exit (ec : Int)
  | halt
  /-- The process table goes on with what `currentThread` has called. -/
  | resume (host : Proc.Host)

/-- When `currentThread` is where an action begins. -/
def State.Enabled (s : State) : Action → Prop
  | .run next => s.Ready next
  | .execFunc => s.Ready s.currentThread ∧ s.mode s.currentThread = .root
  | .oneInstruction => s.Ready s.currentThread ∧ s.mode s.currentThread = .user ∧
      s.procs.pc s.currentThread = .user
  | .user2System _ _ | .system2User _ _ _ | .sysRet _ | .sleep | .exec _ | .join _ | .exit _
  | .halt => s.Ready s.currentThread ∧ s.mode s.currentThread = .kernel ∧
      s.procs.pc s.currentThread = .user
  | .boot _ => s.currentThread = 0 ∧ s.mode s.currentThread = .kernel
  | .resume _ => s.Ready s.currentThread ∧ s.mode s.currentThread = .kernel
  | .interrupt | .wake _ => True

instance (s : State) : (a : Action) → Decidable (s.Enabled a)
  | .run next => inferInstanceAs (Decidable (s.Ready next))
  | .execFunc | .boot _ | .resume _ => inferInstanceAs (Decidable (_ ∧ _))
  | .oneInstruction | .user2System _ _ | .system2User _ _ _ | .sysRet _ | .sleep | .exec _
  | .join _ | .exit _ | .halt => inferInstanceAs (Decidable (_ ∧ _ ∧ _))
  | .interrupt | .wake _ => inferInstanceAs (Decidable True)

open State in
def step (s : State) (a : Action) : Except Stop State :=
  if s.procs.halted = true ∨ ¬ s.Enabled a then .error .disabled
  else
    match a with
    | .run next => .ok (s.run next)
    | .execFunc => s.execFunc
    | .oneInstruction => s.access oneInstruction
    | .user2System virtAddr limit => s.access (user2System virtAddr limit)
    | .system2User virtAddr len buffer => s.access (system2User virtAddr len buffer)
    | .sysRet r2 => .ok (s.sysRet r2)
    | .interrupt => .ok { s with registers := (s.machine.delayedLoad 0 0).registers }
    | .sleep => .ok { s with asleep := Function.update s.asleep s.currentThread true }
    | .wake t => .ok { s with asleep := Function.update s.asleep t false }
    | .boot filename => s.proc (.boot filename)
    | .exec filename => s.proc (.exec s.currentThread filename)
    | .join id => s.proc (.join s.currentThread id)
    | .exit ec => s.proc (.exit s.currentThread ec)
    | .halt => s.proc (.halt s.currentThread)
    | .resume host =>
        match s.proc (.resume s.currentThread host) with
        | .error e => .error e
        | .ok s' => s'.afterResume s.procs host

/-- The kernel before `StartProcess`.  `heap` is as in `Proc.init`, and `regs` is what new threads
hold where they will save their registers. -/
def init (heap : Nat → BitVec 32) (regs : Tid → Nat → Word) : State where
  procs := Proc.init heap
  currentThread := 0
  registers _ := 0
  mainMemory _ := 0
  pageTable := none
  pageTableSize := 0
  userRegisters := regs
  mode := Function.update (fun _ => .unstarted) 0 .kernel
  asleep _ := false

end Nachos.Kernel
