import Nachos.Threads.Semaphore
import Nachos.Userprog.AddrSpace

/-!
# Threads — PTable

The process table: `class PTable` (threads/ptable.cc), `class PCB` (threads/pcb.cc), and the
threads that call `ExecUpdate`, `JoinUpdate` and `ExitUpdate`.

The kernel gives up the CPU only inside `P` and `V` (a tick at the end of each, and `Sleep`), at
`Fork`, and between user instructions.  A thread is therefore always at one of the places of `PC`,
and what it does from one place to the next is one step.  The schedule is free: any ready thread may
take the next step.  `wait` names a place inside a `P`: the thread tests the semaphore when it
arrives there, and again each time it runs after a `V` took it off the queue.

`delete pcb[pid]` leaves the memory of the PCB as it is.  So a `PCB::Exec` that goes on after its
child has exited still finds its `mutex` and its `pID` there, and so does the loop over `pcb` at a
slot whose PCB a failed `Exec` has deleted.
-/

namespace Nachos.Proc
open Lib

abbrev MAX_PROCESS : Nat := 10
def MAX_FILENAME_LEN : Nat := 255

/-- An index of `pcb`; the `-1` of the source is `none`. -/
abbrev Pid := Fin MAX_PROCESS

/-- A C string with whatever follows its end. -/
abbrev Name := List Byte

/-- What `strncmp` and `strncpy` see of a string at `MAX_FILENAME_LEN`. -/
def strn (name : Name) : Name := (name.takeWhile (· ≠ 0)).take MAX_FILENAME_LEN

/-- The semaphores of the kernel's process management. -/
inductive SemRef where
  | bmsem | addrLock
  | joinsem (pid : Pid) | exitsem (pid : Pid) | mutex (pid : Pid)
  deriving DecidableEq, Repr

/-- `class PCB`, without its semaphores, which are named by the slot. -/
structure PCB where
  thread : Option Tid
  fileName : Name
  pID : Option Pid
  parentID : Option Pid
  numwait : Int
  joinID : Option Pid
  joinExitcode : Int
  isExit : Bool
  deriving DecidableEq, Repr

/-- `PCB::PCB`. -/
def PCB.new : PCB where
  thread := none
  fileName := []
  pID := none
  parentID := none
  numwait := 0
  joinID := none
  joinExitcode := 0
  isExit := false

/-- Where a thread is, with the local variables it still uses there. -/
inductive PC where
  /-- No such thread yet. -/
  | unborn
  /-- `new Thread`, before `Fork`. -/
  | created
  /-- The main thread, about to call `StartProcess`. -/
  | boot
  /-- Between two user instructions. -/
  | user
  /-- In `bmsem->P()` of `ExecUpdate`. -/
  | execBmsem (filename : Option Name)
  | execEntered (filename : Option Name)
  /-- In `mutex->P()` of `PCB::Exec`. -/
  | execMutex (filename : Name) (pid : Pid) (parentid : Option Pid)
  | execLocked (filename : Name) (pid : Pid) (parentid : Option Pid)
  /-- Behind the `mutex->V()` of a `PCB::Exec` that returns `-1`. -/
  | execFailed (pid : Pid) (parentid : Option Pid)
  /-- In `addrLock->P()` of `AddrSpace::AddrSpace`. -/
  | execAddrLock (pid : Pid) (parentid : Option Pid)
  | execSpace (pid : Pid) (parentid : Option Pid)
  /-- Behind `addrLock->V()`. -/
  | execBuilt (pid : Pid) (parentid : Option Pid)
  /-- Behind `Fork`. -/
  | execForked (pid : Pid) (parentid : Option Pid)
  /-- Behind the `mutex->V()` of a `PCB::Exec` that returns `pID`. -/
  | execUnlocked (pid : Pid) (parentid : Option Pid)
  /-- Behind the last `bmsem->V()` of `ExecUpdate`, which returns `r`. -/
  | execRet (r : Int)
  /-- The same for the root, which returns to `StartProcess`. -/
  | bootRet
  /-- In `joinsem->P()`.  `joinee` is history: the process the slot `id` held at the call. -/
  | joinWait (pid id : Pid) (joinee : Option Tid)
  | joinWoken (pid id : Pid) (joinee : Option Tid)
  /-- In `exitsem->P()`. -/
  | exitWait (ec : Int) (pid : Pid) (parentid : Option Pid)
  /-- Behind `ExitWait`. -/
  | exitWaited (ec : Int) (pid : Pid) (parentid : Option Pid)
  /-- Behind `JoinRelease`. -/
  | exitJoinReleased (ec : Int) (pid parentid : Pid)
  /-- Behind `DecNumWait` and `ExitRelease`. -/
  | exitReleased (ec : Int) (pid : Pid)
  /-- Behind `Finish`. -/
  | done (ec : Int)
  /-- The main thread, deleted when the root takes over. -/
  | gone
  deriving DecidableEq, Repr

namespace PC

/-- The semaphore in whose `P` a thread is. -/
def sem : PC → Option SemRef
  | execBmsem _ => some .bmsem
  | execMutex _ pid _ => some (.mutex pid)
  | execAddrLock _ _ => some .addrLock
  | joinWait pid _ _ => some (.joinsem pid)
  | exitWait _ pid _ => some (.exitsem pid)
  | _ => none

/-- Where a `P` that passes leads. -/
def afterP : PC → PC
  | execBmsem f => execEntered f
  | execMutex f pid parentid => execLocked f pid parentid
  | execAddrLock pid parentid => execSpace pid parentid
  | joinWait pid id joinee => joinWoken pid id joinee
  | exitWait ec pid parentid => exitWaited ec pid parentid
  | pc => pc

/-- The code a thread has passed to `ExitUpdate`. -/
def exitCode : PC → Option Int
  | exitWait ec _ _ | exitWaited ec _ _ | exitJoinReleased ec _ _ | exitReleased ec _ | done ec =>
      some ec
  | _ => none

/-- The thread has executed its `JoinRelease`, or is the main thread, gone without one. -/
def released : PC → Bool
  | exitJoinReleased _ _ _ | exitReleased _ _ | done _ | gone => true
  | _ => false

end PC

/-- `class PTable`, with the threads made so far: those below `nextTid`.  `pidOf` and `parent` are
history: the slot a thread was made for, and the process that made it. -/
structure Table where
  bm : BitMap MAX_PROCESS
  pcb : Pid → Option PCB
  nextTid : Tid
  pidOf : Tid → Option Pid
  parent : Tid → Option Tid

namespace Table

/-- The loop that looks for the slot of `currentThread`. -/
def find (T : Table) (currentThread : Tid) : Option Pid :=
  (List.finRange MAX_PROCESS).find? fun i =>
    (T.pcb i).any fun b => b.thread == some currentThread

def setPcb (T : Table) (i : Pid) (b : PCB) : Table :=
  { T with pcb := Function.update T.pcb i (some b) }

@[simp] theorem setPcb_bm (T : Table) (i : Pid) (b : PCB) :
    (T.setPcb i b).bm = T.bm := rfl
@[simp] theorem setPcb_nextTid (T : Table) (i : Pid) (b : PCB) :
    (T.setPcb i b).nextTid = T.nextTid := rfl
@[simp] theorem setPcb_pidOf (T : Table) (i : Pid) (b : PCB) :
    (T.setPcb i b).pidOf = T.pidOf := rfl
@[simp] theorem setPcb_parent (T : Table) (i : Pid) (b : PCB) :
    (T.setPcb i b).parent = T.parent := rfl
@[simp] theorem setPcb_pcb (T : Table) (i : Pid) (b : PCB) :
    (T.setPcb i b).pcb = Function.update T.pcb i (some b) := rfl

theorem setPcb_cases {T : Table} {i k : Pid} {b d : PCB} (h : (T.setPcb i b).pcb k = some d) :
    (k = i ∧ d = b) ∨ (k ≠ i ∧ T.pcb k = some d) := by
  by_cases e : k = i
  · subst e
    rw [setPcb_pcb, Function.update_self, Option.some.injEq] at h
    exact .inl ⟨rfl, h.symm⟩
  · rw [setPcb_pcb, Function.update_of_ne e] at h
    exact .inr ⟨e, h⟩

end Table

/-- The state.  `calls` counts the system calls of a thread, `result` is what the last one that
came back returned. -/
structure State where
  table : Table
  gPhysPageBitMap : BitMap NumPhysPages
  spaces : Tid → Option AddrSpace
  pc : Tid → PC
  name : Tid → Name
  halted : Bool
  result : Tid → Int
  calls : Tid → Nat
  sync : Sync SemRef

/-- What the host answers in a step: whether `fileSystem->Open` finds the file, and what is in
it. -/
structure Host where
  opened : Bool
  file : Executable

namespace State

def goto (s : State) (t : Tid) (pc : PC) : State :=
  { s with pc := Function.update s.pc t pc }

/-- One test of the `P` the thread `t` is in. -/
def P (s : State) (t : Tid) : State :=
  match (s.pc t).sem with
  | none => s
  | some r =>
      match s.sync.P t r with
      | (sync, true) => { s with sync := sync }.goto t (s.pc t).afterP
      | (sync, false) => { s with sync := sync }

def V (s : State) (r : SemRef) : State := { s with sync := s.sync.V r }

def setPcb (s : State) (i : Pid) (b : PCB) : State := { s with table := s.table.setPcb i b }

/-- A system call returns to user code. -/
def ret (s : State) (t : Tid) (r : Int) : State :=
  { s with result := Function.update s.result t r }.goto t .user

/-- The thread in a slot. -/
def holder (s : State) (i : Pid) : Option Tid := (s.table.pcb i).bind PCB.thread

/-- The frames of the address space of a thread. -/
def frames (s : State) (t : Tid) : Option (List Nat) := (s.spaces t).map AddrSpace.frames

/-! ### `ExecUpdate` -/

/-- `bmsem->V(); return -1;` -/
def refuse (s : State) (t : Tid) : State := (s.V .bmsem).goto t (.execRet (-1))

/-- `pcb[pid] = new PCB();` and the call of `PCB::Exec`. -/
def newPCB (s : State) (t : Tid) (filename : Name) (bm : BitMap MAX_PROCESS) (pid : Pid)
    (parentid : Option Pid) : State :=
  { s with
    table := { s.table with bm := bm }.setPcb pid PCB.new
    sync := ((s.sync.renew (.joinsem pid) 0).renew (.exitsem pid) 0).renew (.mutex pid) 1 }.goto t
      (.execMutex filename pid parentid)

/-- `ExecUpdate` behind `bmsem->P()`. -/
def execEntered (s : State) (t : Tid) (filename : Option Name) (host : Host) : State :=
  match filename with
  | none => s.refuse t
  | some filename =>
      if host.opened = false then s.refuse t
      else if s.table.bm.numClear = MAX_PROCESS then
        (s.newPCB t filename (s.table.bm.mark 0) 0 none).P t
      else if strn (s.name t) = strn filename then s.refuse t
      else
        match s.table.find t with
        | none => s.refuse t
        | some parentid =>
            match s.table.bm.find with
            | (none, _) => s.refuse t
            | (some pid, bm) => (s.newPCB t filename bm pid (some parentid)).P t

/-- `new Thread(fileName)`: the thread `nextTid`, made by `t` for the slot `pid`. -/
def newThread (s : State) (t : Tid) (filename : Name) (pid : Pid) (parentid : Option Pid) :
    State :=
  let c := s.table.nextTid
  { s with
    table := { s.table with
      nextTid := c + 1
      pidOf := Function.update s.table.pidOf c (some pid)
      parent := Function.update s.table.parent c (parentid.map fun _ => t) }
    name := Function.update s.name c (strn filename)
    sync := { s.sync with status := Function.update s.sync.status c .justCreated } }.goto c .created

/-- `PCB::Exec` behind `mutex->P()`. -/
def execLocked (s : State) (t : Tid) (filename : Name) (pid : Pid) (parentid : Option Pid)
    (host : Host) : Except Stop State :=
  match s.table.pcb pid with
  | none => .error .nullDeref
  | some b =>
      if b.thread ≠ none ∨ host.opened = false then
        .ok ((s.V (.mutex pid)).goto t (.execFailed pid parentid))
      else
        let b := { b with
          pID := some pid
          parentID := parentid
          fileName := strn filename
          thread := some s.table.nextTid }
        .ok ((((s.newThread t filename pid parentid).setPcb pid b).goto t
          (.execAddrLock pid parentid)).P t)

/-- `ExecUpdate` behind a `PCB::Exec` that returned `-1`. -/
def execFailed (s : State) (t : Tid) (pid : Pid) : State :=
  { s with table := { s.table with bm := s.table.bm.clear pid } }.refuse t

/-- `AddrSpace::AddrSpace` behind `addrLock->P()`, for the thread of the PCB. -/
def execSpace (s : State) (t : Tid) (pid : Pid) (parentid : Option Pid) (host : Host) :
    Except Stop State :=
  match (s.table.pcb pid).bind PCB.thread with
  | none => .error .nullDeref
  | some thread =>
      match AddrSpace.build host.file s.gPhysPageBitMap with
      | .error e => .error e
      | .ok (space, phys) =>
          let s := { s with
            gPhysPageBitMap := phys
            spaces := Function.update s.spaces thread (some space) }
          .ok ((s.V .addrLock).goto t (.execBuilt pid parentid))

/-- `setStatus(READY)` by `Fork`, or `setStatus(RUNNING)` of the root. -/
def wake (s : State) (thread : Tid) : State :=
  { s with sync := { s.sync with status := Function.update s.sync.status thread .ready } }

/-- `Fork`, or at the root the change of `currentThread` to the new thread, which goes on with
`mutex->V()` in the place of the old one. -/
def execBuilt (s : State) (t : Tid) (pid : Pid) (parentid : Option Pid) : Except Stop State :=
  match s.table.pcb pid with
  | none => .error .nullDeref
  | some b =>
      match b.thread with
      | none => .error .nullDeref
      | some thread =>
          let s := s.wake thread
          if b.parentID = none then
            .ok (((s.goto t .gone).goto thread (.execUnlocked pid parentid)).V (.mutex pid))
          else
            .ok ((s.goto thread .user).goto t (.execForked pid parentid))

/-- `IncNumWait`, `bmsem->V()` and the end of `ExecUpdate`.  The root's `IncNumWait` goes through
`pcb[-1]`, in front of the array. -/
def execUnlocked (s : State) (t : Tid) (pid : Pid) (parentid : Option Pid) : Except Stop State :=
  match parentid with
  | none => .ok ((s.V .bmsem).goto t .bootRet)
  | some p =>
      match s.table.pcb p with
      | none => .error .nullDeref
      | some b =>
          .ok (((s.setPcb p { b with numwait := b.numwait + 1 }).V .bmsem).goto t
            (.execRet pid.val))

/-! ### `JoinUpdate` -/

/-- `JoinUpdate` and `JoinWait`. -/
def joinUpdate (s : State) (t : Tid) (id : Int) : Except Stop State :=
  if h : 0 ≤ id ∧ id < MAX_PROCESS then
    let i : Pid := ⟨id.toNat, by omega⟩
    if s.table.bm.test i = false then .ok (s.ret t (-1))
    else
      match s.table.find t with
      | none => .ok (s.ret t (-1))
      | some pid =>
          match s.table.pcb i with
          | none => .error .nullDeref
          | some target =>
              if target.parentID ≠ some pid then .ok (s.ret t (-1))
              else
                match s.table.pcb pid with
                | none => .error .nullDeref
                | some b =>
                    if b.joinID ≠ none then .ok (s.ret t b.joinExitcode)
                    else
                      .ok (((s.setPcb pid { b with joinID := some i }).goto t
                        (.joinWait pid i target.thread)).P t)
  else .ok (s.ret t (-1))

/-- The end of `JoinUpdate`: `joinExitcode` is read when the thread runs again. -/
def joinWoken (s : State) (t : Tid) (pid : Pid) : Except Stop State :=
  match s.table.pcb pid with
  | none => .error .nullDeref
  | some b => .ok (s.ret t b.joinExitcode)

/-! ### `ExitUpdate`

From one `V` to the next: where a `V` is not made, `ExitUpdate` goes on without a scheduling
point. -/

/-- The end of `ExitUpdate`: the PCB, the slot and the address space go, and the thread
finishes. -/
def exitReleased (s : State) (t : Tid) (ec : Int) (pid : Pid) : State :=
  { s with
    table := { s.table with
      pcb := Function.update s.table.pcb pid none
      bm := s.table.bm.clear pid }
    gPhysPageBitMap := (s.spaces t).elim s.gPhysPageBitMap fun sp : AddrSpace =>
      sp.free s.gPhysPageBitMap
    spaces := Function.update s.spaces t none }.goto t (.done ec)

/-- `DecNumWait` and `ExitRelease`. -/
def exitJoinReleased (s : State) (t : Tid) (ec : Int) (pid parentid : Pid) : Except Stop State :=
  match s.table.pcb parentid with
  | none => .error .nullDeref
  | some b =>
      let b := { b with numwait := b.numwait - 1 }
      let s := (s.setPcb parentid b).goto t (.exitReleased ec pid)
      if b.numwait = 0 ∧ b.isExit = true then .ok (s.V (.exitsem parentid))
      else .ok (s.exitReleased t ec pid)

/-- `Halt` at the root, elsewhere `JoinRelease`. -/
def exitWaited (s : State) (t : Tid) (ec : Int) (pid : Pid) (parentid : Option Pid) :
    Except Stop State :=
  match parentid with
  | none => .ok { s with halted := true }
  | some p =>
      match s.table.pcb p with
      | none => .error .nullDeref
      | some b =>
          if b.joinID = some pid then
            .ok (((s.setPcb p { b with joinID := none, joinExitcode := ec }).goto t
              (.exitJoinReleased ec pid p)).V (.joinsem p))
          else (s.goto t (.exitJoinReleased ec pid p)).exitJoinReleased t ec pid p

/-- `ExitUpdate` and `ExitWait`. -/
def exitUpdate (s : State) (t : Tid) (ec : Int) : Except Stop State :=
  match s.table.find t with
  | none => .ok (s.ret t (-1))
  | some pid =>
      match s.table.pcb pid with
      | none => .error .nullDeref
      | some b =>
          if 0 < b.numwait then
            .ok (((s.setPcb pid { b with isExit := true }).goto t
              (.exitWait ec pid b.parentID)).P t)
          else (s.goto t (.exitWaited ec pid b.parentID)).exitWaited t ec pid b.parentID

/-! ### The steps -/

/-- A ready thread goes on from where it is. -/
def resume (s : State) (t : Tid) (host : Host) : Except Stop State :=
  match s.pc t with
  | .execBmsem _ | .execMutex _ _ _ | .execAddrLock _ _ | .joinWait _ _ _ | .exitWait _ _ _ =>
      .ok (s.P t)
  | .execEntered filename => .ok (s.execEntered t filename host)
  | .execLocked filename pid parentid => s.execLocked t filename pid parentid host
  | .execFailed pid _ => .ok (s.execFailed t pid)
  | .execSpace pid parentid => s.execSpace t pid parentid host
  | .execBuilt pid parentid => s.execBuilt t pid parentid
  | .execForked pid parentid => .ok ((s.V (.mutex pid)).goto t (.execUnlocked pid parentid))
  | .execUnlocked pid parentid => s.execUnlocked t pid parentid
  -- without a page table `machine->Run()` aborts in `Translate`
  | .execRet r => if t = 0 then .error .assertFails else .ok (s.ret t r)
  | .bootRet => .ok (s.goto t .user)
  | .joinWoken pid _ _ => s.joinWoken t pid
  | .exitWaited ec pid parentid => s.exitWaited t ec pid parentid
  | .exitJoinReleased ec pid parentid => s.exitJoinReleased t ec pid parentid
  | .exitReleased ec pid => .ok (s.exitReleased t ec pid)
  | .unborn | .created | .boot | .user | .done _ | .gone => .error .disabled

/-- A system call is made. -/
def called (s : State) (t : Tid) : State :=
  { s with calls := Function.update s.calls t (s.calls t + 1) }

/-- The hardware has set use and dirty bits of the page table of `t`. -/
def touch (s : State) (t : Tid) (sp : AddrSpace) (pageTable : List TranslationEntry)
    (h : pageTable.map TranslationEntry.mapping = sp.pageTable.map TranslationEntry.mapping) :
    State :=
  { s with spaces := Function.update s.spaces t (some (sp.touch pageTable h)) }

/-- A thread that may execute its next user instruction. -/
def InUser (s : State) (t : Tid) : Prop := s.sync.status t = .ready ∧ s.pc t = .user

instance (s : State) (t : Tid) : Decidable (s.InUser t) := inferInstanceAs (Decidable (_ ∧ _))

end State

inductive Action where
  /-- `StartProcess`, in the main thread. -/
  | boot (filename : Name)
  | exec (t : Tid) (filename : Option Name)
  | join (t : Tid) (id : Int)
  | exit (t : Tid) (ec : Int)
  | halt (t : Tid)
  /-- A user instruction or a copy routine sets use and dirty bits. -/
  | touch (t : Tid) (pageTable : List TranslationEntry)
  | resume (t : Tid) (host : Host)

/-- The thread whose step an action is. -/
def Action.thread : Action → Tid
  | .boot _ => 0
  | .exec t _ | .join t _ | .exit t _ | .halt t | .touch t _ | .resume t _ => t

open State in
def step (s : State) (a : Action) : Except Stop State :=
  if s.halted then .error .disabled
  else
    match a with
    | .boot filename =>
        if s.sync.status 0 = .ready ∧ s.pc 0 = .boot then
          .ok ((s.goto 0 (.execBmsem (some filename))).P 0)
        else .error .disabled
    | .exec t filename =>
        if s.InUser t then .ok (((s.called t).goto t (.execBmsem filename)).P t)
        else .error .disabled
    | .join t id => if s.InUser t then (s.called t).joinUpdate t id else .error .disabled
    | .exit t ec => if s.InUser t then (s.called t).exitUpdate t ec else .error .disabled
    | .halt t => if s.InUser t then .ok { s with halted := true } else .error .disabled
    | .touch t pageTable =>
        match s.spaces t with
        | none => .error .disabled
        | some sp =>
            if h : pageTable.map TranslationEntry.mapping =
                sp.pageTable.map TranslationEntry.mapping then
              if s.sync.status t = .ready then .ok (s.touch t sp pageTable h)
              else .error .disabled
            else .error .disabled
    | .resume t host =>
        if s.sync.status t = .ready then s.resume t host else .error .disabled

/-- The kernel before `StartProcess`: only the main thread is there.  `heap` is what the host's
memory holds where the words of a new bitmap are. -/
def init (heap : Nat → BitVec 32) : State where
  table := ⟨BitMap.new fun i => heap i, fun _ => none, 1, fun _ => none, fun _ => none⟩
  gPhysPageBitMap := BitMap.new fun i => heap i
  spaces _ := none
  pc := Function.update (fun _ => .unborn) 0 .boot
  name := Function.update (fun _ => []) 0 [109, 97, 105, 110]
  halted := false
  result _ := 0
  calls _ := 0
  sync :=
    ⟨fun r => match r with
      | .bmsem | .addrLock | .mutex _ => Semaphore.new 1
      | .joinsem _ | .exitsem _ => Semaphore.new 0,
    Function.update (fun _ => .justCreated) 0 .ready⟩

/-- A state some run of the kernel reaches. -/
def Reachable (s : State) : Prop := ∃ heap, Steps step always (init heap) s

end Nachos.Proc
