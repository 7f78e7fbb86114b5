import Nachos.Machine.Interrupt

/-!
# Threads — Scheduler

`Thread::Fork`, `Yield`, `Sleep` and `Finish` (threads/thread.cc), `Scheduler::ReadyToRun`,
`FindNextToRun` and `Run` (threads/scheduler.cc), `Semaphore::P` and `V` (threads/synch.cc), with
the interrupt level they rest on (`Interrupt::SetLevel`, `OneTick`, `CheckIfDue`, `YieldOnReturn`
and `Idle`, machine/interrupt.cc), and the start of a thread in `ThreadRoot` (threads/switch.s).

The stack of a thread is the list of what it has still to do, and a step is the next piece of the
thread that has the CPU; what stands between two changes of the level is one piece.  The procedure
of a thread is free to call the operations, to set the level, and to execute user instructions
while interrupts are on; whether an interrupt is due at a check is free too, and its handler may
call `V` on any semaphores and ask to yield.  `Thread::Sleep` is called by `P` and `Finish`.

`events` is history.
-/

namespace Nachos.Sched
open Lib
open Interrupt (IntStatus)

/-- `enum ThreadStatus`. -/
inductive ThreadStatus where
  | justCreated | running | ready | blocked
  deriving DecidableEq, Repr

/-- The operations of the threads. -/
inductive Op where
  | fork (t : Tid)
  | yield
  | P (r : Nat)
  | V (r : Nat)
  | finish
  deriving DecidableEq

/-- What stands on the stack of a thread. -/
inductive Instr where
  /-- `ThreadRoot`, where a thread begins. -/
  | threadRoot
  /-- The procedure of the thread. -/
  | procedure
  | call (op : Op)
  /-- The end of an operation that was called at the level `old`. -/
  | ret (op : Op) (old : IntStatus)
  | setLevel (now : IntStatus)
  /-- The loop of `OneTick`, and what is behind it. -/
  | checkIfDue
  | tickEnd
  /-- The handler of an interrupt. -/
  | handler
  /-- The bodies of `Fork`, `Yield`, `P`, `V` and `Finish`. -/
  | forking (t : Tid)
  | yielding (this : Tid)
  | waiting (r : Nat)
  | signalling (r : Nat)
  | finishing (this : Tid)
  /-- The loop of `Sleep`. -/
  | sleepLoop
  /-- `Idle`, and its loop. -/
  | idle
  | idleLoop
  /-- What `Scheduler::Run` does behind `SWITCH`. -/
  | afterSwitch
  deriving DecidableEq

inductive Event where
  /-- `ReadyToRun` and `FindNextToRun`. -/
  | readied (t : Tid)
  | dispatched (t : Tid)
  /-- `SWITCH` goes to `ThreadRoot`, or returns in a thread. -/
  | entered (t : Tid)
  | resumed (t : Tid)
  | finished (t : Tid)
  | deleted (t : Tid)
  deriving DecidableEq

structure State where
  currentThread : Tid
  stack : Tid → List Instr
  status : Tid → ThreadStatus
  readyList : List Tid
  sems : Nat → Semaphore
  level : IntStatus
  inHandler : Bool
  yieldOnReturn : Bool
  threadToBeDestroyed : Option Tid
  halted : Bool
  events : List Event

/-- What an operation does behind its first `SetLevel(IntOff)`, which has returned `oldLevel`. -/
def Op.code (this : Tid) (oldLevel : IntStatus) : Op → List Instr
  | fork t => [.forking t, .setLevel oldLevel, .ret (.fork t) oldLevel]
  | yield => [.yielding this, .setLevel oldLevel, .ret .yield oldLevel]
  | P r => [.waiting r, .setLevel oldLevel, .ret (.P r) oldLevel]
  | V r => [.signalling r, .setLevel oldLevel, .ret (.V r) oldLevel]
  | finish => [.finishing this]

namespace State

/-- `currentThread` goes on with `rest`. -/
def goto (s : State) (rest : List Instr) : State :=
  { s with stack := Function.update s.stack s.currentThread rest }

def log (s : State) (e : Event) : State := { s with events := s.events ++ [e] }

/-! ### Interrupts -/

/-- `Interrupt::OneTick`, up to its loop. -/
def oneTick (s : State) (rest : List Instr) : State :=
  { s with level := .intOff }.goto (.checkIfDue :: .tickEnd :: rest)

/-- `Interrupt::SetLevel`. -/
def setLevel (s : State) (now : IntStatus) (rest : List Instr) : Except Stop State :=
  if now = .intOff ∨ s.inHandler = false then
    let old := s.level
    let s := { s with level := now }
    .ok (if now = .intOn ∧ old = .intOff then s.oneTick rest else s.goto rest)
  else .error .assertFails

/-- `Interrupt::CheckIfDue`: a handler is called, or nothing is due. -/
def checkIfDue (s : State) (due : Bool) (called none : List Instr) : Except Stop State :=
  if s.level = .intOff then
    .ok (if due then { s with inHandler := true }.goto (.handler :: called) else s.goto none)
  else .error .assertFails

/-- The end of `OneTick`. -/
def tickEnd (s : State) (rest : List Instr) : State :=
  let s := { s with level := .intOn }
  if s.yieldOnReturn then { s with yieldOnReturn := false }.goto (.call .yield :: rest)
  else s.goto rest

/-- `Interrupt::YieldOnReturn`. -/
def asksToYield (s : State) : Except Stop State :=
  if s.inHandler = true then .ok { s with yieldOnReturn := true } else .error .assertFails

/-- `Interrupt::Idle`, up to its loop: with nothing pending the machine halts. -/
def idle (s : State) (due : Bool) (rest : List Instr) : Except Stop State :=
  match s.checkIfDue due (.idleLoop :: rest) rest with
  | .ok s => .ok (if due then s else { s with halted := true })
  | .error e => .error e

/-- The loop of `Idle`. -/
def idleLoop (s : State) (due : Bool) (rest : List Instr) : Except Stop State :=
  match s.checkIfDue due (.idleLoop :: rest) rest with
  | .ok s => .ok (if due then s else { s with yieldOnReturn := false })
  | .error e => .error e

/-! ### The scheduler -/

/-- `Scheduler::ReadyToRun`. -/
def readyToRun (s : State) (thread : Tid) : State :=
  { s with
    status := Function.update s.status thread .ready
    readyList := s.readyList ++ [thread] }.log (.readied thread)

/-- `Scheduler::FindNextToRun`. -/
def findNextToRun (s : State) : Option Tid × State :=
  match s.readyList with
  | [] => (none, s)
  | thread :: readyList => (some thread, { s with readyList := readyList }.log (.dispatched thread))

/-- `SWITCH` to `t`. -/
def switched (s : State) (t : Tid) : Event :=
  if (s.stack t).head? = some .threadRoot then .entered t else .resumed t

/-- `Scheduler::Run`, up to `SWITCH`. -/
def run (s : State) (nextThread : Tid) (rest : List Instr) : State :=
  let s := s.goto (.afterSwitch :: rest)
  let s := { s with
    currentThread := nextThread
    status := Function.update s.status nextThread .running }
  s.log (s.switched nextThread)

/-- What `Run` does behind `SWITCH`, with the destructor of `Thread`. -/
def afterSwitch (s : State) (rest : List Instr) : Except Stop State :=
  match s.threadToBeDestroyed with
  | none => .ok (s.goto rest)
  | some thread =>
      if thread ≠ s.currentThread then
        .ok (({ s with threadToBeDestroyed := none }.log (.deleted thread)).goto rest)
      else .error .assertFails

/-! ### The operations -/

/-- `Thread::StackAllocate`. -/
def stackAllocate (s : State) (t : Tid) : State :=
  { s with stack := Function.update s.stack t [.threadRoot] }

/-- An operation is called.  A thread is forked once: its callers fork what they have just made. -/
def call (s : State) (op : Op) (rest : List Instr) : Except Stop State :=
  let enter (s : State) := s.setLevel .intOff (op.code s.currentThread s.level ++ rest)
  match op with
  | .fork t => if s.stack t = [] then enter (s.stackAllocate t) else .error .disabled
  | _ => enter s

/-- `Thread::Sleep`, up to its loop. -/
def sleep (s : State) (this : Tid) (rest : List Instr) : Except Stop State :=
  if this = s.currentThread ∧ s.level = .intOff then
    .ok ({ s with status := Function.update s.status this .blocked }.goto (.sleepLoop :: rest))
  else .error .assertFails

/-- One pass of the loop of `Thread::Sleep`. -/
def sleepLoop (s : State) (rest : List Instr) : State :=
  match s.findNextToRun with
  | (some nextThread, s) => s.run nextThread rest
  | (none, s) => s.goto (.idle :: .sleepLoop :: rest)

/-- `Thread::Yield`. -/
def yielding (s : State) (this : Tid) (rest : List Instr) : Except Stop State :=
  if this = s.currentThread then
    match s.findNextToRun with
    | (some nextThread, s) => .ok ((s.readyToRun this).run nextThread rest)
    | (none, s) => .ok (s.goto rest)
  else .error .assertFails

/-- `Thread::Finish`. -/
def finishing (s : State) (this : Tid) (rest : List Instr) : Except Stop State :=
  if this = s.currentThread then
    ({ s with threadToBeDestroyed := some s.currentThread }.log (.finished this)).sleep this rest
  else .error .assertFails

/-- One pass of the loop of `Semaphore::P`. -/
def waiting (s : State) (r : Nat) (rest : List Instr) : Except Stop State :=
  match (s.sems r).P s.currentThread with
  | (sem, true) => .ok ({ s with sems := Function.update s.sems r sem }.goto rest)
  | (sem, false) =>
      { s with sems := Function.update s.sems r sem }.sleep s.currentThread (.waiting r :: rest)

/-- `Semaphore::V`. -/
def signalling (s : State) (r : Nat) (rest : List Instr) : State :=
  match (s.sems r).V with
  | (sem, some thread) => ({ s with sems := Function.update s.sems r sem }.readyToRun thread).goto rest
  | (sem, none) => { s with sems := Function.update s.sems r sem }.goto rest

end State

inductive Action where
  /-- The next piece. -/
  | exec
  /-- What a procedure or a handler does. -/
  | calls (op : Op)
  | sets (now : IntStatus)
  | tick
  | asks
  | returns
  /-- What a check for interrupts finds. -/
  | due (due : Bool)
  deriving DecidableEq

open State in
/-- `currentThread` has come to `i`, with `rest` behind it. -/
def State.execute (s : State) (i : Instr) (rest : List Instr) (a : Action) : Except Stop State :=
  match i, a with
  | .threadRoot, .exec => .ok (s.goto (.setLevel .intOn :: .procedure :: .call .finish :: rest))
  | .procedure, .calls op => .ok (s.goto (.call op :: .procedure :: rest))
  | .procedure, .sets now => .ok (s.goto (.setLevel now :: .procedure :: rest))
  | .procedure, .tick =>
      if s.level = .intOn then .ok (s.oneTick (.procedure :: rest)) else .error .disabled
  | .procedure, .returns => .ok (s.goto rest)
  | .call op, .exec => s.call op rest
  | .ret _ _, .exec => .ok (s.goto rest)
  | .setLevel now, .exec => s.setLevel now rest
  | .checkIfDue, .due due => s.checkIfDue due (.checkIfDue :: rest) rest
  | .tickEnd, .exec => .ok (s.tickEnd rest)
  | .handler, .calls (.V r) => .ok (s.goto (.call (.V r) :: .handler :: rest))
  | .handler, .asks => s.asksToYield
  | .handler, .returns => .ok ({ s with inHandler := false }.goto rest)
  | .forking t, .exec => .ok ((s.readyToRun t).goto rest)
  | .yielding this, .exec => s.yielding this rest
  | .waiting r, .exec => s.waiting r rest
  | .signalling r, .exec => .ok (s.signalling r rest)
  | .finishing this, .exec => s.finishing this rest
  | .sleepLoop, .exec => .ok (s.sleepLoop rest)
  | .idle, .due due => s.idle due rest
  | .idleLoop, .due due => s.idleLoop due rest
  | .afterSwitch, .exec => s.afterSwitch rest
  | _, _ => .error .disabled

def step (s : State) (a : Action) : Except Stop State :=
  if s.halted then .error .disabled
  else
    match s.stack s.currentThread with
    | [] => .error .disabled
    | i :: rest => s.execute i rest a

/-- `Initialize`, at `interrupt->Enable()`: the main thread, and semaphores with any values. -/
def init (values : Nat → Int) : State where
  currentThread := 0
  stack := Function.update (fun _ => []) 0 [.setLevel .intOn, .procedure, .call .finish]
  status := Function.update (fun _ => .justCreated) 0 .running
  readyList := []
  sems r := .new (values r)
  level := .intOff
  inHandler := false
  yieldOnReturn := false
  threadToBeDestroyed := none
  halted := false
  events := []

/-! ### What a step does -/

/-- The steps that move no thread: `this` comes to an instruction at a level, in a handler or not,
and goes on with others. -/
inductive Control (this : Tid) : Instr → IntStatus → Bool → List Instr → IntStatus → Bool → Prop where
  | threadRoot {l : IntStatus} {h : Bool} : Control this .threadRoot l h
      [.setLevel .intOn, .procedure, .call .finish] l h
  | calls {l : IntStatus} {h : Bool} (op : Op) : Control this .procedure l h [.call op, .procedure] l h
  | sets {l : IntStatus} {h : Bool} (now : IntStatus) : Control this .procedure l h
      [.setLevel now, .procedure] l h
  | tick {h : Bool} : Control this .procedure .intOn h [.checkIfDue, .tickEnd, .procedure] .intOff h
  | returns {l : IntStatus} {h : Bool} : Control this .procedure l h [] l h
  | call {l : IntStatus} {h : Bool} {op : Op} (hop : ∀ t, op ≠ .fork t) :
      Control this (.call op) l h (op.code this l) .intOff h
  | ret {l : IntStatus} {h : Bool} (op : Op) (old : IntStatus) : Control this (.ret op old) l h [] l h
  | setLevel {l : IntStatus} {h : Bool} (now : IntStatus) :
      Control this (.setLevel now) l h [] now h
  | enables {h : Bool} : Control this (.setLevel .intOn) .intOff h [.checkIfDue, .tickEnd] .intOff h
  | due {h : Bool} : Control this .checkIfDue .intOff h [.handler, .checkIfDue] .intOff true
  | notDue {h : Bool} : Control this .checkIfDue .intOff h [] .intOff h
  | tickEnd {l : IntStatus} {h : Bool} : Control this .tickEnd l h [] .intOn h
  | tickYield {l : IntStatus} {h : Bool} : Control this .tickEnd l h [.call .yield] .intOn h
  | handlerV {l : IntStatus} {h : Bool} (r : Nat) : Control this .handler l h
      [.call (.V r), .handler] l h
  | asks {l : IntStatus} {h : Bool} : Control this .handler l h [.handler] l h
  | handled {l : IntStatus} {h : Bool} : Control this .handler l h [] l false
  | noneReady {l : IntStatus} {h : Bool} : Control this (.yielding this) l h [] l h
  | consumes {l : IntStatus} {h : Bool} (r : Nat) : Control this (.waiting r) l h [] l h
  | noneWaits {l : IntStatus} {h : Bool} (r : Nat) : Control this (.signalling r) l h [] l h
  | idles {l : IntStatus} {h : Bool} : Control this .sleepLoop l h [.idle, .sleepLoop] l h
  | idleDue {h : Bool} : Control this .idle .intOff h [.handler, .idleLoop] .intOff true
  | halts {h : Bool} : Control this .idle .intOff h [] .intOff h
  | idleAgain {h : Bool} : Control this .idleLoop .intOff h [.handler, .idleLoop] .intOff true
  | idleEnd {h : Bool} : Control this .idleLoop .intOff h [] .intOff h

/-- What no `Control` changes. -/
structure Still (s s' : State) : Prop where
  currentThread : s'.currentThread = s.currentThread
  status : s'.status = s.status
  readyList : s'.readyList = s.readyList
  queue : ∀ r, (s'.sems r).queue = (s.sems r).queue
  threadToBeDestroyed : s'.threadToBeDestroyed = s.threadToBeDestroyed
  events : s'.events = s.events

/-- A thread is taken off the ready list. -/
def State.dispatch (s : State) (next : Tid) (readyList : List Tid) : State :=
  { s with readyList := readyList }.log (.dispatched next)

/-- What a step can do. -/
inductive Moves (s : State) : State → Prop where
  | control {s' : State} {i : Instr} {rest n : List Instr}
      (hi : s.stack s.currentThread = i :: rest)
      (hc : Control s.currentThread i s.level s.inHandler n s'.level s'.inHandler)
      (hst : s'.stack = Function.update s.stack s.currentThread (n ++ rest)) (h : Still s s') :
      Moves s s'
  | forks {t : Tid} {rest : List Instr} (hi : s.stack s.currentThread = .call (.fork t) :: rest)
      (ht : s.stack t = []) :
      Moves s ({ s.stackAllocate t with level := .intOff }.goto
        ((Op.fork t).code s.currentThread s.level ++ rest))
  | forking {t : Tid} {rest : List Instr} (hi : s.stack s.currentThread = .forking t :: rest) :
      Moves s ((s.readyToRun t).goto rest)
  | yields {next : Tid} {l : List Tid} {rest : List Instr}
      (hi : s.stack s.currentThread = .yielding s.currentThread :: rest)
      (hl : s.readyList = next :: l) :
      Moves s (((s.dispatch next l).readyToRun s.currentThread).run next rest)
  | waits {r : Nat} {rest : List Instr} (hi : s.stack s.currentThread = .waiting r :: rest)
      (hv : (s.sems r).value = 0) :
      Moves s ({ s with
        sems := Function.update s.sems r
          { s.sems r with queue := (s.sems r).queue ++ [s.currentThread] }
        status := Function.update s.status s.currentThread .blocked }.goto
          (.sleepLoop :: .waiting r :: rest))
  | wakes {r : Nat} {t : Tid} {queue : List Tid} {rest : List Instr}
      (hi : s.stack s.currentThread = .signalling r :: rest) (hq : (s.sems r).queue = t :: queue) :
      Moves s (({ s with
        sems := Function.update s.sems r ⟨(s.sems r).value + 1, queue⟩ }.readyToRun t).goto rest)
  | finishes {rest : List Instr}
      (hi : s.stack s.currentThread = .finishing s.currentThread :: rest) :
      Moves s (({ s with
        threadToBeDestroyed := some s.currentThread
        status := Function.update s.status s.currentThread .blocked }.log
          (.finished s.currentThread)).goto (.sleepLoop :: rest))
  | dispatches {next : Tid} {l : List Tid} {rest : List Instr}
      (hi : s.stack s.currentThread = .sleepLoop :: rest) (hl : s.readyList = next :: l) :
      Moves s ((s.dispatch next l).run next rest)
  | passes {rest : List Instr} (hi : s.stack s.currentThread = .afterSwitch :: rest)
      (ht : s.threadToBeDestroyed = none) : Moves s (s.goto rest)
  | reaps {t : Tid} {rest : List Instr} (hi : s.stack s.currentThread = .afterSwitch :: rest)
      (ht : s.threadToBeDestroyed = some t) :
      Moves s (({ s with threadToBeDestroyed := none }.log (.deleted t)).goto rest)

section
variable {s s' : State} {rest : List Instr}

theorem Moves.of_control {i : Instr} {n : List Instr} {l : IntStatus} {h : Bool}
    (hi : s.stack s.currentThread = i :: rest)
    (hc : Control s.currentThread i s.level s.inHandler n l h) (y b : Bool) :
    Moves s ({ s with level := l, inHandler := h, yieldOnReturn := y, halted := b }.goto
      (n ++ rest)) :=
  .control hi hc rfl ⟨rfl, rfl, rfl, fun _ => rfl, rfl, rfl⟩

theorem setLevel_moves {now : IntStatus} (hi : s.stack s.currentThread = .setLevel now :: rest)
    (hok : s.setLevel now rest = .ok s') : Moves s s' := by
  unfold State.setLevel at hok
  split at hok
  · dsimp only at hok
    split at hok
    · rename_i h
      obtain ⟨rfl, hl⟩ := h
      cases hok
      exact .of_control hi (by rw [hl]; exact .enables) _ _
    · cases hok
      exact .of_control hi (.setLevel now) _ _
  · cases hok

theorem checkIfDue_moves {i : Instr} {due : Bool} (called none : List Instr) (y b : Bool)
    (hok : s.checkIfDue due (called ++ rest) (none ++ rest) = .ok s')
    (hi : s.stack s.currentThread = i :: rest)
    (hc : s.level = .intOff → Control s.currentThread i .intOff s.inHandler (.handler :: called)
      .intOff true)
    (hn : s.level = .intOff → Control s.currentThread i .intOff s.inHandler none
      .intOff s.inHandler) :
    Moves s { s' with yieldOnReturn := y, halted := b } := by
  unfold State.checkIfDue at hok
  split at hok
  · rename_i hl
    split at hok
    · cases hok
      exact .of_control hi (hl ▸ hc hl) y b
    · cases hok
      refine .control (n := none) hi ?_ rfl ⟨rfl, rfl, rfl, fun _ => rfl, rfl, rfl⟩
      show Control _ i s.level _ none s.level s.inHandler
      rw [hl]
      exact hn hl
  · cases hok

theorem call_moves {op : Op} (hi : s.stack s.currentThread = .call op :: rest)
    (hok : s.call op rest = .ok s') : Moves s s' := by
  have henter : ∀ {x : State}, x.setLevel .intOff (op.code x.currentThread x.level ++ rest) =
      .ok s' → s' = { x with level := .intOff }.goto (op.code x.currentThread x.level ++ rest) := by
    intro x h
    simp only [State.setLevel, true_or, if_true] at h
    cases h
    rfl
  cases op with
  | fork t =>
      simp only [State.call] at hok
      split at hok
      · rename_i ht
        rw [henter hok]
        exact .forks hi ht
      · cases hok
  | _ =>
      rw [henter hok]
      exact .of_control hi (.call nofun) _ _

theorem yielding_moves {this : Tid} (hi : s.stack s.currentThread = .yielding this :: rest)
    (hok : s.yielding this rest = .ok s') : Moves s s' := by
  unfold State.yielding State.findNextToRun at hok
  split at hok
  · rename_i hthis
    subst hthis
    cases hl : s.readyList with
    | nil =>
        rw [hl] at hok
        cases hok
        exact .of_control hi .noneReady _ _
    | cons next l =>
        rw [hl] at hok
        cases hok
        exact .yields hi hl
  · cases hok

theorem sleep_ok {this : Tid} (hok : s.sleep this rest = .ok s') :
    s' = { s with status := Function.update s.status this .blocked }.goto (.sleepLoop :: rest) := by
  unfold State.sleep at hok
  split at hok
  · cases hok; rfl
  · cases hok

theorem waiting_moves {r : Nat} (hi : s.stack s.currentThread = .waiting r :: rest)
    (hok : s.waiting r rest = .ok s') : Moves s s' := by
  unfold State.waiting at hok
  by_cases hv : (s.sems r).value = 0
  · rw [Semaphore.P_zero hv] at hok
    rw [sleep_ok hok]
    exact .waits hi hv
  · rw [Semaphore.P_pos hv] at hok
    cases hok
    refine .control (n := []) hi (.consumes r) rfl ⟨rfl, rfl, rfl, fun r' => ?_, rfl, rfl⟩
    show (Function.update s.sems r _ r').queue = _
    by_cases e : r' = r
    · rw [e, Function.update_self]
    · rw [Function.update_of_ne e]

theorem signalling_moves {r : Nat} (hi : s.stack s.currentThread = .signalling r :: rest) :
    Moves s (s.signalling r rest) := by
  unfold State.signalling
  cases hq : (s.sems r).queue with
  | nil =>
      rw [Semaphore.V_nil hq]
      refine .control (n := []) hi (.noneWaits r) rfl ⟨rfl, rfl, rfl, fun r' => ?_, rfl, rfl⟩
      show (Function.update s.sems r _ r').queue = _
      by_cases e : r' = r
      · rw [e, Function.update_self]
      · rw [Function.update_of_ne e]
  | cons t queue =>
      rw [Semaphore.V_cons hq]
      exact .wakes hi hq

theorem finishing_moves {this : Tid} (hi : s.stack s.currentThread = .finishing this :: rest)
    (hok : s.finishing this rest = .ok s') : Moves s s' := by
  unfold State.finishing at hok
  split at hok
  · rename_i hthis
    subst hthis
    rw [sleep_ok hok]
    exact .finishes hi
  · cases hok

theorem sleepLoop_moves (hi : s.stack s.currentThread = .sleepLoop :: rest) :
    Moves s (s.sleepLoop rest) := by
  unfold State.sleepLoop State.findNextToRun
  cases hl : s.readyList with
  | nil => exact .of_control hi .idles _ _
  | cons next l => exact .dispatches hi hl

theorem afterSwitch_moves (hi : s.stack s.currentThread = .afterSwitch :: rest)
    (hok : s.afterSwitch rest = .ok s') : Moves s s' := by
  unfold State.afterSwitch at hok
  cases ht : s.threadToBeDestroyed with
  | none =>
      rw [ht] at hok
      cases hok
      exact .passes hi ht
  | some t =>
      simp only [ht] at hok
      split at hok
      · cases hok
        exact .reaps hi ht
      · cases hok

theorem tickEnd_moves (hi : s.stack s.currentThread = .tickEnd :: rest) : Moves s (s.tickEnd rest) := by
  unfold State.tickEnd
  dsimp only
  split
  · exact .of_control hi .tickYield _ _
  · exact .of_control hi .tickEnd _ _

theorem idle_moves {due : Bool} (hi : s.stack s.currentThread = .idle :: rest)
    (hok : s.idle due rest = .ok s') : Moves s s' := by
  unfold State.idle at hok
  split at hok
  · rename_i s₁ h₁
    have hm := fun y b =>
      checkIfDue_moves [.idleLoop] [] y b h₁ hi (fun _ => .idleDue) fun _ => .halts
    split at hok <;> cases hok <;> exact hm _ _
  · cases hok

theorem idleLoop_moves {due : Bool} (hi : s.stack s.currentThread = .idleLoop :: rest)
    (hok : s.idleLoop due rest = .ok s') : Moves s s' := by
  unfold State.idleLoop at hok
  split at hok
  · rename_i s₁ h₁
    have hm := fun y b =>
      checkIfDue_moves [.idleLoop] [] y b h₁ hi (fun _ => .idleAgain) fun _ => .idleEnd
    split at hok <;> cases hok <;> exact hm _ _
  · cases hok

/-- The procedure of a thread does as it likes. -/
theorem procedure_moves {a : Action} (hi : s.stack s.currentThread = .procedure :: rest)
    (hok : s.execute .procedure rest a = .ok s') : Moves s s' := by
  cases a with
  | calls op => cases hok; exact .of_control hi (.calls op) _ _
  | sets now => cases hok; exact .of_control hi (.sets now) _ _
  | tick =>
      simp only [State.execute] at hok
      split at hok
      · rename_i hl
        cases hok
        exact .of_control hi (by rw [hl]; exact .tick) _ _
      · cases hok
  | returns => cases hok; exact .of_control hi .returns _ _
  | _ => cases hok

/-- A handler may call `V` and ask for a `Yield`. -/
theorem handler_moves {a : Action} (hi : s.stack s.currentThread = .handler :: rest)
    (hok : s.execute .handler rest a = .ok s') : Moves s s' := by
  cases a with
  | calls op =>
      cases op with
      | V r => cases hok; exact .of_control hi (.handlerV r) _ _
      | _ => cases hok
  | asks =>
      simp only [State.execute, State.asksToYield] at hok
      split at hok
      · cases hok
        refine .control (n := [.handler]) hi .asks ?_ ⟨rfl, rfl, rfl, fun _ => rfl, rfl, rfl⟩
        exact (Function.update_eq_self_iff.mpr hi.symm).symm
      · cases hok
  | returns => cases hok; exact .of_control hi .handled _ _
  | _ => cases hok

/-- The piece goes on with what is due. -/
theorem due_moves {i : Instr} {due : Bool} (hi : s.stack s.currentThread = i :: rest)
    (hok : s.execute i rest (.due due) = .ok s') : Moves s s' := by
  cases i with
  | checkIfDue => exact checkIfDue_moves [.checkIfDue] [] _ _ hok hi (fun _ => .due) fun _ => .notDue
  | idle => exact idle_moves hi hok
  | idleLoop => exact idleLoop_moves hi hok
  | _ => cases hok

/-- The next piece. -/
theorem exec_moves {i : Instr} (hi : s.stack s.currentThread = i :: rest)
    (hok : s.execute i rest .exec = .ok s') : Moves s s' := by
  cases i with
  | threadRoot => cases hok; exact .of_control hi .threadRoot _ _
  | call op => exact call_moves hi hok
  | ret op old => cases hok; exact .of_control hi (.ret op old) _ _
  | setLevel now => exact setLevel_moves hi hok
  | tickEnd => cases hok; exact tickEnd_moves hi
  | forking t => cases hok; exact .forking hi
  | yielding this => exact yielding_moves hi hok
  | waiting r => exact waiting_moves hi hok
  | signalling r => cases hok; exact signalling_moves hi
  | finishing this => exact finishing_moves hi hok
  | sleepLoop => cases hok; exact sleepLoop_moves hi
  | afterSwitch => exact afterSwitch_moves hi hok
  | procedure | handler | checkIfDue | idle | idleLoop => cases hok

/-- What a procedure or a handler may do, no other piece does. -/
theorem execute_cases {i : Instr} (s : State) (rest : List Instr) (a : Action)
    (hi : i ≠ .procedure ∧ i ≠ .handler) :
    a = .exec ∨ (∃ due, a = .due due) ∨ s.execute i rest a = .error .disabled := by
  cases a with
  | exec => exact .inl rfl
  | due d => exact .inr (.inl ⟨d, rfl⟩)
  | _ =>
      refine .inr (.inr ?_)
      cases i with
      | procedure => exact absurd rfl hi.1
      | handler => exact absurd rfl hi.2
      | _ => rfl

/-- **A step is one of the moves.** -/
theorem step_moves {a : Action} (hok : step s a = .ok s') : Moves s s' := by
  unfold step at hok
  split at hok
  · cases hok
  split at hok
  · cases hok
  rename_i i rest hi
  -- what a procedure and a handler do is theirs to choose; any other piece has one thing to do
  by_cases hp : i = .procedure
  · subst hp
    exact procedure_moves hi hok
  by_cases hh : i = .handler
  · subst hh
    exact handler_moves hi hok
  rcases execute_cases s rest a ⟨hp, hh⟩ with rfl | ⟨d, rfl⟩ | he
  · exact exec_moves hi hok
  · exact due_moves hi hok
  · rw [he] at hok
    cases hok

end

end Nachos.Sched
