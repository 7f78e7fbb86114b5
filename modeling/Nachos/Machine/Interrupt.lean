import Nachos.Lib.Keyed
import Nachos.Lib.Runs
import Nachos.Threads.Semaphore

/-!
# Machine — interrupts

The simulation of hardware interrupts: the list of pending interrupts, sorted by the time they are
due, and the clock.  What a handler does to it is any list of requests: to schedule a further
interrupt, or to yield on return.  `OneTick` ends in `Thread::Yield` when one asked for it; the
calls other threads make until `Yield` returns are steps of the run like any others, and its last
one is the `OneTick` of `SetLevel(IntOn)`.

`scheduled` and `fired` are all interrupts ever scheduled, and those fired with the time of the
clock, each in order; `ticked` says that a `OneTick` has just returned.
-/

namespace Nachos.Interrupt
open Lib

inductive IntStatus where
  | intOff | intOn
  deriving DecidableEq

inductive MachineStatus where
  | idleMode | systemMode | userMode
  deriving DecidableEq

inductive IntType where
  | timerInt | diskInt | consoleWriteInt | consoleReadInt | networkSendInt | networkRecvInt
  deriving DecidableEq

def UserTick : Int := 1
def SystemTick : Int := 10

/-- `class PendingInterrupt`.  The object is named by the number of the call that made it. -/
structure PendingInterrupt where
  id : Nat
  handler : Nat
  arg : Int
  when : Int
  type : IntType
  deriving DecidableEq

/-- What a handler asks for. -/
inductive Request where
  | schedule (handler : Nat) (arg fromNow : Int) (type : IntType)
  | yieldOnReturn

structure State where
  level : IntStatus
  pending : List (Int × PendingInterrupt)
  inHandler : Bool
  yieldOnReturn : Bool
  status : MachineStatus
  totalTicks : Int
  idleTicks : Int
  systemTicks : Int
  userTicks : Int
  halted : Bool
  scheduled : List PendingInterrupt
  fired : List (PendingInterrupt × Int)
  ticked : Bool

/-- What the handlers do, when an interrupt fires in a state. -/
abbrev Handlers := PendingInterrupt → State → List Request

namespace State

/-- `Interrupt::Interrupt`, at time 0. -/
def new : State where
  level := .intOff
  pending := []
  inHandler := false
  yieldOnReturn := false
  status := .systemMode
  totalTicks := 0
  idleTicks := 0
  systemTicks := 0
  userTicks := 0
  halted := false
  scheduled := []
  fired := []
  ticked := false

/-- `Interrupt::Schedule`. -/
def schedule (s : State) (handler : Nat) (arg fromNow : Int) (type : IntType) :
    Except Stop State :=
  let when := s.totalTicks + fromNow
  let toOccur := ⟨s.scheduled.length, handler, arg, when, type⟩
  if 0 < fromNow then
    .ok { s with
      pending := Keyed.insert when toOccur s.pending
      scheduled := s.scheduled ++ [toOccur] }
  else .error .assertFails

/-- One request of a handler. -/
def request (s : State) : Request → Except Stop State
  | .schedule handler arg fromNow type => s.schedule handler arg fromNow type
  | .yieldOnReturn =>
      if s.inHandler = true then .ok { s with yieldOnReturn := true } else .error .assertFails

/-- A handler runs. -/
def requests (s : State) : List Request → Except Stop State
  | [] => .ok s
  | r :: rs =>
      match s.request r with
      | .ok s => s.requests rs
      | .error e => .error e

/-- `CheckIfDue`, from where the clock has been advanced or the interrupt is due; `toOccur` is off
the list. -/
def dispatch (s : State) (h : Handlers) (when : Int) (toOccur : PendingInterrupt) :
    Except Stop (Bool × State) :=
  if s.status = .idleMode ∧ toOccur.type = .timerInt ∧ s.pending = [] then
    .ok (false, { s with pending := Keyed.insert when toOccur s.pending })
  else
    let old := s.status
    let s := { s with
      inHandler := true
      status := .systemMode
      fired := s.fired ++ [(toOccur, s.totalTicks)] }
    match s.requests (h toOccur s) with
    | .ok s => .ok (true, { s with status := old, inHandler := false })
    | .error e => .error e

/-- `Interrupt::CheckIfDue`. -/
def checkIfDue (s : State) (h : Handlers) (advanceClock : Bool) : Except Stop (Bool × State) :=
  if s.level ≠ .intOff then .error .assertFails
  else
    match s.pending with
    | [] => .ok (false, s)
    | (when, toOccur) :: pending =>
        let s := { s with pending := pending }
        if advanceClock = true ∧ s.totalTicks < when then
          { s with
            idleTicks := s.idleTicks + (when - s.totalTicks)
            totalTicks := when }.dispatch h when toOccur
        else if s.totalTicks < when then
          .ok (false, { s with pending := Keyed.insert when toOccur s.pending })
        else s.dispatch h when toOccur

/-- The interrupts that are due. -/
def due (s : State) : Nat := s.pending.countP fun p => decide (p.1 ≤ s.totalTicks)

/-- `while (CheckIfDue(FALSE));`, for `fuel` calls at most. -/
def drain (h : Handlers) : (fuel : Nat) → State → Except Stop State
  | 0, _ => .error .disabled
  | fuel + 1, s =>
      match s.checkIfDue h false with
      | .ok (true, s) => drain h fuel s
      | .ok (false, s) => .ok s
      | .error e => .error e

/-- The clock of `OneTick`. -/
def tick (s : State) : State :=
  if s.status = .systemMode then
    { s with totalTicks := s.totalTicks + SystemTick, systemTicks := s.systemTicks + SystemTick }
  else { s with totalTicks := s.totalTicks + UserTick, userTicks := s.userTicks + UserTick }

/-- `Interrupt::OneTick`, up to its end or to the call of `Yield`. -/
def oneTick (s : State) (h : Handlers) : Except Stop State :=
  let s := { s.tick with level := .intOff }
  match drain h (s.due + 1) s with
  | .error e => .error e
  | .ok s =>
      if s.yieldOnReturn = true then
        .ok { s with level := .intOn, yieldOnReturn := false, status := .systemMode, ticked := false }
      else .ok { s with level := .intOn, ticked := true }

/-- `Interrupt::SetLevel`. -/
def setLevel (s : State) (now : IntStatus) (h : Handlers) : Except Stop State :=
  if now = .intOff ∨ s.inHandler = false then
    if now = .intOn ∧ s.level = .intOff then { s with level := now }.oneTick h
    else .ok { s with level := now, ticked := false }
  else .error .assertFails

/-- `Interrupt::Idle`. -/
def idle (s : State) (h : Handlers) : Except Stop State :=
  match { s with status := .idleMode, ticked := false }.checkIfDue h true with
  | .error e => .error e
  | .ok (false, s) => .ok { s with halted := true }
  | .ok (true, s) =>
      match drain h (s.due + 1) s with
      | .error e => .error e
      | .ok s => .ok { s with yieldOnReturn := false, status := .systemMode }

end State

inductive Action where
  /-- A device schedules an interrupt, outside of the handlers. -/
  | schedule (handler : Nat) (arg fromNow : Int) (type : IntType)
  /-- `setStatus`, to `SystemMode` or to `UserMode`. -/
  | setStatus (user : Bool)
  | setLevel (now : IntStatus) (h : Handlers)
  | oneTick (h : Handlers)
  /-- The end of a `OneTick` whose `Yield` has returned, with the status it saved. -/
  | yieldReturns (user : Bool)
  | idle (h : Handlers)

/-- The status of a machine that does not idle. -/
def modeOf (user : Bool) : MachineStatus := if user then .userMode else .systemMode

def step (s : State) (a : Action) : Except Stop State :=
  if s.halted = true then .error .disabled
  else
    match a with
    | .schedule handler arg fromNow type =>
        match s.schedule handler arg fromNow type with
        | .ok s => .ok { s with ticked := false }
        | .error e => .error e
    | .setStatus user => .ok { s with status := modeOf user, ticked := false }
    | .setLevel now h => s.setLevel now h
    | .oneTick h => s.oneTick h
    | .yieldReturns user =>
        if s.ticked = true then .ok { s with status := modeOf user } else .error .disabled
    | .idle h => s.idle h

/-- A state some run of the machine reaches. -/
def Reachable (s : State) : Prop := Steps step always .new s

/-! ### The invariant -/

/-- The pending interrupts are sorted; with those that have fired, these in order and each at its
time or later, they are the ones that were ever scheduled; and the clock is the sum of its parts. -/
structure Inv (s : State) : Prop where
  sorted : Keyed.Sorted s.pending
  key : ∀ p ∈ s.pending, p.1 = p.2.when
  ticks : s.totalTicks = s.systemTicks + s.userTicks + s.idleTicks
  all : (s.pending.map Prod.snd ++ s.fired.map Prod.fst).Perm s.scheduled
  ids : s.scheduled.map PendingInterrupt.id = List.range s.scheduled.length
  firedAt : ∀ f ∈ s.fired, f.1.when ≤ f.2 ∧ f.2 ≤ s.totalTicks
  order : s.fired.Pairwise fun f g => f.1.when ≤ g.1.when
  before : ∀ f ∈ s.fired, ∀ p ∈ s.pending, f.1.when ≤ p.1

section
variable {s s' : State} {h : Handlers} {when : Int} {toOccur : PendingInterrupt}

theorem new_inv : Inv .new :=
  ⟨.nil, fun p hp => (by cases hp), rfl, .refl _, rfl, fun f hf => (by cases hf), .nil,
    fun f hf => (by cases hf)⟩

/-- What the invariant does not read. -/
theorem Inv.congr (hI : Inv s) (h₁ : s'.pending = s.pending) (h₂ : s'.scheduled = s.scheduled)
    (h₃ : s'.fired = s.fired) (h₄ : s'.totalTicks = s.totalTicks)
    (h₅ : s'.systemTicks + s'.userTicks + s'.idleTicks =
      s.systemTicks + s.userTicks + s.idleTicks) : Inv s' := by
  refine ⟨?_, ?_, ?_, ?_, ?_, ?_, ?_, ?_⟩
  · rw [h₁]; exact hI.sorted
  · rw [h₁]; exact hI.key
  · rw [h₄, h₅]; exact hI.ticks
  · rw [h₁, h₂, h₃]; exact hI.all
  · rw [h₂]; exact hI.ids
  · rw [h₃, h₄]; exact hI.firedAt
  · rw [h₃]; exact hI.order
  · rw [h₁, h₃]; exact hI.before

/-- What a handler leaves alone; the interrupts it adds are not due. -/
structure Adds (s s' : State) : Prop where
  level : s'.level = s.level
  inHandler : s'.inHandler = s.inHandler
  status : s'.status = s.status
  totalTicks : s'.totalTicks = s.totalTicks
  halted : s'.halted = s.halted
  ticked : s'.ticked = s.ticked
  due : s'.due = s.due

theorem Adds.refl (s : State) : Adds s s := ⟨rfl, rfl, rfl, rfl, rfl, rfl, rfl⟩

theorem Adds.trans {s₁ s₂ s₃ : State} (h₁ : Adds s₁ s₂) (h₂ : Adds s₂ s₃) : Adds s₁ s₃ :=
  ⟨h₂.level.trans h₁.level, h₂.inHandler.trans h₁.inHandler, h₂.status.trans h₁.status,
    h₂.totalTicks.trans h₁.totalTicks, h₂.halted.trans h₁.halted, h₂.ticked.trans h₁.ticked,
    h₂.due.trans h₁.due⟩

/-- `Schedule` adds one interrupt, at a time to come. -/
theorem Inv.schedule {handler : Nat} {arg fromNow : Int} {type : IntType} (hI : Inv s)
    (hs : s.schedule handler arg fromNow type = .ok s') : Inv s' ∧ Adds s s' := by
  unfold State.schedule at hs
  dsimp only at hs
  split at hs
  · rename_i hpos
    cases hs
    refine ⟨⟨Keyed.sorted_insert hI.sorted, fun p hp => ?_, hI.ticks, ?_, ?_, hI.firedAt, hI.order,
      fun f hf p hp => ?_⟩, rfl, rfl, rfl, rfl, rfl, rfl, ?_⟩
    · rcases Keyed.mem_insert.mp hp with rfl | hp
      · rfl
      · exact hI.key p hp
    · have hperm := ((Keyed.perm_insert (s.totalTicks + fromNow)
        ⟨s.scheduled.length, handler, arg, s.totalTicks + fromNow, type⟩ s.pending).map
          Prod.snd).append_right (s.fired.map Prod.fst)
      exact (hperm.trans (hI.all.cons _)).trans (List.perm_append_singleton ..).symm
    · rw [List.map_append, hI.ids, List.length_append, List.map_singleton, List.length_singleton,
        List.range_succ]
    · rcases Keyed.mem_insert.mp hp with rfl | hp
      · obtain ⟨h₁, h₂⟩ := hI.firedAt f hf
        show f.1.when ≤ s.totalTicks + fromNow
        omega
      · exact hI.before f hf p hp
    · simp only [State.due, Keyed.countP_insert]
      rw [if_neg (by simp only [decide_eq_true_eq]; omega), Nat.add_zero]
  · cases hs

theorem Inv.requests {rs : List Request} (hI : Inv s) (hs : s.requests rs = .ok s') :
    Inv s' ∧ Adds s s' := by
  induction rs generalizing s with
  | nil => cases hs; exact ⟨hI, .refl _⟩
  | cons r rs ih =>
      unfold State.requests at hs
      split at hs
      · rename_i s₁ hr
        have h₁ : Inv s₁ ∧ Adds s s₁ := by
          cases r with
          | schedule handler arg fromNow type => exact hI.schedule hr
          | yieldOnReturn =>
              simp only [State.request] at hr
              split at hr
              · cases hr
                exact ⟨hI.congr rfl rfl rfl rfl rfl, rfl, rfl, rfl, rfl, rfl, rfl, rfl⟩
              · cases hr
        obtain ⟨h₂, h₃⟩ := ih h₁.1 hs
        exact ⟨h₂, h₁.2.trans h₃⟩
      · cases hs

/-- What a check leaves alone. -/
structure Checks (s s' : State) : Prop where
  level : s'.level = s.level
  inHandler : s.inHandler = false → s'.inHandler = false
  status : s'.status = s.status
  halted : s'.halted = s.halted
  ticked : s'.ticked = s.ticked
  totalTicks : s.totalTicks ≤ s'.totalTicks

theorem Checks.refl (s : State) : Checks s s := ⟨rfl, id, rfl, rfl, rfl, le_refl _⟩

theorem Checks.trans {s₁ s₂ s₃ : State} (h₁ : Checks s₁ s₂) (h₂ : Checks s₂ s₃) : Checks s₁ s₃ :=
  ⟨h₂.level.trans h₁.level, fun e => h₂.inHandler (h₁.inHandler e), h₂.status.trans h₁.status,
    h₂.halted.trans h₁.halted, h₂.ticked.trans h₁.ticked, h₁.totalTicks.trans h₂.totalTicks⟩

/-- The head of the list is put back behind the items of its own time. -/
theorem Inv.putBack (hI : Inv { s with pending := (when, toOccur) :: s.pending }) :
    Inv { s with pending := Keyed.insert when toOccur s.pending } := by
  have hmem : ∀ p, p ∈ Keyed.insert when toOccur s.pending ↔
      p ∈ (when, toOccur) :: s.pending := fun p => by rw [Keyed.mem_insert, List.mem_cons]
  refine ⟨Keyed.sorted_insert hI.sorted.tail, fun p hp => hI.key p ((hmem p).mp hp), hI.ticks, ?_,
    hI.ids, hI.firedAt, hI.order, fun f hf p hp => hI.before f hf p ((hmem p).mp hp)⟩
  exact (((Keyed.perm_insert when toOccur s.pending).map Prod.snd).append_right _).trans hI.all

/-- The head of the list fires. -/
theorem Inv.fire (hI : Inv { s with pending := (when, toOccur) :: s.pending })
    (hle : when ≤ s.totalTicks) :
    Inv { s with
      inHandler := true
      status := .systemMode
      fired := s.fired ++ [(toOccur, s.totalTicks)] } := by
  have hkey : when = toOccur.when := hI.key (when, toOccur) (.head _)
  have hhead := hI.sorted.head_le
  refine ⟨hI.sorted.tail, fun p hp => hI.key p (.tail _ hp), hI.ticks, ?_, hI.ids, fun f hf => ?_,
    ?_, fun f hf p hp => ?_⟩
  · have hperm : (s.pending.map Prod.snd ++ (s.fired ++ [(toOccur, s.totalTicks)]).map Prod.fst).Perm
        (toOccur :: (s.pending.map Prod.snd ++ s.fired.map Prod.fst)) := by
      rw [List.map_append, ← List.append_assoc]
      exact List.perm_append_singleton ..
    exact hperm.trans hI.all
  · rcases List.mem_append.mp hf with hf | hf
    · exact hI.firedAt f hf
    · cases List.mem_singleton.mp hf
      exact ⟨hkey ▸ hle, le_refl _⟩
  · refine List.pairwise_append.mpr ⟨hI.order, List.pairwise_singleton .., fun f hf g hg => ?_⟩
    cases List.mem_singleton.mp hg
    exact hkey ▸ hI.before f hf (when, toOccur) (.head _)
  · rcases List.mem_append.mp hf with hf | hf
    · exact hI.before f hf p (.tail _ hp)
    · cases List.mem_singleton.mp hf
      exact hkey ▸ hhead p hp

theorem Inv.dispatch {b : Bool} (hI : Inv { s with pending := (when, toOccur) :: s.pending })
    (hle : when ≤ s.totalTicks) (hs : s.dispatch h when toOccur = .ok (b, s')) :
    Inv s' ∧ Checks s s' ∧ s'.totalTicks = s.totalTicks ∧ (b = true → s'.due = s.due) ∧
      (b = false → s.status = .idleMode) := by
  unfold State.dispatch at hs
  dsimp only at hs
  split at hs
  · rename_i hidle
    cases hs
    exact ⟨hI.putBack, ⟨rfl, id, rfl, rfl, rfl, le_refl _⟩, rfl, fun e => (by cases e),
      fun _ => hidle.1⟩
  · split at hs
    · rename_i s₁ hr
      cases hs
      obtain ⟨h₁, h₂⟩ := (hI.fire hle).requests hr
      refine ⟨h₁.congr rfl rfl rfl rfl rfl, ⟨h₂.level, fun _ => rfl, rfl, h₂.halted, h₂.ticked, ?_⟩,
        h₂.totalTicks, fun _ => h₂.due, fun e => (by cases e)⟩
      exact le_of_eq h₂.totalTicks.symm
    · cases hs

/-- A call of `CheckIfDue` that fires an interrupt leaves fewer that are due; one that fires none,
in a machine that does not idle, leaves none. -/
theorem Inv.checkIfDue {b : Bool} (hI : Inv s) (hs : s.checkIfDue h false = .ok (b, s')) :
    Inv s' ∧ Checks s s' ∧ s'.totalTicks = s.totalTicks ∧ (b = true → s'.due < s.due) ∧
      (b = false → s.status ≠ .idleMode → ∀ p ∈ s'.pending, s'.totalTicks < p.1) := by
  unfold State.checkIfDue at hs
  split at hs
  · cases hs
  split at hs
  · rename_i hp
    cases hs
    refine ⟨hI, .refl _, rfl, fun e => (by cases e), fun _ _ p hp' => ?_⟩
    rw [hp] at hp'
    cases hp'
  · rename_i when toOccur pending hp
    have hI' : Inv { s with pending := (when, toOccur) :: pending } := by rw [← hp]; exact hI
    dsimp only at hs
    rw [if_neg (by simp)] at hs
    split at hs
    · rename_i hlt
      cases hs
      have hI₁ : Inv { { s with pending := pending } with
        pending := (when, toOccur) :: pending } := hI'
      refine ⟨hI₁.putBack, ⟨rfl, id, rfl, rfl, rfl, le_refl _⟩, rfl, fun e => (by cases e),
        fun _ _ p hp' => ?_⟩
      rcases Keyed.mem_insert.mp hp' with rfl | hp'
      · exact hlt
      · exact lt_of_lt_of_le hlt (hI'.sorted.head_le p hp')
    · rename_i hge
      obtain ⟨h₁, h₂, h₃, h₄, h₅⟩ := Inv.dispatch (s := { s with pending := pending }) hI'
        (not_lt.mp hge) hs
      refine ⟨h₁, ⟨h₂.level, h₂.inHandler, h₂.status, h₂.halted, h₂.ticked, h₂.totalTicks⟩, h₃, fun e => ?_,
        fun e hne => absurd (h₅ e) hne⟩
      have hdue : s.due = State.due { s with pending := pending } + 1 := by
        simp only [State.due, hp, List.countP_cons]
        rw [if_pos (by simpa using not_lt.mp hge)]
      rw [h₄ e, hdue]
      exact Nat.lt_succ_self _

theorem Inv.drain {fuel : Nat} (hI : Inv s) (hs : State.drain h fuel s = .ok s') :
    Inv s' ∧ Checks s s' ∧ s'.totalTicks = s.totalTicks ∧
      (s.status ≠ .idleMode → ∀ p ∈ s'.pending, s'.totalTicks < p.1) := by
  induction fuel generalizing s with
  | zero => cases hs
  | succ fuel ih =>
      unfold State.drain at hs
      split at hs
      · rename_i s₁ hc
        obtain ⟨h₁, h₂, h₃, -, -⟩ := hI.checkIfDue hc
        obtain ⟨h₄, h₅, h₆, h₇⟩ := ih h₁ hs
        exact ⟨h₄, h₂.trans h₅, h₆.trans h₃, fun hne => h₇ (h₂.status ▸ hne)⟩
      · rename_i s₁ hc
        cases hs
        obtain ⟨h₁, h₂, h₃, -, h₄⟩ := hI.checkIfDue hc
        exact ⟨h₁, h₂, h₃, h₄ rfl⟩
      · cases hs

/-- `CheckIfDue(TRUE)`: the clock may advance to the first interrupt. -/
theorem Inv.checkIfDue_idle {b : Bool} (hI : Inv s) (hs : s.checkIfDue h true = .ok (b, s')) :
    Inv s' ∧ Checks s s' := by
  unfold State.checkIfDue at hs
  split at hs
  · cases hs
  split at hs
  · cases hs
    exact ⟨hI, .refl _⟩
  · rename_i when toOccur pending hp
    have hI' : Inv { s with pending := (when, toOccur) :: pending } := by rw [← hp]; exact hI
    dsimp only at hs
    split at hs
    · rename_i hlt
      have hI₁ : Inv { s with
          pending := (when, toOccur) :: pending
          idleTicks := s.idleTicks + (when - s.totalTicks)
          totalTicks := when } := by
        refine ⟨hI'.sorted, hI'.key, ?_, hI'.all, hI'.ids, fun f hf => ?_, hI'.order, hI'.before⟩
        · have := hI.ticks
          show when = s.systemTicks + s.userTicks + (s.idleTicks + (when - s.totalTicks))
          omega
        · obtain ⟨h₁, h₂⟩ := hI.firedAt f hf
          exact ⟨h₁, h₂.trans (le_of_lt hlt.2)⟩
      obtain ⟨h₁, h₂, -, -, -⟩ := Inv.dispatch
        (s := { s with
          pending := pending
          idleTicks := s.idleTicks + (when - s.totalTicks)
          totalTicks := when }) hI₁ (le_refl _) hs
      exact ⟨h₁, h₂.level, h₂.inHandler, h₂.status, h₂.halted, h₂.ticked,
        (le_of_lt hlt.2).trans h₂.totalTicks⟩
    · rename_i hn
      split at hs
      · rename_i hlt
        exact absurd ⟨rfl, hlt⟩ hn
      · rename_i hge
        obtain ⟨h₁, h₂, -, -, -⟩ := Inv.dispatch (s := { s with pending := pending }) hI'
          (not_lt.mp hge) hs
        exact ⟨h₁, h₂.level, h₂.inHandler, h₂.status, h₂.halted, h₂.ticked, h₂.totalTicks⟩

/-! ### The calls -/

/-- What holds between two calls. -/
structure Settled (s : State) : Prop where
  inv : Inv s
  inHandler : s.inHandler = false
  status : s.halted = false → s.status ≠ .idleMode
  ticked : s.ticked = true → ∀ p ∈ s.pending, s.totalTicks < p.1

theorem Inv.tick (hI : Inv s) : Inv s.tick ∧ s.totalTicks ≤ s.tick.totalTicks := by
  have hmono : ∀ (t : State) (n : Int), 0 ≤ n → t.pending = s.pending →
      t.scheduled = s.scheduled → t.fired = s.fired → t.totalTicks = s.totalTicks + n →
      t.systemTicks + t.userTicks + t.idleTicks =
        s.systemTicks + s.userTicks + s.idleTicks + n → Inv t ∧ s.totalTicks ≤ t.totalTicks := by
    intro t n hn h₁ h₂ h₃ h₄ h₅
    refine ⟨⟨h₁ ▸ hI.sorted, h₁ ▸ hI.key, ?_, ?_, ?_, fun f hf => ?_, h₃ ▸ hI.order, ?_⟩, by omega⟩
    · rw [h₄, h₅, hI.ticks]
    · rw [h₁, h₂, h₃]; exact hI.all
    · rw [h₂]; exact hI.ids
    · obtain ⟨g₁, g₂⟩ := hI.firedAt f (h₃ ▸ hf)
      exact ⟨g₁, by omega⟩
    · rw [h₁, h₃]; exact hI.before
  unfold State.tick
  split
  · exact hmono _ SystemTick (by decide) rfl rfl rfl rfl (by simp only; omega)
  · exact hmono _ UserTick (by decide) rfl rfl rfl rfl (by simp only; omega)

theorem tick_frame (s : State) :
    s.tick.inHandler = s.inHandler ∧ s.tick.status = s.status ∧ s.tick.halted = s.halted := by
  unfold State.tick
  split <;> exact ⟨rfl, rfl, rfl⟩

theorem Inv.oneTick (hI : Inv s) (hn : s.inHandler = false) (hm : s.status ≠ .idleMode)
    (hs : s.oneTick h = .ok s') : Settled s' ∧ s.totalTicks ≤ s'.totalTicks := by
  obtain ⟨hT, hle⟩ := hI.tick
  obtain ⟨f₁, f₂, -⟩ := tick_frame s
  unfold State.oneTick at hs
  dsimp only at hs
  split at hs
  · cases hs
  rename_i s₁ hd
  have hI₀ : Inv { s.tick with level := .intOff } := hT.congr rfl rfl rfl rfl rfl
  obtain ⟨h₁, h₂, h₃, h₄⟩ := hI₀.drain hd
  replace h₄ := h₄ (show s.tick.status ≠ .idleMode by rw [f₂]; exact hm)
  have hh : s₁.inHandler = false := h₂.inHandler (show s.tick.inHandler = false by rw [f₁, hn])
  split at hs
  · cases hs
    exact ⟨⟨h₁.congr rfl rfl rfl rfl rfl, hh, fun _ => (by simp), fun e => (by cases e)⟩,
      hle.trans h₂.totalTicks⟩
  · cases hs
    refine ⟨⟨h₁.congr rfl rfl rfl rfl rfl, hh, fun _ => ?_, fun _ => h₄⟩, hle.trans h₂.totalTicks⟩
    show s₁.status ≠ .idleMode
    rw [h₂.status]
    show s.tick.status ≠ .idleMode
    rw [f₂]
    exact hm

theorem Settled.idle (hS : Settled s) (hs : s.idle h = .ok s') :
    Settled s' ∧ s.totalTicks ≤ s'.totalTicks := by
  have hI₀ : Inv { s with status := .idleMode, ticked := false } :=
    hS.inv.congr rfl rfl rfl rfl rfl
  -- the machine has not ticked, whatever comes
  have hno : ∀ {x : State}, Checks { s with status := .idleMode, ticked := false } x →
      x.inHandler = false ∧ ¬ x.ticked = true := fun hc =>
    ⟨hc.inHandler hS.inHandler, by rw [hc.ticked]; simp⟩
  unfold State.idle at hs
  split at hs
  · cases hs
  · rename_i s₁ hc
    cases hs
    obtain ⟨h₁, h₂⟩ := hI₀.checkIfDue_idle hc
    obtain ⟨h₃, h₄⟩ := hno h₂
    exact ⟨⟨h₁.congr rfl rfl rfl rfl rfl, h₃, fun e => (by cases e), fun e => absurd e h₄⟩,
      h₂.totalTicks⟩
  · rename_i s₁ hc
    obtain ⟨h₁, h₂⟩ := hI₀.checkIfDue_idle hc
    split at hs
    · cases hs
    · rename_i s₂ hd
      cases hs
      obtain ⟨h₃, h₄, -, -⟩ := h₁.drain hd
      obtain ⟨h₅, h₆⟩ := hno (h₂.trans h₄)
      exact ⟨⟨h₃.congr rfl rfl rfl rfl rfl, h₅, fun _ => (by simp), fun e => absurd e h₆⟩,
        (h₂.trans h₄).totalTicks⟩

theorem modeOf_ne_idle (user : Bool) : modeOf user ≠ .idleMode := by cases user <;> decide

theorem Settled.step {a : Action} (hS : Settled s) (hs : step s a = .ok s') :
    Settled s' ∧ s.totalTicks ≤ s'.totalTicks := by
  unfold Interrupt.step at hs
  split at hs
  · cases hs
  rename_i hh
  have hm := hS.status (by simpa using hh)
  cases a with
  | schedule handler arg fromNow type =>
      dsimp only at hs
      split at hs
      · rename_i s₁ hc
        cases hs
        obtain ⟨h₁, h₂⟩ := hS.inv.schedule hc
        refine ⟨⟨h₁.congr rfl rfl rfl rfl rfl, h₂.inHandler.trans hS.inHandler, fun _ => ?_,
          fun e => (by cases e)⟩, le_of_eq h₂.totalTicks.symm⟩
        show s₁.status ≠ .idleMode
        rw [h₂.status]
        exact hm
      · cases hs
  | setStatus user =>
      cases hs
      exact ⟨⟨hS.inv.congr rfl rfl rfl rfl rfl, hS.inHandler, fun _ => modeOf_ne_idle user,
        fun e => (by cases e)⟩, le_refl _⟩
  | setLevel now h =>
      simp only [State.setLevel] at hs
      split at hs
      · split at hs
        · exact Inv.oneTick (s := { s with level := now }) (hS.inv.congr rfl rfl rfl rfl rfl)
            hS.inHandler hm hs
        · cases hs
          exact ⟨⟨hS.inv.congr rfl rfl rfl rfl rfl, hS.inHandler, fun _ => hm,
            fun e => (by cases e)⟩, le_refl _⟩
      · cases hs
  | oneTick h => exact hS.inv.oneTick hS.inHandler hm hs
  | yieldReturns user =>
      dsimp only at hs
      split at hs
      · cases hs
        exact ⟨⟨hS.inv.congr rfl rfl rfl rfl rfl, hS.inHandler, fun _ => modeOf_ne_idle user,
          hS.ticked⟩, le_refl _⟩
      · cases hs
  | idle h => exact hS.idle hs

theorem reachable_settled (hr : Reachable s) : Settled s :=
  hr.inv ⟨new_inv, rfl, fun _ => (by simp [State.new]), fun e => (by cases e)⟩
    fun _ _ _ hS _ hs => (hS.step hs).1

/-! ### `OneTick` returns -/

/-- A request for a time to come. -/
def Request.Later : Request → Prop
  | .schedule _ _ fromNow _ => 0 < fromNow
  | .yieldOnReturn => True

/-- Handlers that schedule for times to come only. -/
def Later (h : Handlers) : Prop := ∀ i s, ∀ r ∈ h i s, r.Later

theorem requests_ok {rs : List Request} (hrs : ∀ r ∈ rs, r.Later) (hh : s.inHandler = true) :
    ∃ s', s.requests rs = .ok s' := by
  induction rs generalizing s with
  | nil => exact ⟨s, rfl⟩
  | cons r rs ih =>
      have hr : ∃ s₁, s.request r = .ok s₁ ∧ s₁.inHandler = true := by
        have hl := hrs r (.head _)
        cases r with
        | schedule handler arg fromNow type =>
            exact ⟨_, if_pos hl, hh⟩
        | yieldOnReturn => exact ⟨_, if_pos hh, hh⟩
      obtain ⟨s₁, h₁, h₂⟩ := hr
      obtain ⟨s₂, h₃⟩ := ih (fun r hr => hrs r (.tail _ hr)) h₂
      exact ⟨s₂, by rw [State.requests, h₁]; exact h₃⟩

theorem dispatch_ok (hL : Later h) : ∃ x, s.dispatch h when toOccur = .ok x := by
  unfold State.dispatch
  dsimp only
  split
  · exact ⟨_, rfl⟩
  · obtain ⟨s₁, hs⟩ := requests_ok (s := { s with
      inHandler := true
      status := .systemMode
      fired := s.fired ++ [(toOccur, s.totalTicks)] }) (hL toOccur _) rfl
    rw [hs]
    exact ⟨_, rfl⟩

theorem checkIfDue_ok (advanceClock : Bool) (hL : Later h) (hl : s.level = .intOff) :
    ∃ x, s.checkIfDue h advanceClock = .ok x := by
  unfold State.checkIfDue
  rw [if_neg (by simpa using hl)]
  split
  · exact ⟨_, rfl⟩
  · dsimp only
    split
    · exact dispatch_ok hL
    split
    · exact ⟨_, rfl⟩
    · exact dispatch_ok hL

/-- Each turn of the loop fires an interrupt that was due, so there are at most as many. -/
theorem Inv.drain_ok {fuel : Nat} (hI : Inv s) (hL : Later h) (hl : s.level = .intOff)
    (hf : s.due < fuel) : ∃ s', State.drain h fuel s = .ok s' := by
  induction fuel generalizing s with
  | zero => omega
  | succ fuel ih =>
      obtain ⟨⟨b, s₁⟩, hc⟩ := checkIfDue_ok (s := s) false hL hl
      rw [State.drain, hc]
      obtain ⟨h₁, h₂, -, h₃, -⟩ := hI.checkIfDue hc
      cases b with
      | false => exact ⟨s₁, rfl⟩
      | true =>
          have := h₃ rfl
          exact ih h₁ (h₂.level.trans hl) (by omega)

theorem Inv.oneTick_ok (hI : Inv s) (hL : Later h) : ∃ s', s.oneTick h = .ok s' := by
  have hI₀ : Inv { s.tick with level := .intOff } := hI.tick.1.congr rfl rfl rfl rfl rfl
  obtain ⟨s₁, hd⟩ := hI₀.drain_ok hL rfl (Nat.lt_succ_self _)
  unfold State.oneTick
  dsimp only
  rw [hd]
  dsimp only
  split <;> exact ⟨_, rfl⟩

/-- `OneTick` leaves nothing due, also where it goes on with `Yield`. -/
theorem Inv.oneTick_drained (hI : Inv s) (hm : s.status ≠ .idleMode) (hs : s.oneTick h = .ok s') :
    ∀ p ∈ s'.pending, s'.totalTicks < p.1 := by
  have hI₀ : Inv { s.tick with level := .intOff } := hI.tick.1.congr rfl rfl rfl rfl rfl
  unfold State.oneTick at hs
  dsimp only at hs
  split at hs
  · cases hs
  rename_i s₁ hd
  obtain ⟨-, -, -, h₄⟩ := hI₀.drain hd
  replace h₄ := h₄ (show s.tick.status ≠ .idleMode by rw [(tick_frame s).2.1]; exact hm)
  split at hs <;> cases hs <;> exact h₄

theorem Inv.nodup (hI : Inv s) : s.scheduled.Nodup := by
  refine List.Nodup.of_map PendingInterrupt.id ?_
  rw [hI.ids]
  exact List.nodup_range

/-- **Interrupts are delivered.**  In every reachable state: the pending interrupts are sorted by
their times; the clock is the sum of its parts, and no call sets it back; the interrupts that are
pending and those that have fired are, each once, all that were ever scheduled; one that fired did
so at its time or later, and they fired in the order of their times; when a `OneTick` has returned,
or goes on with `Yield`, no interrupt is due; and `OneTick` does return, when the handlers schedule
for times to come. -/
theorem interrupt_delivery (hr : Reachable s) :
    (Keyed.Sorted s.pending ∧ ∀ p ∈ s.pending, p.1 = p.2.when) ∧
    s.totalTicks = s.systemTicks + s.userTicks + s.idleTicks ∧
    (∀ a s', step s a = .ok s' → s.totalTicks ≤ s'.totalTicks) ∧
    ((s.pending.map Prod.snd ++ s.fired.map Prod.fst).Perm s.scheduled ∧ s.scheduled.Nodup) ∧
    (∀ f ∈ s.fired, f.1.when ≤ f.2 ∧ f.2 ≤ s.totalTicks) ∧
    (s.fired.Pairwise fun f g => f.1.when ≤ g.1.when) ∧
    (s.ticked = true → ∀ p ∈ s.pending, s.totalTicks < p.1) ∧
    (∀ h s', step s (.oneTick h) = .ok s' → ∀ p ∈ s'.pending, s'.totalTicks < p.1) ∧
    (∀ h, s.halted = false → Later h → ∃ s', step s (.oneTick h) = .ok s') := by
  have hS := reachable_settled hr
  have hI := hS.inv
  refine ⟨⟨hI.sorted, hI.key⟩, hI.ticks, fun a s' hs => (hS.step hs).2, ⟨hI.all, hI.nodup⟩,
    hI.firedAt, hI.order, hS.ticked, fun h s' hs => ?_, fun h hh hL => ?_⟩
  · unfold step at hs
    split at hs
    · cases hs
    · rename_i hh
      exact hI.oneTick_drained (hS.status (by simpa using hh)) hs
  · obtain ⟨s', hs⟩ := hI.oneTick_ok hL
    exact ⟨s', by unfold step; rw [if_neg (by rw [hh]; simp)]; exact hs⟩

end

/-- A timer that schedules itself again, a character that departs before it expires, and a disk
whose interrupt comes behind that of the timer for the same time, since a check has put it back. -/
theorem interrupt_delivery_timer : ∃ s, Reachable s ∧
    s.fired.map (fun f => f.1.id) = [1, 0, 3, 2] ∧ s.pending.map Prod.fst = [300] ∧
    s.totalTicks = 201 ∧ ∀ p ∈ s.pending, s.totalTicks < p.1 := by
  let h : Handlers := fun i _ =>
    if i.type = .timerInt then [.schedule 0 0 100 .timerInt, .yieldOnReturn] else []
  obtain ⟨s, hs, hp⟩ := (Option.any_eq_true ..).mp (show (run step always .new
    [.schedule 0 0 100 .timerInt, .schedule 1 0 20 .consoleWriteInt, .oneTick h, .oneTick h,
      .setLevel .intOff h, .schedule 2 0 180 .diskInt, .idle h, .idle h, .setStatus true,
      .setLevel .intOn h]).any (fun s =>
        s.fired.map (fun f => f.1.id) = [1, 0, 3, 2] ∧ s.pending.map Prod.fst = [300] ∧
          s.totalTicks = 201 ∧ s.ticked = true) = true by decide +kernel)
  obtain ⟨h₁, h₂, h₃, h₄⟩ := of_decide_eq_true hp
  have hr : Reachable s := Steps.of_run hs
  exact ⟨s, hr, h₁, h₂, h₃, (interrupt_delivery hr).2.2.2.2.2.2.1 h₄⟩

end Nachos.Interrupt
