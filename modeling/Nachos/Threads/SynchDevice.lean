import Nachos.Filesys.Disk
import Nachos.Lib.Runs
import Nachos.Network.Packet

/-!
# Threads — devices behind a lock that is none

`SynchDisk::ReadSector` and `WriteSector` (filesys/synchdisk.cc) and `PostOffice::Send`
(network/post.cc) have one form: acquire a lock, make a request to the device, wait on a semaphore
for the interrupt that says it is done, release the lock.  The device takes one request at a time.

But `Lock::Acquire` and `Lock::Release` (threads/synch.cc) are empty, and `Network::Send` tests
`sendBusy` without ever setting it.  So requests meet the device as the threads make them:
`request_alone` says that all is well as long as nobody makes one while another thread waits for
its own, and that a request made then fails the `ASSERT`, or takes the `V` that is meant for the other.

Interrupts come when they are enabled again, so that none comes between a request and the first test
of `semaphore->P()`: the two are one step.
-/

namespace Nachos.SynchDevice
open Lib

/-- What the devices differ in: whether a request sets the flag that the `ASSERT` tests, and the
arguments that its other `ASSERT`s accept. -/
structure Device (ρ : Type) where
  setsBusy : Bool
  accepts : ρ → Bool

/-- `Disk::ReadRequest` and `WriteRequest`, of a sector. -/
def disk : Device Int where
  setsBusy := true
  accepts sectorNumber := 0 ≤ sectorNumber && sectorNumber < NumSectors

/-- `PostOffice::Send`, to one of `numBoxes` boxes. -/
def network (numBoxes : Int) : Device Network.MailHeader where
  setsBusy := false
  accepts mailHdr := mailHdr.length.toNat ≤ Network.MaxMailSize && 0 ≤ mailHdr.dest.toInt &&
    mailHdr.dest.toInt < numBoxes

/-- Where a thread is in a call.  The requests are numbered. -/
inductive PC (ρ : Type) where
  | idle
  /-- Behind `lock->Acquire()`. -/
  | acquired (r : ρ)
  /-- In `semaphore->P()`. -/
  | waiting (id : Nat)
  /-- Behind it. -/
  | done (id : Nat)

def PC.isIdle {ρ : Type} : PC ρ → Bool
  | idle => true
  | _ => false

/-- `busy` is `active` or `sendBusy`; `pending` are the requests whose interrupt is scheduled, and
`completed` those whose interrupt has come. -/
structure State (ρ : Type) where
  sync : Sync Unit
  busy : Bool
  pc : Tid → PC ρ
  requests : Nat
  pending : List Nat
  completed : List Nat

section
variable {ρ : Type}

def init : State ρ where
  sync := ⟨fun _ => .new 0, fun _ => .ready⟩
  busy := false
  pc _ := .idle
  requests := 0
  pending := []
  completed := []

namespace State

def goto (s : State ρ) (t : Tid) (pc : PC ρ) : State ρ := { s with pc := Function.update s.pc t pc }

/-- The device has taken the request of `t`, and its interrupt is scheduled. -/
def requested (s : State ρ) (dev : Device ρ) (t : Tid) : State ρ :=
  { s with
    busy := dev.setsBusy
    requests := s.requests + 1
    pending := s.pending ++ [s.requests] }.goto t (.waiting s.requests)

/-- One test of `semaphore->P()`. -/
def P (s : State ρ) (t : Tid) (id : Nat) : State ρ :=
  match s.sync.P t () with
  | (sync, true) => { s with sync := sync }.goto t (.done id)
  | (sync, false) => { s with sync := sync }

/-- The request to the device, and the first test of `semaphore->P()`. -/
def request (s : State ρ) (dev : Device ρ) (t : Tid) (r : ρ) : Except Stop (State ρ) :=
  if s.busy then .error .assertFails
  else if dev.accepts r then .ok ((s.requested dev t).P t s.requests)
  else .error .assertFails

/-- A ready thread goes on.  `lock->Release()` does nothing. -/
def resume (s : State ρ) (dev : Device ρ) (t : Tid) : Except Stop (State ρ) :=
  match s.pc t with
  | .idle => .error .disabled
  | .acquired r => s.request dev t r
  | .waiting id => .ok (s.P t id)
  | .done _ => .ok (s.goto t .idle)

/-- `Disk::HandleInterrupt` or `Network::SendDone`, and the `V` of its handler. -/
def interrupt (s : State ρ) : Except Stop (State ρ) :=
  match s.pending with
  | [] => .error .disabled
  | id :: pending => .ok { s with
      busy := false
      pending := pending
      completed := s.completed ++ [id]
      sync := s.sync.V () }

end State

inductive Action (ρ : Type) where
  /-- A call, up to `lock->Acquire()`, which does nothing. -/
  | call (t : Tid) (r : ρ)
  | resume (t : Tid)
  | interrupt

def step (dev : Device ρ) (s : State ρ) : Action ρ → Except Stop (State ρ)
  | .call t r =>
      if s.sync.status t = .ready ∧ (s.pc t).isIdle then .ok (s.goto t (.acquired r))
      else .error .disabled
  | .resume t => if s.sync.status t = .ready then s.resume dev t else .error .disabled
  | .interrupt => s.interrupt

/-- Nobody waits for a request of its own when a thread makes one. -/
def alone (s : State ρ) : Action ρ → Prop
  | .resume t => ∀ r, s.pc t = .acquired r → ∀ u id, s.pc u ≠ .waiting id
  | _ => True

/-! ### One request at a time -/

/-- How the waiting thread, the device and the semaphore stand to each other. -/
inductive Phase (dev : Device ρ) (s : State ρ) : Prop where
  | quiet : (∀ u id, s.pc u ≠ .waiting id) → s.busy = false → s.pending = [] →
      (s.sync.sems ()).value = 0 → Phase dev s
  | active (t : Tid) (id : Nat) : s.pc t = .waiting id → (∀ u i, s.pc u = .waiting i → u = t) →
      s.busy = dev.setsBusy → s.pending = [id] → (s.sync.sems ()).value = 0 → id ∉ s.completed →
      Phase dev s
  | answered (t : Tid) (id : Nat) : s.pc t = .waiting id → (∀ u i, s.pc u = .waiting i → u = t) →
      s.busy = false → s.pending = [] → (s.sync.sems ()).value = 1 → id ∈ s.completed → Phase dev s

structure Inv (dev : Device ρ) (s : State ρ) : Prop where
  phase : Phase dev s
  completed : ∀ t id, s.pc t = .done id → id ∈ s.completed
  fresh : ∀ id ∈ s.completed ++ s.pending, id < s.requests

variable {dev : Device ρ} {s s' : State ρ} {t u : Tid} {r : ρ} {id : Nat}

theorem init_inv (dev : Device ρ) : Inv dev (init : State ρ) where
  phase := .quiet (fun _ _ h => by cases h) rfl rfl rfl
  completed _ _ h := by cases h
  fresh _ h := absurd h List.not_mem_nil

theorem goto_self (s : State ρ) (t : Tid) (pc : PC ρ) : (s.goto t pc).pc t = pc :=
  Function.update_self ..

theorem goto_of_ne (s : State ρ) (pc : PC ρ) (h : u ≠ t) : (s.goto t pc).pc u = s.pc u :=
  Function.update_of_ne h ..

theorem requested_self (s : State ρ) (dev : Device ρ) (t : Tid) :
    (s.requested dev t).pc t = .waiting s.requests := Function.update_self ..

theorem requested_of_ne (s : State ρ) (dev : Device ρ) (h : u ≠ t) :
    (s.requested dev t).pc u = s.pc u := Function.update_of_ne h ..

/-- The threads that wait are the same when one that does not goes to a place where it does not. -/
theorem waiting_goto {pc : PC ρ} (ht : ∀ i, s.pc t ≠ .waiting i) (hpc : ∀ i, pc ≠ .waiting i) :
    (s.goto t pc).pc u = .waiting id ↔ s.pc u = .waiting id := by
  by_cases e : u = t
  · subst e
    rw [goto_self]
    exact iff_of_false (hpc id) (ht id)
  · rw [goto_of_ne _ _ e]

theorem Phase.goto (h : Phase dev s) {pc : PC ρ} (ht : ∀ i, s.pc t ≠ .waiting i)
    (hpc : ∀ i, pc ≠ .waiting i) : Phase dev (s.goto t pc) := by
  have hw : ∀ u i, (s.goto t pc).pc u = .waiting i ↔ s.pc u = .waiting i :=
    fun u i => waiting_goto ht hpc
  cases h with
  | quiet hno hb hp hv => exact .quiet (fun u i hu => hno u i ((hw u i).mp hu)) hb hp hv
  | active x i hx huniq hb hp hv hc =>
      exact .active x i ((hw x i).mpr hx) (fun u j hu => huniq u j ((hw u j).mp hu)) hb hp hv hc
  | answered x i hx huniq hb hp hv hc =>
      exact .answered x i ((hw x i).mpr hx) (fun u j hu => huniq u j ((hw u j).mp hu)) hb hp hv hc

/-- A step outside the device. -/
theorem Inv.goto (h : Inv dev s) {pc : PC ρ} (ht : ∀ i, s.pc t ≠ .waiting i)
    (hpc : ∀ i, pc ≠ .waiting i) (hd : ∀ i, pc ≠ .done i) : Inv dev (s.goto t pc) where
  phase := h.phase.goto ht hpc
  completed u i hu := by
    by_cases e : u = t
    · subst e
      rw [goto_self] at hu
      exact absurd hu (hd i)
    · rw [goto_of_ne _ _ e] at hu
      exact h.completed u i hu
  fresh := h.fresh

/-- **A request that is made alone finds the device free.** -/
theorem Inv.free (h : Inv dev s) (hno : ∀ u id, s.pc u ≠ .waiting id) :
    s.busy = false ∧ s.pending = [] ∧ (s.sync.sems ()).value = 0 := by
  cases h.phase with
  | quiet _ hb hp hv => exact ⟨hb, hp, hv⟩
  | active x i hx => exact absurd hx (hno x i)
  | answered x i hx => exact absurd hx (hno x i)

theorem requested_inv (h : Inv dev s) (hno : ∀ u id, s.pc u ≠ .waiting id) :
    Inv dev (s.requested dev t) := by
  obtain ⟨hb, hp, hv⟩ := h.free hno
  refine ⟨.active t s.requests (requested_self ..) (fun u i hu => ?_) rfl ?_ hv fun hm => ?_,
    fun u i hu => ?_, fun i hi => ?_⟩
  · by_contra e
    rw [requested_of_ne _ _ e] at hu
    exact hno u i hu
  · show s.pending ++ [s.requests] = [s.requests]
    rw [hp, List.nil_append]
  · exact absurd (h.fresh _ (List.mem_append_left _ hm)) (Nat.lt_irrefl _)
  · by_cases e : u = t
    · subst e
      rw [requested_self] at hu
      cases hu
    · rw [requested_of_ne _ _ e] at hu
      exact h.completed u i hu
  · show i < s.requests + 1
    have hi' : i ∈ (s.completed ++ s.pending) ++ [s.requests] := by
      rw [List.append_assoc]
      exact hi
    rcases List.mem_append.mp hi' with hi | hi
    · exact Nat.lt_succ_of_lt (h.fresh i hi)
    · rw [List.mem_singleton.mp hi]
      exact Nat.lt_succ_self _

/-- A `P` on the semaphore passes only when the interrupt of the thread's own request has come. -/
theorem P_inv (h : Inv dev s) (ht : s.pc t = .waiting id) : Inv dev (s.P t id) := by
  unfold State.P
  cases h.phase with
  | quiet hno => exact absurd ht (hno t id)
  | active x i hx huniq hb hp hv hc =>
      rw [Sync.P_zero hv]
      refine ⟨.active x i hx huniq hb hp ?_ hc, h.completed, h.fresh⟩
      show (Function.update s.sync.sems () _ ()).value = 0
      rw [Function.update_self]
      exact hv
  | answered x i hx huniq hb hp hv hc =>
      obtain rfl := huniq t id ht
      rw [hx] at ht
      cases ht
      rw [Sync.P_pos (by rw [hv]; decide)]
      refine ⟨.quiet (fun u j hu => ?_) hb hp ?_, fun u j hu => ?_, h.fresh⟩
      · by_cases e : u = t
        · subst e
          rw [goto_self] at hu
          cases hu
        · rw [goto_of_ne _ _ e] at hu
          exact e (huniq u j hu)
      · show (Function.update s.sync.sems () _ ()).value = 0
        rw [Function.update_self]
        show (s.sync.sems ()).value - 1 = 0
        omega
      · by_cases e : u = t
        · subst e
          rw [goto_self] at hu
          cases hu
          exact hc
        · rw [goto_of_ne _ _ e] at hu
          exact h.completed u j hu

theorem request_inv (h : Inv dev s) (hno : ∀ u id, s.pc u ≠ .waiting id)
    (hs : s.request dev t r = .ok s') : Inv dev s' := by
  unfold State.request at hs
  rw [if_neg (by rw [(h.free hno).1]; exact Bool.noConfusion)] at hs
  split at hs
  · cases hs
    exact P_inv (requested_inv h hno) (requested_self ..)
  · cases hs

/-- The interrupt of the one request that is pending. -/
theorem interrupt_inv (h : Inv dev s) (hs : s.interrupt = .ok s') : Inv dev s' := by
  unfold State.interrupt at hs
  split at hs
  · cases hs
  rename_i id pending hp
  cases hs
  cases h.phase with
  | quiet _ _ hp' => rw [hp] at hp'; cases hp'
  | answered _ _ _ _ _ hp' => rw [hp] at hp'; cases hp'
  | active x i hx huniq hb hp' hv =>
      rw [hp] at hp'
      cases hp'
      refine ⟨.answered x id hx huniq rfl rfl ?_ ?_, fun u j hu => ?_, fun j hj => ?_⟩
      · show ((s.sync.V ()).sems ()).value = 1
        rw [Sync.V_value, hv]
        rfl
      · exact List.mem_append_right _ (List.mem_singleton_self _)
      · exact List.mem_append_left _ (h.completed u j hu)
      · refine h.fresh j ?_
        rw [hp]
        rw [List.append_nil] at hj
        exact hj

theorem step_inv {a : Action ρ} (h : Inv dev s) (ha : alone s a) (hs : step dev s a = .ok s') :
    Inv dev s' := by
  cases a with
  | call t r =>
      simp only [step] at hs
      split at hs
      · rename_i hidle
        cases hs
        refine h.goto (fun i hi => ?_) (fun _ hi => by cases hi) fun _ hi => by cases hi
        have := hidle.2
        rw [hi] at this
        cases this
      · cases hs
  | resume t =>
      simp only [step] at hs
      split at hs
      swap
      · cases hs
      unfold State.resume at hs
      split at hs
      · cases hs
      · rename_i r hr
        exact request_inv h (ha r hr) hs
      · rename_i id hid
        cases hs
        exact P_inv h hid
      · rename_i id hid
        cases hs
        refine h.goto (fun i hi => ?_) (fun _ hi => by cases hi) fun _ hi => by cases hi
        rw [hid] at hi
        cases hi
  | interrupt => exact interrupt_inv h hs

theorem run_inv (h : Steps (step dev) alone init s) : Inv dev s :=
  h.inv (init_inv dev) fun _ _ _ => step_inv

/-- A request whose first `P` passes: it has taken the `V` of another one, and returns at once. -/
theorem request_early (hb : s.busy = false) (hr : dev.accepts r = true)
    (hv : (s.sync.sems ()).value ≠ 0) : ∃ s', s.request dev t r = .ok s' ∧
      s'.pc t = .done s.requests ∧ s'.completed = s.completed := by
  refine ⟨(s.requested dev t).P t s.requests, ?_, ?_⟩
  · unfold State.request
    rw [if_neg (by rw [hb]; exact Bool.noConfusion), if_pos hr]
  · unfold State.P
    rw [Sync.P_pos (show ((s.requested dev t).sync.sems ()).value ≠ 0 from hv)]
    exact ⟨goto_self .., rfl⟩

/-- What becomes of a request that is made while another thread waits. -/
theorem Inv.request_behind (h : Inv dev s) (hr : dev.accepts r = true) (hu : s.pc u = .waiting id)
    (hbad : id ∈ s.completed ∨ dev.setsBusy = true) :
    s.request dev t r = .error .assertFails ∨
      ∃ s' i, s.request dev t r = .ok s' ∧ s'.pc t = .done i ∧ i ∉ s'.completed := by
  cases h.phase with
  | quiet hno => exact absurd hu (hno u id)
  | active x i hx huniq hb _ _ hc =>
      left
      obtain rfl := huniq u id hu
      rw [hx] at hu
      cases hu
      rcases hbad with hm | hset
      · exact absurd hm hc
      · unfold State.request
        rw [if_pos (hb.trans hset)]
  | answered x i hx huniq hb hp hv hc =>
      right
      obtain ⟨s', hs', hpc, hcomp⟩ := request_early (t := t) hb hr (by rw [hv]; decide)
      refine ⟨s', s.requests, hs', hpc, ?_⟩
      rw [hcomp]
      exact fun hm => absurd (h.fresh _ (List.mem_append_left _ hm)) (Nat.lt_irrefl _)

/-- **Requests that are made alone.**  In every run in which no thread makes a request while another
one waits for its own, the `ASSERT` that the device is free holds, and every call that returns does
so after the interrupt of its own request.  A request made while another thread waits, to the disk or
when the interrupt of the other has come, fails the `ASSERT` or returns at once, before its own. -/
theorem request_alone (h : Steps (step dev) alone init s) :
    (∀ t r, s.pc t = .acquired r → alone s (.resume t) → s.busy = false) ∧
      (∀ t id, s.pc t = .done id → id ∈ s.completed) ∧
      ∀ t r u id, s.pc t = .acquired r → s.sync.status t = .ready → dev.accepts r = true →
        s.pc u = .waiting id → id ∈ s.completed ∨ dev.setsBusy = true →
          step dev s (.resume t) = .error .assertFails ∨
            ∃ s' i, step dev s (.resume t) = .ok s' ∧ s'.pc t = .done i ∧ i ∉ s'.completed := by
  have hinv := run_inv h
  refine ⟨fun t r ht ha => (hinv.free (ha r ht)).1, hinv.completed,
    fun t r u id ht hready hr hu hbad => ?_⟩
  have hstep : step dev s (.resume t) = s.request dev t r := by
    simp only [step]
    rw [if_pos hready, State.resume, ht]
  rw [hstep]
  exact hinv.request_behind hr hu hbad

end

/-- A thread reads sector 5, and nobody else is there. -/
theorem request_alone_one : ∃ s : State Int,
    Steps (step disk) alone init s ∧ s.pc 0 = .done 0 ∧ 0 ∈ s.completed := by
  have halone : alone (init.goto 0 (.acquired (5 : Int))) (.resume 0) := by
    intro r _ u id hu
    by_cases e : u = 0
    · subst e
      cases hu
    · rw [goto_of_ne _ _ e] at hu
      cases hu
  have h₁ : Steps (step disk) alone init (init.goto 0 (.acquired (5 : Int))) :=
    .one (a := .call 0 5) trivial rfl
  have h₂ := h₁.tail (a := .resume 0) halone rfl
  have h₃ := h₂.tail (a := Action.interrupt) trivial rfl
  have h₄ := h₃.tail (a := Action.resume 0) (fun _ hr => by cases hr) rfl
  exact ⟨_, h₄, rfl, (request_alone h₄).2.1 0 0 rfl⟩

/-- The disk is asked to read sector 7 while it reads sector 5, and the `ASSERT` fails; and a
message is sent behind the back of one that waits, and its call returns before its interrupt. -/
theorem request_notAlone :
    (∃ s, run (step disk) always init [.call 0 5, .resume 0, .call 1 7] = some s ∧
      s.busy = true ∧ step disk s (.resume 1) = .error .assertFails) ∧
    ∃ s, run (step (network 1)) always init [.call 0 ⟨0, 0, 1⟩, .resume 0, .interrupt,
        .call 1 ⟨0, 0, 1⟩, .resume 1] = some s ∧
      s.pc 1 = .done 1 ∧ 1 ∉ s.completed :=
  ⟨⟨_, rfl, rfl, rfl⟩, _, rfl, rfl, by decide⟩

end Nachos.SynchDevice
