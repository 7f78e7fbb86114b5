import Mathlib.Data.Finset.Card
import Mathlib.Data.List.Nodup
import Mathlib.Logic.Function.Basic
import Nachos.Lib.Runs

/-!
# Threads — Semaphore

`Semaphore::P` and `Semaphore::V` (threads/synch.cc).  Both run with interrupts off, so each pass
of the loop of `P`, and each `V`, is one step: nobody sees its middle.  `P` is Mesa style: a
thread `V` takes off the queue is only made ready, and tests `value` again when it runs.

`Sync` is a family of semaphores with the status of the threads that use them, and `Sync.Ok` says
where a sleeping thread is: on the queue of the semaphore it waits for, once, and on no other.
The process table and the console are families of this kind.
-/

namespace Nachos

/-- `Thread *`. -/
abbrev Tid := Nat

/-- `enum ThreadStatus`.  `RUNNING` and `READY` are one here: which of the runnable threads has
the CPU is the schedule's choice. -/
inductive ThreadStatus where
  | justCreated | ready | blocked
  deriving DecidableEq, Repr

/-- Why a run does not go on: the action is none the system can take, an `ASSERT` aborts, a null
pointer is dereferenced, or an array is indexed outside its bounds. -/
inductive Stop where
  | disabled | assertFails | nullDeref | outOfBounds
  deriving DecidableEq, Repr

/-- `class Semaphore`, without its debugging name. -/
structure Semaphore where
  value : Int
  queue : List Tid
  deriving DecidableEq, Repr

namespace Semaphore

/-- `Semaphore::Semaphore`. -/
def new (initialValue : Int) : Semaphore := ⟨initialValue, []⟩

/-- One test of the loop of `Semaphore::P`: at `value == 0` the caller is appended to the queue
and goes to sleep (`false`), otherwise the value is consumed (`true`). -/
def P (s : Semaphore) (currentThread : Tid) : Semaphore × Bool :=
  if s.value = 0 then ({ s with queue := s.queue ++ [currentThread] }, false)
  else ({ s with value := s.value - 1 }, true)

/-- `Semaphore::V`, with the thread it hands to `Scheduler::ReadyToRun`, if any. -/
def V (s : Semaphore) : Semaphore × Option Tid :=
  match s.queue with
  | [] => ({ s with value := s.value + 1 }, none)
  | thread :: queue => (⟨s.value + 1, queue⟩, some thread)

@[simp] theorem new_value (n : Int) : (new n).value = n := rfl
@[simp] theorem new_queue (n : Int) : (new n).queue = [] := rfl

theorem P_zero {s : Semaphore} (h : s.value = 0) (t : Tid) :
    s.P t = ({ s with queue := s.queue ++ [t] }, false) := if_pos h

theorem P_pos {s : Semaphore} (h : s.value ≠ 0) (t : Tid) :
    s.P t = ({ s with value := s.value - 1 }, true) := if_neg h

theorem V_nil {s : Semaphore} (h : s.queue = []) :
    s.V = ({ s with value := s.value + 1 }, none) := by
  simp [V, h]

theorem V_cons {s : Semaphore} {t : Tid} {q : List Tid} (h : s.queue = t :: q) :
    s.V = (⟨s.value + 1, q⟩, some t) := by
  simp [V, h]

@[simp] theorem V_value (s : Semaphore) : s.V.1.value = s.value + 1 := by
  unfold V; split <;> rfl

end Semaphore

/-! ### Families of semaphores -/

/-- Semaphores named by `ρ`, and the status of the threads. -/
structure Sync (ρ : Type) where
  sems : ρ → Semaphore
  status : Tid → ThreadStatus

namespace Sync
variable {ρ : Type} [DecidableEq ρ]

/-- One test of `P` on `r` by `t`, and `Thread::Sleep` when it fails. -/
def P (y : Sync ρ) (t : Tid) (r : ρ) : Sync ρ × Bool :=
  match (y.sems r).P t with
  | (sem, true) => ({ y with sems := Function.update y.sems r sem }, true)
  | (sem, false) =>
      ({ sems := Function.update y.sems r sem
         status := Function.update y.status t .blocked }, false)

/-- `V` on `r`, and `Scheduler::ReadyToRun` of the thread it takes off the queue. -/
def V (y : Sync ρ) (r : ρ) : Sync ρ :=
  match (y.sems r).V with
  | (sem, none) => { y with sems := Function.update y.sems r sem }
  | (sem, some thread) =>
      { sems := Function.update y.sems r sem
        status := Function.update y.status thread .ready }

/-- `new Semaphore` in the place of `r`. -/
def renew (y : Sync ρ) (r : ρ) (initialValue : Int) : Sync ρ :=
  { y with sems := Function.update y.sems r (.new initialValue) }

theorem P_zero {y : Sync ρ} {r : ρ} (h : (y.sems r).value = 0) (t : Tid) :
    y.P t r = (⟨Function.update y.sems r ⟨(y.sems r).value, (y.sems r).queue ++ [t]⟩,
      Function.update y.status t .blocked⟩, false) := by
  simp [P, Semaphore.P_zero h]

theorem P_pos {y : Sync ρ} {r : ρ} (h : (y.sems r).value ≠ 0) (t : Tid) :
    y.P t r = (⟨Function.update y.sems r ⟨(y.sems r).value - 1, (y.sems r).queue⟩,
      y.status⟩, true) := by
  simp [P, Semaphore.P_pos h]

theorem V_nil {y : Sync ρ} {r : ρ} (h : (y.sems r).queue = []) :
    y.V r = ⟨Function.update y.sems r ⟨(y.sems r).value + 1, (y.sems r).queue⟩, y.status⟩ := by
  simp [V, Semaphore.V_nil h]

theorem V_cons {y : Sync ρ} {r : ρ} {t : Tid} {q : List Tid} (h : (y.sems r).queue = t :: q) :
    y.V r = ⟨Function.update y.sems r ⟨(y.sems r).value + 1, q⟩,
      Function.update y.status t .ready⟩ := by
  simp [V, Semaphore.V_cons h]

theorem P_sems_ne (y : Sync ρ) (t : Tid) {r r' : ρ} (h : r' ≠ r) :
    (y.P t r).1.sems r' = y.sems r' := by
  by_cases hv : (y.sems r).value = 0
  · rw [P_zero hv]; exact Function.update_of_ne h _ _
  · rw [P_pos hv]; exact Function.update_of_ne h _ _

theorem P_status_ne (y : Sync ρ) {t u : Tid} (r : ρ) (h : u ≠ t) :
    (y.P t r).1.status u = y.status u := by
  by_cases hv : (y.sems r).value = 0
  · rw [P_zero hv]; exact Function.update_of_ne h _ _
  · rw [P_pos hv]

theorem P_status_pos {y : Sync ρ} {r : ρ} (h : (y.sems r).value ≠ 0) (t : Tid) :
    (y.P t r).1.status = y.status := by rw [P_pos h]

theorem P_status_zero {y : Sync ρ} {r : ρ} (h : (y.sems r).value = 0) (t : Tid) :
    (y.P t r).1.status t = .blocked := by
  rw [P_zero h]; exact Function.update_self ..

theorem P_value_pos {y : Sync ρ} {r : ρ} (h : (y.sems r).value ≠ 0) (t : Tid) :
    ((y.P t r).1.sems r).value = (y.sems r).value - 1 := by
  rw [P_pos h]; simp

theorem P_value_zero {y : Sync ρ} {r : ρ} (h : (y.sems r).value = 0) (t : Tid) :
    ((y.P t r).1.sems r).value = 0 := by
  rw [P_zero h]; simp [h]

theorem V_sems_ne (y : Sync ρ) {r r' : ρ} (h : r' ≠ r) : (y.V r).sems r' = y.sems r' := by
  unfold V
  split <;> exact Function.update_of_ne h _ _

theorem V_value (y : Sync ρ) (r : ρ) : ((y.V r).sems r).value = (y.sems r).value + 1 := by
  cases hq : (y.sems r).queue with
  | nil => rw [V_nil hq]; simp
  | cons w q => rw [V_cons hq]; simp

@[simp] theorem renew_self (y : Sync ρ) (r : ρ) (n : Int) : (y.renew r n).sems r = .new n :=
  Function.update_self ..

theorem renew_ne (y : Sync ρ) {r r' : ρ} (n : Int) (h : r' ≠ r) :
    (y.renew r n).sems r' = y.sems r' := Function.update_of_ne h _ _

/-- `V` wakes at most the head of the queue. -/
theorem V_status (y : Sync ρ) (r : ρ) (u : Tid) : (y.V r).status u = y.status u ∨
    (u ∈ (y.sems r).queue ∧ (y.V r).status u = .ready) := by
  cases hq : (y.sems r).queue with
  | nil => rw [V_nil hq]; exact .inl rfl
  | cons w q =>
      rw [V_cons hq]
      by_cases e : u = w
      · subst e; exact .inr ⟨by simp, Function.update_self ..⟩
      · exact .inl (Function.update_of_ne e _ _)

/-- `waits t` names the semaphore in whose `P` the thread `t` is.  A thread sleeps nowhere else: it
is on the queue of the semaphore it waits for, once, and a queue holds no other thread. -/
structure Ok (y : Sync ρ) (waits : Tid → Option ρ) : Prop where
  mem : ∀ r t, t ∈ (y.sems r).queue ↔ y.status t = .blocked ∧ waits t = some r
  nodup : ∀ r, (y.sems r).queue.Nodup
  asleep : ∀ t, y.status t = .blocked → ∃ r, waits t = some r

namespace Ok
variable {y : Sync ρ} {waits : Tid → Option ρ} {r : ρ} {t : Tid}

omit [DecidableEq ρ] in
/-- A thread that does not sleep may go anywhere. -/
theorem goto (h : y.Ok waits) (ht : y.status t ≠ .blocked) (x : Option ρ) :
    y.Ok (Function.update waits t x) := by
  refine ⟨fun r u => ?_, h.nodup, fun u hu => ?_⟩ <;> by_cases e : u = t
  · subst e; simp [h.mem, ht]
  · rw [h.mem, Function.update_of_ne e]
  · subst e; exact absurd hu ht
  · rw [Function.update_of_ne e]; exact h.asleep u hu

/-- The test of `P` keeps `Ok`, whether it passes or puts the caller to sleep. -/
theorem P (h : y.Ok waits) (ht : y.status t ≠ .blocked) (hw : waits t = some r) :
    (y.P t r).1.Ok waits := by
  by_cases hv : (y.sems r).value = 0
  · have hn : t ∉ (y.sems r).queue := fun hm => ht ((h.mem r t).mp hm).1
    have ha : ∀ u, Function.update y.status t .blocked u = .blocked → ∃ r, waits u = some r :=
      fun u hu => by
        by_cases eu : u = t
        · subst eu; exact ⟨r, hw⟩
        · exact h.asleep u (by rwa [Function.update_of_ne eu] at hu)
    rw [P_zero hv]
    refine ⟨fun r' u => ?_, fun r' => ?_, ha⟩ <;> by_cases er : r' = r
    · subst er
      simp only [Function.update_self, List.mem_append, List.mem_singleton, h.mem]
      by_cases eu : u = t
      · subst eu; simp [hw]
      · rw [Function.update_of_ne eu]; simp [eu]
    · simp only [Function.update_of_ne er, h.mem]
      by_cases eu : u = t
      · subst eu; simp [ht, hw, Ne.symm er]
      · rw [Function.update_of_ne eu]
    · subst er
      simp only [Function.update_self]
      rw [← List.concat_eq_append, List.nodup_concat]
      exact ⟨hn, h.nodup r'⟩
    · simpa [Function.update_of_ne er] using h.nodup r'
  · rw [P_pos hv]
    refine ⟨fun r' u => ?_, fun r' => ?_, h.asleep⟩ <;> by_cases er : r' = r
    · subst er; simp [h.mem]
    · simp [Function.update_of_ne er, h.mem]
    · subst er; simpa using h.nodup r'
    · simpa [Function.update_of_ne er] using h.nodup r'

/-- `V` keeps `Ok`: the thread it wakes leaves the one queue it was on. -/
theorem V (h : y.Ok waits) (r : ρ) : (y.V r).Ok waits := by
  cases hq : (y.sems r).queue with
  | nil =>
      rw [V_nil hq]
      refine ⟨fun r' u => ?_, fun r' => ?_, h.asleep⟩ <;> by_cases er : r' = r
      · subst er; simp [h.mem]
      · simp [Function.update_of_ne er, h.mem]
      · subst er; simpa using h.nodup r'
      · simpa [Function.update_of_ne er] using h.nodup r'
  | cons w q =>
      have hw : y.status w = .blocked ∧ waits w = some r := (h.mem r w).mp (by simp [hq])
      have hnd := h.nodup r
      rw [hq, List.nodup_cons] at hnd
      have ha : ∀ u, Function.update y.status w .ready u = .blocked → ∃ r, waits u = some r :=
        fun u hu => by
          by_cases eu : u = w
          · subst eu; simp at hu
          · exact h.asleep u (by rwa [Function.update_of_ne eu] at hu)
      rw [V_cons hq]
      refine ⟨fun r' u => ?_, fun r' => ?_, ha⟩ <;> by_cases er : r' = r
      · subst er
        simp only [Function.update_self]
        by_cases eu : u = w
        · subst eu; simp [hnd.1]
        · have := h.mem r' u
          rw [hq, List.mem_cons, or_iff_right eu] at this
          rw [this, Function.update_of_ne eu]
      · simp only [Function.update_of_ne er, h.mem]
        by_cases eu : u = w
        · subst eu; simp [hw.2, Ne.symm er]
        · rw [Function.update_of_ne eu]
      · subst er; simpa using hnd.2
      · simpa [Function.update_of_ne er] using h.nodup r'

/-- A semaphore nobody waits for may be made anew. -/
theorem renew (h : y.Ok waits) (hr : (y.sems r).queue = []) (n : Int) :
    (y.renew r n).Ok waits := by
  refine ⟨fun r' u => ?_, fun r' => ?_, h.asleep⟩ <;> by_cases er : r' = r
  · subst er; simpa [Sync.renew, hr] using h.mem r' u
  · simpa [Sync.renew, Function.update_of_ne er] using h.mem r' u
  · subst er; simp [Sync.renew]
  · simpa [Sync.renew, Function.update_of_ne er] using h.nodup r'

omit [DecidableEq ρ] in
/-- The queue of a semaphore on which one thread sleeps. -/
theorem queue_eq (h : y.Ok waits) (ht : y.status t = .blocked) (hw : waits t = some r)
    (hu : ∀ u, waits u = some r → u = t) : (y.sems r).queue = [t] := by
  have hm : t ∈ (y.sems r).queue := (h.mem r t).mpr ⟨ht, hw⟩
  have hall : ∀ u ∈ (y.sems r).queue, u = t := fun u hu' => hu u ((h.mem r u).mp hu').2
  have hnd := h.nodup r
  match hq : (y.sems r).queue with
  | [] => rw [hq] at hm; cases hm
  | [u] => rw [hall u (by simp [hq])]
  | u :: v :: l =>
      rw [hq, hall u (by simp [hq]), hall v (by simp [hq])] at hnd
      simp at hnd

end Ok

end Sync

end Nachos
