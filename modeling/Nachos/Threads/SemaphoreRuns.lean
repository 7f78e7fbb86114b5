import Nachos.Threads.Semaphore

/-!
# Threads — one semaphore, any number of threads

The runs of one semaphore: any thread outside `P` may call it, a thread that `V` took off the
queue tests `value` again when the schedule lets it, and `V` comes from a thread or from an
interrupt handler at any moment.  `woken` is the set of threads a `V` dequeued that have not
tested since.

The invariant behind the absence of lost wake-ups is `noLost`: while a thread is queued, `value`
is at most the number of woken threads.  A thread is queued only at `value == 0`; after that, each
`V` adds one to both sides and each test takes one off both, or off `woken` at `value == 0`, or
(an overtaking `P`) off `value` alone.
-/

namespace Nachos.SemaphoreRuns
open Lib

structure State where
  sync : Sync Unit
  inP : Tid → Bool
  woken : Finset Tid
  completedP : Nat
  completedV : Nat

inductive Action where
  /-- A thread calls `P`. -/
  | P (t : Tid)
  /-- A woken thread comes back from `Thread::Sleep` and tests `value`. -/
  | retest (t : Tid)
  /-- `V`, from a thread or an interrupt handler. -/
  | V

namespace State

def sem (s : State) : Semaphore := s.sync.sems ()

/-- The semaphore in whose `P` a thread is. -/
def waits (s : State) (t : Tid) : Option Unit := if s.inP t then some () else none

/-- One test of the loop of `P`. -/
def test (s : State) (t : Tid) : State :=
  match s.sync.P t () with
  | (sync, true) =>
      { s with
        sync := sync
        inP := Function.update s.inP t false
        woken := s.woken.erase t
        completedP := s.completedP + 1 }
  | (sync, false) =>
      { s with
        sync := sync
        inP := Function.update s.inP t true
        woken := s.woken.erase t }

/-- `V`. -/
def signal (s : State) : State :=
  { s with
    sync := s.sync.V ()
    woken := match s.sem.queue with
      | [] => s.woken
      | t :: _ => insert t s.woken
    completedV := s.completedV + 1 }

end State

/-- A semaphore created with `initialValue`; no thread has called it. -/
def init (initialValue : Int) : State where
  sync := ⟨fun _ => Semaphore.new initialValue, fun _ => .ready⟩
  inP _ := false
  woken := ∅
  completedP := 0
  completedV := 0

def step (s : State) : Action → Except Stop State
  | .P t => if s.sync.status t = .ready ∧ s.inP t = false then .ok (s.test t) else .error .disabled
  | .retest t =>
      if s.sync.status t = .ready ∧ s.inP t = true then .ok (s.test t) else .error .disabled
  | .V => .ok s.signal

/-- What holds in every state of a run of a semaphore created with `n`. -/
structure Inv (n : Int) (s : State) : Prop where
  ok : s.sync.Ok s.waits
  woken : ∀ t, t ∈ s.woken ↔ s.sync.status t = .ready ∧ s.inP t = true
  balance : s.sem.value = n + s.completedV - s.completedP
  nonneg : 0 ≤ s.sem.value
  noLost : s.sem.queue ≠ [] → s.sem.value ≤ s.woken.card

theorem init_inv {n : Int} (hn : 0 ≤ n) : Inv n (init n) where
  ok := ⟨fun r t => by simp [init], fun r => by simp [init], fun t h => by cases h⟩
  woken t := by simp [init]
  balance := by simp [init, State.sem]
  nonneg := hn
  noLost h := absurd rfl h

/-- A sleeping thread is inside `P`. -/
theorem Inv.asleep {n : Int} {s : State} (h : Inv n s) {t : Tid} (ht : s.sync.status t = .blocked) :
    s.inP t = true := by
  obtain ⟨r, hr⟩ := h.ok.asleep t ht
  by_contra hn
  simp [State.waits, hn] at hr

theorem waits_update (s : State) (t : Tid) (b : Bool) :
    (fun u => if Function.update s.inP t b u then some () else none) =
      Function.update s.waits t (if b then some () else none) := by
  funext u
  by_cases e : u = t
  · subst e; simp
  · simp [Function.update_of_ne e, State.waits]

/-- A test of `P` by a thread that is awake keeps the invariant. -/
theorem test_inv {n : Int} {s : State} {t : Tid} (h : Inv n s) (ht : s.sync.status t = .ready) :
    Inv n (s.test t) := by
  have hb : s.sync.status t ≠ .blocked := by rw [ht]; decide
  have hw : s.woken.card - 1 ≤ (s.woken.erase t).card := Finset.pred_card_le_card_erase
  have ok' := (h.ok.goto hb (some ())).P hb (r := ()) (by simp)
  by_cases hv : (s.sync.sems ()).value = 0
  · -- the caller is appended, at `value == 0`
    have e : s.test t = { s with
        sync := (s.sync.P t ()).1, inP := Function.update s.inP t true,
        woken := s.woken.erase t } := by
      simp [State.test, Sync.P_zero hv]
    rw [e]
    refine ⟨?_, fun u => ?_, ?_, ?_, fun _ => ?_⟩
    · show Sync.Ok _ fun u => if Function.update s.inP t true u then some () else none
      rw [waits_update]
      exact ok'
    · by_cases eu : u = t
      · subst eu; simp [Sync.P_zero hv]
      · simp [Sync.P_zero hv, eu, h.woken]
    · simpa [State.sem, Sync.P_zero hv] using h.balance
    · simp [State.sem, Sync.P_zero hv, hv]
    · simp [State.sem, Sync.P_zero hv, hv]
  · -- the value is consumed
    have e : s.test t = { s with
        sync := (s.sync.P t ()).1, inP := Function.update s.inP t false,
        woken := s.woken.erase t, completedP := s.completedP + 1 } := by
      simp [State.test, Sync.P_pos hv]
    have hb' : (s.sync.P t ()).1.status t ≠ .blocked := by simpa [Sync.P_pos hv] using hb
    have bal := h.balance
    have nn := h.nonneg
    rw [e]
    refine ⟨?_, fun u => ?_, ?_, ?_, fun hq => ?_⟩
    · show Sync.Ok _ fun u => if Function.update s.inP t false u then some () else none
      rw [waits_update]
      simpa using ok'.goto hb' none
    · by_cases eu : u = t
      · subst eu; simp
      · simp [Sync.P_pos hv, eu, h.woken]
    · simp only [State.sem, Sync.P_pos hv, Function.update_self] at bal ⊢
      push_cast
      omega
    · simp only [State.sem, Sync.P_pos hv, Function.update_self] at nn ⊢
      omega
    · have := h.noLost (by simpa [State.sem, Sync.P_pos hv] using hq)
      simp only [State.sem, Sync.P_pos hv, Function.update_self] at this ⊢
      omega

/-- `V` keeps the invariant. -/
theorem signal_inv {n : Int} {s : State} (h : Inv n s) : Inv n s.signal := by
  have bal := h.balance
  have nn := h.nonneg
  cases hq : (s.sync.sems ()).queue with
  | nil =>
      have e : s.signal = { s with sync := s.sync.V (), completedV := s.completedV + 1 } := by
        simp [State.signal, State.sem, hq]
      rw [e]
      refine ⟨h.ok.V (), fun u => ?_, ?_, ?_, fun hne => ?_⟩
      · simp [Sync.V_nil hq, h.woken]
      · simp only [State.sem, Sync.V_nil hq, Function.update_self] at bal ⊢
        push_cast
        omega
      · simp only [State.sem, Sync.V_nil hq, Function.update_self] at nn ⊢
        omega
      · simp [State.sem, Sync.V_nil hq, hq] at hne
  | cons w q =>
      have hw := (h.ok.mem () w).mp (by simp [hq])
      have hnw : w ∉ s.woken := fun hm => by
        rw [h.woken, hw.1] at hm; cases hm.1
      have e : s.signal = { s with
          sync := s.sync.V (), woken := insert w s.woken, completedV := s.completedV + 1 } := by
        simp [State.signal, State.sem, hq]
      rw [e]
      refine ⟨h.ok.V (), fun u => ?_, ?_, ?_, fun _ => ?_⟩
      · by_cases eu : u = w
        · subst eu
          simp [Sync.V_cons hq, h.asleep hw.1]
        · simp [Sync.V_cons hq, eu, h.woken]
      · simp only [State.sem, Sync.V_cons hq, Function.update_self] at bal ⊢
        push_cast
        omega
      · simp only [State.sem, Sync.V_cons hq, Function.update_self] at nn ⊢
        omega
      · have := h.noLost (by simp [State.sem, hq])
        simp only [State.sem, Sync.V_cons hq, Function.update_self,
          Finset.card_insert_of_notMem hnw] at this ⊢
        push_cast
        omega

theorem step_inv {n : Int} {s s' : State} {a : Action} (h : Inv n s) (hs : step s a = .ok s') :
    Inv n s' := by
  cases a with
  | P t | retest t =>
      simp only [step] at hs
      split at hs
      · rename_i hg
        cases hs
        exact test_inv h hg.1
      · cases hs
  | V =>
      cases hs
      exact signal_inv h

theorem run_inv {n : Int} (hn : 0 ≤ n) {s : State} (h : Steps step always (init n) s) :
    Inv n s :=
  h.inv (init_inv hn) fun _ _ _ hI _ hs => step_inv hI hs

/-- **A semaphore loses no wake-up.**  In every state of every run of a semaphore created with
`n ≥ 0`: `value` is `n` plus the completed `V`s minus the completed `P`s and is not negative; a
sleeping thread is on the queue exactly once, and the queue holds no other thread; `woken` is the
set of threads inside `P` that are ready; while the queue is not empty, `value` is at most their
number; so `value > 0`, a queued thread and no woken thread never come together. -/
theorem semaphore_noLostWakeup {n : Int} (hn : 0 ≤ n) {s : State}
    (h : Steps step always (init n) s) :
    s.sem.value = n + s.completedV - s.completedP ∧ 0 ≤ s.sem.value ∧
    (∀ t, s.sync.status t = .blocked → s.sem.queue.count t = 1) ∧
    (∀ t, t ∈ s.sem.queue → s.sync.status t = .blocked) ∧
    (∀ t, t ∈ s.woken ↔ s.sync.status t = .ready ∧ s.inP t = true) ∧
    (s.sem.queue ≠ [] → s.sem.value ≤ s.woken.card) ∧
    ¬ (0 < s.sem.value ∧ s.sem.queue ≠ [] ∧ s.woken = ∅) := by
  have hI := run_inv hn h
  refine ⟨hI.balance, hI.nonneg, fun t ht => ?_, fun t ht => ((hI.ok.mem () t).mp ht).1,
    hI.woken, hI.noLost, fun ⟨hv, hq, hw⟩ => ?_⟩
  · have hm : t ∈ s.sem.queue := (hI.ok.mem () t).mpr ⟨ht, by simp [State.waits, hI.asleep ht]⟩
    exact List.count_eq_one_of_mem (hI.ok.nodup ()) hm
  · have := hI.noLost hq
    rw [hw, Finset.card_empty] at this
    exact absurd hv (by omega)

/-- Three threads on a semaphore created with 1: one passes, two sleep, and one `V` wakes the
first of them. -/
theorem semaphore_noLostWakeup_three : ∃ s,
    run step always (init 1) [.P 0, .P 1, .P 2, .V] = some s ∧ s.sem.queue = [2] ∧ s.woken = {1} ∧
      s.sem.value ≤ s.woken.card := by
  have hs : run step always (init 1) [.P 0, .P 1, .P 2, .V] = some _ := rfl
  exact ⟨_, hs, by decide, by decide,
    (semaphore_noLostWakeup (n := 1) (by decide) (Steps.of_run hs)).2.2.2.2.2.1 (by decide)⟩

end Nachos.SemaphoreRuns
