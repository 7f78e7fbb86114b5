import Nachos.Lib.Runs
import Nachos.Threads.STable

/-!
# Threads — SemaphoreValue

The `value` of a `Semaphore` is an `int`.  `P` tests it against 0 before it decrements, `V`
increments it unchecked: at 2147483647 the sum wraps around.

`Counted` counts beside the table what has been done to each semaphore: its initial value, the
completed `Signal`s and the completed `Wait`s.

* `value_eq_count`: in every run in which no `Signal` finds the greatest value, the value is the
  initial value and the signals less the waits, and never negative.
* `signal_overflows`: one that finds it makes the value negative.
-/

namespace Nachos.STable
open Lib

/-- The table, with the history of the semaphore in each slot. -/
structure Counted where
  state : State
  init : Fin MAX_LOCK → Int
  signals : Fin MAX_LOCK → Nat
  waits : Fin MAX_LOCK → Nat

namespace Counted

def new (heap : Nat → BitVec 32) : Counted := ⟨.new heap, fun _ => 0, fun _ => 0, fun _ => 0⟩

/-- One more completed `Wait`. -/
def waited (g : Counted) (i : Option (Fin MAX_LOCK)) : Counted :=
  match i with
  | some i => { g with waits := Function.update g.waits i (g.waits i + 1) }
  | none => g

/-- What a call that has returned 0 adds to the history. -/
def count (g : Counted) : Call → Counted
  | .create _ _ init =>
      match g.state.bm.find.1 with
      | some i =>
          { g with
            init := Function.update g.init i init.toInt
            signals := Function.update g.signals i 0
            waits := Function.update g.waits i 0 }
      | none => g
  | .wait _ name => g.waited (name.bind g.state.scan)
  | .signal _ name =>
      match name.bind g.state.scan with
      | some i => { g with signals := Function.update g.signals i (g.signals i + 1) }
      | none => g
  | .retest t => g.waited (g.state.inWait t)

/-- The entry of a call in the history, and the table after it. -/
def after (g : Counted) (c : Call) (r : Option Int) (s : State) : Counted :=
  if r = some 0 then { g.count c with state := s } else { g with state := s }

/-- A call on the table. -/
def step (g : Counted) (c : Call) : Except Stop Counted := do
  let (r, s) ← STable.step g.state c
  .ok (g.after c r s)

end Counted

/-! ### A test -/

/-- A test passes, or the thread sleeps. -/
theorem test_cases (s : State) (t : Tid) (i : Fin MAX_LOCK) :
    ((s.sync.sems i).value ≠ 0 ∧ (s.test t i).1 = some 0 ∧
      ((s.test t i).2.sync.sems i).value = asInt ((s.sync.sems i).value - 1)) ∨
    ((s.sync.sems i).value = 0 ∧ (s.test t i).1 = none ∧
      ((s.test t i).2.sync.sems i).value = 0 ∧ (s.test t i).2.sync.status t = .blocked) := by
  unfold State.test
  by_cases hv : (s.sync.sems i).value = 0
  · refine .inr ⟨hv, ?_⟩
    have h₁ := Sync.P_value_zero hv t
    have h₂ := Sync.P_status_zero hv t
    rw [Sync.P_zero hv] at h₁ h₂ ⊢
    exact ⟨rfl, h₁, h₂⟩
  · refine .inl ⟨hv, ?_⟩
    have h₁ := Sync.P_value_pos hv t
    rw [Sync.P_pos hv] at h₁ ⊢
    exact ⟨rfl, (Sync.narrow_value ..).trans (congrArg asInt h₁)⟩

theorem test_sems_ne (s : State) (t : Tid) {i j : Fin MAX_LOCK} (h : j ≠ i) :
    (s.test t i).2.sync.sems j = s.sync.sems j := by
  have hj := s.sync.P_sems_ne t h
  unfold State.test
  split <;> rename_i hp <;> rw [hp] at hj
  · exact (Sync.narrow_sems_ne _ h).trans hj
  · exact hj

/-! ### The values and their history -/

namespace Counted
variable {g g' : Counted} {c : Call}

/-- The value is what the history says, and an `int` that is not negative. -/
def Inv (g : Counted) : Prop :=
  ∀ i, (g.state.sync.sems i).value = g.init i + g.signals i - g.waits i ∧
    0 ≤ (g.state.sync.sems i).value ∧ (g.state.sync.sems i).value < 2 ^ 31

/-- The slot a `Signal` increments. -/
def signalled (g : Counted) : Call → Option (Fin MAX_LOCK)
  | .signal _ name => name.bind g.state.scan
  | .create _ _ _ | .wait _ _ | .retest _ => none

/-- The value a `Signal` finds is not the greatest there is. -/
def Room (g : Counted) (c : Call) : Prop :=
  ∀ i ∈ g.signalled c, (g.state.sync.sems i).value ≠ 2147483647

instance (g : Counted) (c : Call) : Decidable (g.Room c) :=
  inferInstanceAs (Decidable (∀ i ∈ g.signalled c, _))

theorem new_inv (heap : Nat → BitVec 32) : Inv (new heap) := fun _ =>
  ⟨rfl, le_refl _, show (0 : Int) < 2 ^ 31 by decide⟩

theorem step_eq (hs : g.step c = .ok g') : ∃ r s, STable.step g.state c = .ok (r, s) ∧
    g' = g.after c r s := by
  unfold step at hs
  cases h : STable.step g.state c with
  | error e => rw [h] at hs; cases hs
  | ok x =>
      rw [h] at hs
      cases hs
      exact ⟨x.1, x.2, rfl, rfl⟩

/-- The history after a change at one slot: a value there that the history accounts for, and the
others as they were. -/
theorem Inv.at (h : Inv g) (i : Fin MAX_LOCK)
    (hi : (g'.state.sync.sems i).value = asInt (g'.init i + g'.signals i - g'.waits i) ∧
      0 ≤ g'.init i + g'.signals i - g'.waits i ∧ g'.init i + g'.signals i - g'.waits i < 2 ^ 31)
    (hother : ∀ j, j ≠ i → (g'.state.sync.sems j).value = (g.state.sync.sems j).value ∧
      g'.init j = g.init j ∧ g'.signals j = g.signals j ∧ g'.waits j = g.waits j) : Inv g' := by
  intro j
  by_cases e : j = i
  · subst e
    obtain ⟨hv, h₀, h₁⟩ := hi
    rw [asInt_eq (by omega) h₁] at hv
    rw [hv]
    exact ⟨rfl, h₀, h₁⟩
  · obtain ⟨hv, h₁, h₂, h₃⟩ := hother j e
    rw [hv, h₁, h₂, h₃]
    exact h j

/-- `create`, whose value is an `int`. -/
theorem Inv.create (h : Inv g) {s : State} {t : Tid} {name : Name} {init : BitVec 32}
    {i : Fin MAX_LOCK} (hinit : 0 ≤ init.toInt)
    (hf : g.state.bm.find = (some i, g.state.bm.mark i))
    (hs : s.sync = g.state.sync.renew i init.toInt) :
    Inv (g.after (.create t (some name) init) (some 0) s) := by
  have hlt : init.toInt < 2 ^ 31 := BitVec.toInt_lt
  have hg : g.after (.create t (some name) init) (some 0) s =
      ⟨s, Function.update g.init i init.toInt, Function.update g.signals i 0,
        Function.update g.waits i 0⟩ := by
    simp [after, count, hf]
  rw [hg]
  refine h.at i ?_ fun j hj => ?_
  · simp only [Function.update_self, hs, Sync.renew_self, Semaphore.new_value]
    push_cast
    rw [add_zero, sub_zero, asInt_eq (by omega) hlt]
    exact ⟨rfl, hinit, hlt⟩
  · simp only [Function.update_of_ne hj, hs, Sync.renew_ne _ _ hj, and_self]

/-- A test of `wait`: one that passes is counted. -/
theorem Inv.test (h : Inv g) {t : Tid} {i : Fin MAX_LOCK} (ht : Tests g.state c t i) :
    Inv (g.after c (g.state.test t i).1 (g.state.test t i).2) := by
  have hother (j) (hj : j ≠ i) : ((g.state.test t i).2.sync.sems j).value =
      (g.state.sync.sems j).value := by
    rw [test_sems_ne g.state t hj]
  obtain ⟨hi, h₀, hlt⟩ := h i
  rcases test_cases g.state t i with ⟨hv, hr, hval⟩ | ⟨hv, hr, hval, -⟩
  · have hg : g.after c (some 0) (g.state.test t i).2 = ⟨(g.state.test t i).2,
        g.init, g.signals, Function.update g.waits i (g.waits i + 1)⟩ := by
      rcases ht with ⟨name, rfl, hscan⟩ | ⟨rfl, hin⟩
      · simp [after, count, waited, hscan]
      · simp [after, count, waited, hin]
    rw [hr, hg]
    refine h.at i ?_ fun j hj => ⟨hother j hj, rfl, rfl, Function.update_of_ne hj _ _⟩
    simp only [Function.update_self, hval, hi]
    push_cast
    exact ⟨congrArg asInt (by omega), by omega, by omega⟩
  · rw [hr]
    refine h.at i ?_ fun j hj => ⟨hother j hj, rfl, rfl, rfl⟩
    change ((g.state.test t i).2.sync.sems i).value =
        asInt (g.init i + g.signals i - g.waits i) ∧
      0 ≤ g.init i + g.signals i - g.waits i ∧ g.init i + g.signals i - g.waits i < 2 ^ 31
    rw [hval, ← hi, hv]
    decide

/-- `signal`, below the greatest value. -/
theorem Inv.signal (h : Inv g) {s : State} {t : Tid} {name : Name} {i : Fin MAX_LOCK}
    (hi : g.state.scan name = some i) (hmax : (g.state.sync.sems i).value ≠ 2147483647)
    (hs : s.sync = (g.state.sync.V i).narrow i) :
    Inv (g.after (.signal t (some name)) (some 0) s) := by
  obtain ⟨hv, h₀, hlt⟩ := h i
  have hg : g.after (.signal t (some name)) (some 0) s =
      ⟨s, g.init, Function.update g.signals i (g.signals i + 1), g.waits⟩ := by
    simp [after, count, hi]
  rw [hg]
  refine h.at i ?_ fun j hj => ⟨?_, rfl, Function.update_of_ne hj _ _, rfl⟩
  · simp only [Function.update_self, hs, Sync.narrow_value, Sync.V_value, hv]
    push_cast
    exact ⟨congrArg asInt (by omega), by omega, by omega⟩
  · simp only [hs, Sync.narrow_sems_ne _ hj, Sync.V_sems_ne _ hj]

/-- A call keeps the count, unless it is a `Signal` that finds the greatest value. -/
theorem step_inv (h : Inv g) (hc : g.Room c) (hs : g.step c = .ok g') : Inv g' := by
  obtain ⟨r, s, hst, rfl⟩ := step_eq hs
  rcases step_cases hst with ⟨rfl, rfl⟩ | ⟨t, name, init, i, rfl, hinit, hf, rfl, hsync⟩ |
    ⟨t, i, ht, htest⟩ | ⟨t, name, i, rfl, hi, rfl, hsync⟩
  · exact h
  · exact h.create hinit hf hsync
  · have ht' := h.test ht
    rwa [htest] at ht'
  · exact h.signal hi (hc i hi) hsync

/-- A ready thread that tests an exhausted semaphore goes to sleep. -/
def Blocks (g : Counted) (t : Tid) (c : Call) : Prop :=
  ∃ s, STable.step g.state c = .ok (none, s) ∧ s.sync.status t = .blocked

theorem blocks_of_zero {t : Tid} {i : Fin MAX_LOCK} (ht : g.state.sync.status t = .ready)
    (hc : (∃ name, c = .wait t (some name) ∧ g.state.inWait t = none ∧
      g.state.scan name = some i) ∨ (c = .retest t ∧ g.state.inWait t = some i))
    (hv : (g.state.sync.sems i).value = 0) : g.Blocks t c := by
  have hstep : STable.step g.state c = .ok (g.state.test t i) := by
    rcases hc with ⟨name, rfl, hn, hi⟩ | ⟨rfl, hi⟩
    · simp only [STable.step, ht, hn, and_self, if_true, State.wait, hi]
    · simp only [STable.step, ht, hi, if_true]
  rcases test_cases g.state t i with ⟨hne, -⟩ | ⟨-, hr, -, hst⟩
  · exact absurd hv hne
  · exact ⟨(g.state.test t i).2, by rw [hstep, ← hr], hst⟩

end Counted

open Counted in
/-- **The value of a semaphore.**  In every run in which no `Signal` finds the greatest value, by
whatever threads and from whatever initial values, the value of every semaphore is its initial value
and its completed `Signal`s less its completed `Wait`s, and never negative; so no more `Wait`s have
completed than that, and on an exhausted semaphore a `Wait` and a thread woken in one go to
sleep. -/
theorem value_eq_count {heap : Nat → BitVec 32} {g : Counted}
    (h : Steps Counted.step Room (.new heap) g) (i : Fin MAX_LOCK) :
    (g.state.sync.sems i).value = g.init i + g.signals i - g.waits i ∧
      0 ≤ (g.state.sync.sems i).value ∧ (g.waits i : Int) ≤ g.init i + g.signals i ∧
      ∀ t c, g.state.sync.status t = .ready →
        ((∃ name, c = .wait t (some name) ∧ g.state.inWait t = none ∧
          g.state.scan name = some i) ∨ (c = .retest t ∧ g.state.inWait t = some i)) →
        (g.waits i : Int) = g.init i + g.signals i → g.Blocks t c := by
  have hinv : g.Inv := h.inv (new_inv heap) fun g c g' => step_inv
  obtain ⟨hv, h₀, -⟩ := hinv i
  refine ⟨hv, h₀, by omega, fun t c ht hc hex => blocks_of_zero ht hc ?_⟩
  rw [hv]
  omega

/-- A semaphore made with 2147483646 and signalled once, on which two threads have waited. -/
theorem value_eq_count_run : ∃ g, Steps Counted.step Counted.Room (.new fun _ => 0) g ∧
    g.init 0 = 2147483646 ∧ g.signals 0 = 1 ∧ g.waits 0 = 2 ∧
    (g.state.sync.sems 0).value = 2147483645 := by
  obtain ⟨g, hg, hp⟩ := (Option.any_eq_true ..).mp (show (run Counted.step Counted.Room
    (.new fun _ => 0) [.create 1 (some [108]) 2147483646, .signal 1 (some [108]),
      .wait 1 (some [108]), .wait 2 (some [108])]).any (fun g =>
        g.init 0 = 2147483646 ∧ g.signals 0 = 1 ∧ g.waits 0 = 2) = true by decide +kernel)
  obtain ⟨h₁, h₂, h₃⟩ := of_decide_eq_true hp
  have hrun := Steps.of_run hg
  refine ⟨g, hrun, h₁, h₂, h₃, ?_⟩
  rw [(value_eq_count hrun 0).1, h₁, h₂, h₃]
  rfl

/-- A semaphore made with 2147483647, which `SyscallCreateSemaphore` accepts, and signalled once:
its value is negative. -/
theorem signal_overflows : ∃ g, Steps Counted.step always (.new fun _ => 0) g ∧
    g.init 0 = 2147483647 ∧ g.signals 0 = 1 ∧ (g.state.sync.sems 0).value = -2147483648 := by
  obtain ⟨g, hg, hp⟩ := (Option.any_eq_true ..).mp (show (run Counted.step always
    (.new fun _ => 0) [.create 1 (some [108]) 2147483647, .signal 1 (some [108])]).any (fun g =>
        g.init 0 = 2147483647 ∧ g.signals 0 = 1 ∧
          (g.state.sync.sems 0).value = -2147483648) = true by decide +kernel)
  exact ⟨g, Steps.of_run hg, of_decide_eq_true hp⟩

end Nachos.STable
