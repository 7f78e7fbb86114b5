import Nachos.Threads.Placement

/-!
# Threads — Discipline

The discipline of the interrupt level, read off the invariants: no `ASSERT` fails
(`asserts_hold`), the lists of the scheduler change only with interrupts off (`lists_off`), and an
operation returns at the level it was called at (`call_returns`).  For the last one, a step leaves
the rest of a stack below its first piece as it is (`Moves.stack`), so what stands below a call is
there again when the call has returned.
-/

namespace Nachos.Sched
open Lib
open Interrupt (IntStatus)

section
variable {s s' : State} {t : Tid} {i : Instr} {rest : List Instr}

/-! ### Asserts -/

theorem sleep_holds (hl : s.level = .intOff) :
    s.sleep s.currentThread rest ≠ .error .assertFails := by
  rw [State.sleep, if_pos ⟨rfl, hl⟩]
  intro hf
  cases hf

theorem setLevel_holds {now : IntStatus} (h : now = .intOff ∨ s.inHandler = false) :
    s.setLevel now rest ≠ .error .assertFails := by
  rw [State.setLevel, if_pos h]
  intro hf
  cases hf

theorem checkIfDue_holds {due : Bool} {called none : List Instr} (hl : s.level = .intOff) :
    s.checkIfDue due called none ≠ .error .assertFails := by
  rw [State.checkIfDue, if_pos hl]
  intro hf
  cases hf

/-- The destructor of `Thread` is not called on `currentThread`. -/
theorem afterSwitch_holds (h : PlaceInv s) (ha : ¬ s.Asleep) :
    s.afterSwitch rest ≠ .error .assertFails := by
  unfold State.afterSwitch
  split
  · intro hf
    cases hf
  · rename_i thread ht
    have hne : thread ≠ s.currentThread := by
      rintro rfl
      exact h.not_finished (by rw [h.awake ha]; simp) (h.carcass _ ht)
    rw [if_pos hne]
    intro hf
    cases hf

theorem call_holds (op : Op) : s.call op rest ≠ .error .assertFails := by
  unfold State.call
  split
  · split
    · exact setLevel_holds (.inl rfl)
    · rintro ⟨⟩
  · exact setLevel_holds (.inl rfl)

theorem yielding_holds {this : Tid} (hthis : this = s.currentThread) :
    s.yielding this rest ≠ .error .assertFails := by
  unfold State.yielding
  rw [if_pos hthis]
  split <;> rintro ⟨⟩

theorem waiting_holds {r : Nat} (hl : s.level = .intOff) :
    s.waiting r rest ≠ .error .assertFails := by
  unfold State.waiting
  split
  · rintro ⟨⟩
  · exact sleep_holds (s := { s with sems := _ }) hl

theorem finishing_holds (hl : s.level = .intOff) :
    s.finishing s.currentThread rest ≠ .error .assertFails := by
  rw [State.finishing, if_pos rfl]
  exact sleep_holds (s := State.log _ _) hl

theorem idle_holds {due : Bool} (hl : s.level = .intOff) :
    s.idle due rest ≠ .error .assertFails := by
  unfold State.idle
  split
  · rintro ⟨⟩
  · rename_i e he
    rintro ⟨⟩
    exact checkIfDue_holds hl he

theorem idleLoop_holds {due : Bool} (hl : s.level = .intOff) :
    s.idleLoop due rest ≠ .error .assertFails := by
  unfold State.idleLoop
  split
  · rintro ⟨⟩
  · rename_i e he
    rintro ⟨⟩
    exact checkIfDue_holds hl he

theorem procedure_holds (a : Action) : s.execute .procedure rest a ≠ .error .assertFails := by
  cases a with
  | tick =>
      simp only [State.execute]
      split <;> rintro ⟨⟩
  | _ => rintro ⟨⟩

theorem handler_holds (hh : s.inHandler = true) (a : Action) :
    s.execute .handler rest a ≠ .error .assertFails := by
  cases a with
  | asks =>
      simp only [State.execute, State.asksToYield, if_pos hh]
      rintro ⟨⟩
  | calls op => cases op <;> rintro ⟨⟩
  | _ => rintro ⟨⟩

/-- The next piece, as it is typed. -/
theorem exec_holds (hL : LevelInv s) (hP : PlaceInv s) (hi : s.stack s.currentThread = i :: rest) :
    s.execute i rest .exec ≠ .error .assertFails := by
  have htyped := hL.top hi
  cases i with
  | call op => exact call_holds op
  | setLevel now => exact setLevel_holds (htyped.levelled rfl).1
  | yielding this => exact yielding_holds (htyped.levelled rfl).1.2.2
  | waiting r => exact waiting_holds (htyped.levelled rfl).1.1
  | finishing this =>
      obtain ⟨hl, -, rfl⟩ := (htyped.levelled rfl).1
      exact finishing_holds hl
  | afterSwitch =>
      refine afterSwitch_holds hP ?_
      rw [State.Asleep, hi]
      simpa using (htyped.topped rfl).awake
  | _ => rintro ⟨⟩

theorem due_holds {due : Bool} (hL : LevelInv s) (hi : s.stack s.currentThread = i :: rest) :
    s.execute i rest (.due due) ≠ .error .assertFails := by
  have htyped := hL.top hi
  cases i with
  | checkIfDue => exact checkIfDue_holds (htyped.levelled rfl).1.1
  | idle => exact idle_holds (htyped.levelled rfl).1.1
  | idleLoop => exact idleLoop_holds (htyped.levelled rfl).1.1
  | _ => rintro ⟨⟩

/-- **No `ASSERT` fails.** -/
theorem asserts_hold (h : Reachable s) (a : Action) : step s a ≠ .error .assertFails := by
  have hL := reachable_levels h
  unfold step
  split
  · rintro ⟨⟩
  split
  · rintro ⟨⟩
  rename_i i rest hi
  by_cases hp : i = .procedure
  · subst hp
    exact procedure_holds a
  by_cases hh : i = .handler
  · subst hh
    exact handler_holds ((hL.top hi).levelled rfl).1.2 a
  rcases execute_cases s rest a ⟨hp, hh⟩ with rfl | ⟨d, rfl⟩ | he
  · exact exec_holds hL (reachable_places h) hi
  · exact due_holds hL hi
  · rw [he]
    rintro ⟨⟩

/-! ### Lists -/

/-- **The lists of the scheduler change only with interrupts off.** -/
theorem lists_off (hL : LevelInv s) (hm : Moves s s') (hne : s'.lists ≠ s.lists) :
    s.level = .intOff ∧ s'.level = .intOff := by
  cases hm with
  | control hi hc hst hs => exact absurd (lists_congr hs.readyList hs.queue) hne
  | forks hi ht => exact absurd (lists_congr rfl fun _ => rfl) hne
  | forking hi =>
      have hl := ((hL.top hi).topped rfl).level
      exact ⟨hl, hl⟩
  | yields hi _ =>
      obtain ⟨hl, -⟩ := ((hL.top hi).levelled rfl).1
      exact ⟨hl, hl⟩
  | waits hi _ =>
      obtain ⟨hl, -⟩ := ((hL.top hi).levelled rfl).1
      exact ⟨hl, hl⟩
  | wakes hi _ =>
      have hl : s.level = .intOff := ((hL.top hi).levelled rfl).1
      exact ⟨hl, hl⟩
  | finishes hi => exact absurd (lists_congr rfl fun _ => rfl) hne
  | dispatches hi _ =>
      obtain ⟨hl, -⟩ := ((hL.top hi).levelled rfl).1
      exact ⟨hl, hl⟩
  | passes hi _ => exact absurd (lists_congr rfl fun _ => rfl) hne
  | reaps hi _ => exact absurd (lists_congr rfl fun _ => rfl) hne

/-! ### Returns -/

/-- A step works on the top of the stack of `currentThread`. -/
theorem Moves.stack (hm : Moves s s') :
    (∀ t, t ≠ s.currentThread → s.stack t ≠ [] → s'.stack t = s.stack t) ∧
    ∃ i rest n, s.stack s.currentThread = i :: rest ∧ s'.stack s.currentThread = n ++ rest := by
  have hgo : ∀ {i : Instr} {rest n : List Instr}, s.stack s.currentThread = i :: rest →
      s'.stack = Function.update s.stack s.currentThread (n ++ rest) →
      (∀ t, t ≠ s.currentThread → s.stack t ≠ [] → s'.stack t = s.stack t) ∧
      ∃ i rest n, s.stack s.currentThread = i :: rest ∧ s'.stack s.currentThread = n ++ rest := by
    intro i rest n hi e
    rw [e]
    exact ⟨fun t ht _ => Function.update_of_ne ht _ _, i, rest, n, hi, Function.update_self ..⟩
  cases hm with
  | control hi hc hst hs => exact hgo hi hst
  | @forks u rest hi hu =>
      refine ⟨fun t ht hst => ?_, _, rest, (Op.fork u).code s.currentThread s.level, hi,
        Function.update_self ..⟩
      have e : t ≠ u := by
        rintro rfl
        exact hst hu
      show Function.update (Function.update s.stack u _) s.currentThread _ t = _
      rw [Function.update_of_ne ht, Function.update_of_ne e]
  | forking hi => exact hgo (n := []) hi rfl
  | yields hi _ => exact hgo (n := [.afterSwitch]) hi rfl
  | @waits r rest hi _ => exact hgo (n := [.sleepLoop, .waiting r]) hi rfl
  | wakes hi _ => exact hgo (n := []) hi rfl
  | finishes hi => exact hgo (n := [.sleepLoop]) hi rfl
  | dispatches hi _ => exact hgo (n := [.afterSwitch]) hi rfl
  | passes hi _ => exact hgo (n := []) hi rfl
  | reaps hi _ => exact hgo (n := []) hi rfl

/-- The end of an operation changes nothing. -/
theorem Moves.ret {op : Op} {old : IntStatus} (hm : Moves s s')
    (hi : s.stack s.currentThread = .ret op old :: rest) :
    s'.currentThread = s.currentThread ∧ s'.stack s.currentThread = rest ∧ s'.level = s.level := by
  cases hm with
  | control hi' hc hst hs =>
      rw [hi] at hi'
      cases hi'
      generalize hl : s'.level = l at hc
      generalize s'.inHandler = b at hc
      cases hc
      exact ⟨hs.currentThread, by rw [hst, Function.update_self]; rfl, rfl⟩
  | forks hi' | forking hi' | yields hi' | waits hi' | wakes hi' | finishes hi' | dispatches hi'
  | passes hi' | reaps hi' =>
      rw [hi] at hi'
      cases hi'

/-- An operation begins. -/
theorem Moves.call {op : Op} (hm : Moves s s') (hi : s.stack s.currentThread = .call op :: rest) :
    s'.stack s.currentThread = op.code s.currentThread s.level ++ rest := by
  cases hm with
  | control hi' hc hst hs =>
      rw [hi] at hi'
      cases hi'
      rw [hst, Function.update_self]
      generalize s'.level = l at hc
      generalize s'.inHandler = b at hc
      cases hc
      rfl
  | forks hi' =>
      rw [hi] at hi'
      cases hi'
      exact Function.update_self ..
  | forking hi' | yields hi' | waits hi' | wakes hi' | finishes hi' | dispatches hi'
  | passes hi' | reaps hi' =>
      rw [hi] at hi'
      cases hi'

/-- A call of `t` at the level `old`, with `rest` below it, is open; or it has just returned. -/
def Open (t : Tid) (op : Op) (old : IntStatus) (rest : List Instr) (s : State) : Prop :=
  (∃ above, s.stack t = above ++ .ret op old :: rest) ∨
    s.stack t = rest ∧ s.currentThread = t ∧ s.level = old

theorem Open.step {op : Op} {old : IntStatus} (hL : LevelInv s) (h : Open t op old rest s)
    (hlen : rest.length < (s.stack t).length) (hm : Moves s s') : Open t op old rest s' := by
  rcases h with ⟨above, h⟩ | ⟨h, -⟩
  · obtain ⟨hother, i, below, n, hi, hn⟩ := hm.stack
    by_cases e : t = s.currentThread
    · subst e
      cases above with
      | nil =>
          -- the operation ends
          have hfits : s.level = old := ((hL.top h).levelled rfl).1
          obtain ⟨h₁, h₂, h₃⟩ := hm.ret h
          exact .inr ⟨h₂, h₁, h₃.trans hfits⟩
      | cons j above =>
          rw [hi] at h
          cases h
          exact .inl ⟨n ++ above, by rw [hn, List.append_assoc]; rfl⟩
    · exact .inl ⟨above, by rw [hother t e (by rw [h]; simp)]; exact h⟩
  · rw [h] at hlen
    exact absurd hlen (Nat.lt_irrefl _)

/-- **An operation returns at the level it was called at.** -/
theorem call_returns {op : Op} {s₁ s₂ : State} (h : Reachable s) (hop : op ≠ .finish)
    (hi : s.stack s.currentThread = .call op :: rest) (hok : step s .exec = .ok s₁)
    (hrun : Steps step (fun z _ => rest.length < (z.stack s.currentThread).length) s₁ s₂)
    (hend : s₂.stack s.currentThread = rest) :
    s₂.currentThread = s.currentThread ∧ s₂.level = s.level := by
  have hL := (step_moves hok).levels (reachable_levels h)
  have hopen : Open s.currentThread op s.level rest s₁ := by
    refine .inl ?_
    rw [(step_moves hok).call hi]
    cases op with
    | fork u => exact ⟨[.forking u, .setLevel s.level], rfl⟩
    | yield => exact ⟨[.yielding _, .setLevel s.level], rfl⟩
    | P r => exact ⟨[.waiting r, .setLevel s.level], rfl⟩
    | V r => exact ⟨[.signalling r, .setLevel s.level], rfl⟩
    | finish => exact absurd rfl hop
  obtain ⟨-, hopen₂⟩ := hrun.inv (I := fun z => LevelInv z ∧ Open s.currentThread op s.level rest z)
    ⟨hL, hopen⟩ fun z _ _ hz hc hok =>
      ⟨(step_moves hok).levels hz.1, hz.2.step hz.1 hc (step_moves hok)⟩
  rcases hopen₂ with ⟨above, e⟩ | ⟨-, h₁, h₂⟩
  · have hlen := congrArg List.length e
    rw [hend] at hlen
    simp at hlen
    omega
  · exact ⟨h₁, h₂⟩

/-- **The discipline of the interrupt level.**  In every run: no `ASSERT` fails; a step that changes
the ready list or the queue of a semaphore finds interrupts off, and leaves them so; and an
operation that is called in a state, and whose caller is back at what stood below the call, has
returned to the caller at the level of the call, whatever the other threads have done meanwhile. -/
theorem interrupt_discipline (h : Reachable s) :
    (∀ a, step s a ≠ .error .assertFails) ∧
    (∀ a s', step s a = .ok s' →
      (s'.readyList ≠ s.readyList ∨ ∃ r, (s'.sems r).queue ≠ (s.sems r).queue) →
      s.level = .intOff ∧ s'.level = .intOff) ∧
    ∀ op rest s₁ s₂, op ≠ .finish → s.stack s.currentThread = .call op :: rest →
      step s .exec = .ok s₁ →
      Steps step (fun z _ => rest.length < (z.stack s.currentThread).length) s₁ s₂ →
      s₂.stack s.currentThread = rest →
      s₂.currentThread = s.currentThread ∧ s₂.level = s.level := by
  refine ⟨asserts_hold h, fun a s' hok hne => ?_,
    fun op rest s₁ s₂ hop hi hok hrun hend => call_returns h hop hi hok hrun hend⟩
  refine lists_off (reachable_levels h) (step_moves hok) fun e => ?_
  rcases hne with hne | ⟨r, hne⟩
  · exact hne (congrFun e none)
  · exact hne (congrFun e (some r))

end

/-- The main thread yields to thread 1, which yields back: `Yield` returns with interrupts on. -/
theorem interrupt_discipline_yield : ∃ s s₁ s₂, Reachable s ∧
    s.stack s.currentThread = [.call .yield, .procedure, .call .finish] ∧ s.level = .intOn ∧
    step s .exec = .ok s₁ ∧ s₁.level = .intOff ∧
    Steps step (fun z _ => 2 < (z.stack s.currentThread).length) s₁ s₂ ∧
    s₂.currentThread = s.currentThread ∧ s₂.level = s.level := by
  obtain ⟨s, hs, hp⟩ := (Option.any_eq_true ..).mp (show (run step always (init fun _ => 0)
    (enables ++ [.calls (.fork 1), .exec, .exec] ++ enables ++ [.exec, .calls .yield])).any (fun s =>
      s.currentThread = 0 ∧ s.stack 0 = [.call .yield, .procedure, .call .finish] ∧
      s.level = .intOn ∧ (step s .exec).toOption.any fun s₁ => s₁.level = .intOff ∧
        (run step (fun z _ => 2 < (z.stack 0).length) s₁ ([.exec, .exec] ++ enables ++
          [.calls .yield, .exec, .exec, .exec] ++ enables ++ [.exec])).any fun s₂ =>
            s₂.stack 0 = [.procedure, .call .finish]) = true by decide +kernel)
  obtain ⟨hcur, hst, hl, hp⟩ := of_decide_eq_true hp
  obtain ⟨s₁, hs₁, hp⟩ := (Option.any_eq_true ..).mp hp
  obtain ⟨hl₁, hp⟩ := of_decide_eq_true hp
  obtain ⟨s₂, hs₂, hp⟩ := (Option.any_eq_true ..).mp hp
  have hend := of_decide_eq_true hp
  rw [← hcur] at hst hs₂ hend
  have hR : Reachable s := ⟨_, Steps.of_run hs⟩
  have hrun := Steps.of_run hs₂
  obtain ⟨h₁, h₂⟩ := (interrupt_discipline hR).2.2 .yield _ s₁ s₂ nofun hst (toOption_some hs₁)
    hrun hend
  exact ⟨s, s₁, s₂, hR, hst, hl, toOption_some hs₁, hl₁, hrun, h₁, h₂⟩

end Nachos.Sched
