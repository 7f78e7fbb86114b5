import Nachos.Threads.Placement

/-!
# Threads — Reclaim

What becomes of a thread that has finished.  `Finish` leaves it in `threadToBeDestroyed`, and
`Scheduler::Run` deletes it behind `SWITCH`; but a thread that runs for the first time goes to
`ThreadRoot` and not there.  `unreaped` looks at the switches only: a thread has finished, and
`SWITCH` has not returned in any thread since.  That is when `threadToBeDestroyed` is not `NULL`
(`ReapInv`), so a `Finish` then overwrites it.
-/

namespace Nachos.Sched
open Lib
open Interrupt (IntStatus)

/-- What an event does to a thread that waits to be deleted: is there one? -/
def Event.leaves (before : Bool) : Event → Bool
  | finished _ => true
  | resumed _ => false
  | _ => before

/-- A thread has finished, and `SWITCH` has returned in no thread since. -/
def unreaped (events : List Event) : Bool := events.foldl Event.leaves false

theorem unreaped_snoc (events : List Event) (e : Event) :
    unreaped (events ++ [e]) = e.leaves (unreaped events) := by
  simp [unreaped]

/-- `threadToBeDestroyed` is `NULL`, but when a thread has finished and none has come back. -/
structure ReapInv (s : State) : Prop where
  carcass : (s.stack s.currentThread).head? ≠ some .afterSwitch →
    (s.threadToBeDestroyed = none ↔ unreaped s.events = false)
  switched : (s.stack s.currentThread).head? = some .afterSwitch → unreaped s.events = false

section
variable {s s' : State} {t : Tid} {e : Event} {i : Instr} {rest : List Instr}

theorem Levelled.head_ne {l : IntStatus} {b : Bool} (h : Levelled t rest l b) :
    rest.head? ≠ some .afterSwitch := by
  cases rest with
  | nil => simp
  | cons i rest =>
      intro e
      cases e
      exact h.1

/-- A step inside of a thread. -/
theorem ReapInv.goto (h : ReapInv s) (hi : s.stack s.currentThread = i :: rest)
    (hne : i ≠ .afterSwitch) (hhead : (s'.stack s'.currentThread).head? ≠ some .afterSwitch)
    (hd : s'.threadToBeDestroyed = s.threadToBeDestroyed)
    (he : unreaped s'.events = unreaped s.events) : ReapInv s' where
  carcass _ := by
    rw [hd, he]
    exact h.carcass (by rw [hi]; simpa using hne)
  switched h' := absurd h' hhead

/-- `Scheduler::Run`: the next thread has a stack. -/
theorem ReapInv.run {x : State} {next : Tid} (h : ReapInv s)
    (hi : s.stack s.currentThread = i :: rest) (hne : i ≠ .afterSwitch)
    (hd : x.threadToBeDestroyed = s.threadToBeDestroyed)
    (he : unreaped x.events = unreaped s.events)
    (hnext : (x.run next rest).stack next = [.threadRoot] ∨
      ((x.run next rest).stack next).head? = some .afterSwitch) : ReapInv (x.run next rest) := by
  have hev : (x.run next rest).events = x.events ++
      [if ((x.run next rest).stack next).head? = some .threadRoot then .entered next
        else .resumed next] := rfl
  rcases hnext with hst | hst
  · rw [hst] at hev
    refine ⟨fun _ => ?_, fun h' => ?_⟩
    · rw [hev, unreaped_snoc]
      show x.threadToBeDestroyed = none ↔ unreaped x.events = false
      rw [hd, he]
      exact h.carcass (by rw [hi]; simpa using hne)
    · replace h' : ((x.run next rest).stack next).head? = some .afterSwitch := h'
      rw [hst] at h'
      cases h'
  · refine ⟨fun h' => absurd hst h', fun _ => ?_⟩
    rw [hst] at hev
    rw [hev, unreaped_snoc]
    rfl

/-- A thread that is taken off the ready list has a stack. -/
theorem next_stack {x : State} {next : Tid} {l : List Tid} (hL : LevelInv s) (hP : PlaceInv s)
    (hl : s.readyList = next :: l) (hcur : x.currentThread = s.currentThread)
    (hst : x.stack = s.stack) :
    (x.run next rest).stack next = [.threadRoot] ∨
      ((x.run next rest).stack next).head? = some .afterSwitch := by
  have hready : s.status next = .ready :=
    (hP.placed.ready_of_mem (u := next) (by rw [State.lists, hl]; simp)).1
  show Function.update x.stack x.currentThread _ next = _ ∨
    (Function.update x.stack x.currentThread _ next).head? = _
  rw [hcur, hst]
  by_cases e : next = s.currentThread
  · rw [e, Function.update_self]; exact .inr rfl
  · rw [Function.update_of_ne e]
    rcases hL.parked next e with hs | hs | ⟨rest, hs, -⟩
    · have hnew := hP.unborn next e hs
      rw [hready] at hnew
      cases hnew
    · exact .inl hs
    · exact .inr (by rw [hs]; rfl)

theorem Control.ne_afterSwitch {n : List Instr} {l l' : IntStatus} {b b' : Bool}
    (hc : Control t i l b n l' b') : i ≠ .afterSwitch := by
  cases hc <;> simp

/-- What `Run` does behind `SWITCH`. -/
theorem ReapInv.passes (h : ReapInv s) (hi : s.stack s.currentThread = .afterSwitch :: rest)
    (hhead : (s'.stack s'.currentThread).head? ≠ some .afterSwitch)
    (hd : s'.threadToBeDestroyed = none) (he : unreaped s'.events = unreaped s.events) :
    ReapInv s' where
  carcass _ := by
    have hs := h.switched (by rw [hi]; rfl)
    rw [hd, he]
    exact ⟨fun _ => hs, fun _ => rfl⟩
  switched h' := absurd h' hhead

/-- **Every step keeps `threadToBeDestroyed` in step with the switches.** -/
theorem Moves.reap (hL : LevelInv s) (hP : PlaceInv s) (h : ReapInv s) (hm : Moves s s') :
    ReapInv s' := by
  -- the stack of `currentThread` once it has gone on
  have hself : ∀ {x : State} {rest : List Instr},
      ((x.goto rest).stack (x.goto rest).currentThread) = rest := Function.update_self ..
  cases hm with
  | control hi hc hst hs =>
      refine h.goto hi hc.ne_afterSwitch ?_ hs.threadToBeDestroyed (by rw [hs.events])
      rw [hs.currentThread, hst, Function.update_self]
      exact (hc.levelled (hL.top hi)).head_ne
  | forks hi ht => exact h.goto hi (by simp) (by rw [hself]; simp [Op.code]) rfl rfl
  | forking hi =>
      refine h.goto hi (by simp) ?_ rfl (unreaped_snoc _ _)
      rw [hself]
      exact ((hL.top hi).topped rfl).rest.head_ne
  | @yields next l rest hi hl =>
      refine h.run hi (by simp) rfl ?_ (next_stack hL hP hl rfl rfl)
      exact (unreaped_snoc _ _).trans (unreaped_snoc s.events (.dispatched next))
  | waits hi _ => exact h.goto hi (by simp) (by rw [hself]; simp) rfl rfl
  | wakes hi _ =>
      refine h.goto hi (by simp) ?_ rfl (unreaped_snoc _ _)
      rw [hself]
      exact (((hL.top hi).levelled rfl).2.2 _ _ ⟨rfl, rfl⟩).head_ne
  | @finishes rest hi =>
      have hev : unreaped (s.events ++ [.finished s.currentThread]) = true := unreaped_snoc _ _
      refine ⟨fun _ => ⟨fun h' => ?_, fun h' => ?_⟩, fun h' => ?_⟩
      · cases h'
      · replace h' : unreaped (s.events ++ [.finished s.currentThread]) = false := h'
        rw [hev] at h'
        cases h'
      · rw [hself] at h'
        cases h'
  | dispatches hi hl =>
      exact h.run hi (by simp) rfl (unreaped_snoc _ _) (next_stack hL hP hl rfl rfl)
  | passes hi ht =>
      refine h.passes hi ?_ ht rfl
      rw [hself]
      exact ((hL.top hi).topped rfl).rest.head_ne
  | reaps hi _ =>
      refine h.passes hi ?_ rfl (unreaped_snoc _ _)
      rw [hself]
      exact ((hL.top hi).topped rfl).rest.head_ne

def Instr.finishes : Instr → Bool
  | finishing _ => true
  | _ => false

/-- `Finish` is called only when, since the last one, `SWITCH` has returned in some thread. -/
def Reaped (s : State) (_ : Action) : Prop :=
  (s.stack s.currentThread).head?.any Instr.finishes = true → unreaped s.events = false

instance (s : State) (a : Action) : Decidable (Reaped s a) := inferInstanceAs (Decidable (_ → _))

/-- Every finished thread is deleted, once, or is the one that waits for it. -/
structure Account (s : State) : Prop where
  finished : ∀ t, s.Finished t →
    s.events.count (.deleted t) = 1 ∧ s.threadToBeDestroyed ≠ some t ∨
    s.events.count (.deleted t) = 0 ∧ s.threadToBeDestroyed = some t
  deleted : ∀ t, .deleted t ∈ s.events → s.Finished t

/-- A step that finishes and deletes nobody. -/
theorem Account.keeps (h : Account s) (hd : s'.threadToBeDestroyed = s.threadToBeDestroyed)
    {l : List Event} (he : s'.events = s.events ++ l)
    (hes : ∀ t, .finished t ∉ l ∧ .deleted t ∉ l) : Account s' := by
  have hfin : ∀ t, s'.Finished t ↔ s.Finished t := by
    intro t
    simp [State.Finished, he, (hes t).1]
  refine ⟨fun t ht => ?_, fun t ht => ?_⟩
  · rw [he, hd, List.count_append, List.count_eq_zero.mpr (hes t).2, Nat.add_zero]
    exact h.finished t ((hfin t).mp ht)
  · rw [hfin]
    rw [he, List.mem_append] at ht
    exact h.deleted t (ht.resolve_right (hes t).2)

theorem Account.finishes (hL : LevelInv s) (hP : PlaceInv s) (hR : ReapInv s) (h : Account s)
    (hi : s.stack s.currentThread = .finishing s.currentThread :: rest)
    (hu : unreaped s.events = false) (hd : s'.threadToBeDestroyed = some s.currentThread)
    (he : s'.events = s.events ++ [.finished s.currentThread]) : Account s' := by
  -- nobody waits to be deleted, and `currentThread` has not finished before
  have hnone := (hR.carcass (by rw [hi]; simp)).mpr hu
  have hrun := hP.awake (hL.awake hi rfl rfl (by simp))
  have hnf : ¬ s.Finished s.currentThread := hP.not_finished (by rw [hrun]; simp)
  have hcount : ∀ t, s'.events.count (.deleted t) = s.events.count (.deleted t) := by
    intro t
    rw [he, List.count_append]
    simp
  refine ⟨fun t ht => ?_, fun t ht => ?_⟩
  · rw [hcount, hd]
    by_cases e : t = s.currentThread
    · subst e
      exact .inr ⟨List.count_eq_zero.mpr fun hdel => hnf (h.deleted _ hdel), rfl⟩
    · have hf : s.Finished t := by
        rw [State.Finished, he, List.mem_append] at ht
        exact ht.resolve_right (by simpa using e)
      rcases h.finished t hf with ⟨h₁, -⟩ | ⟨-, h₁⟩
      · exact .inl ⟨h₁, by simpa using Ne.symm e⟩
      · rw [hnone] at h₁
        cases h₁
  · rw [State.Finished, he]
    rw [he, List.mem_append] at ht
    exact List.mem_append_left _ (h.deleted t (ht.resolve_right (by simp)))

theorem Account.reaps (hP : PlaceInv s) (h : Account s) (ht : s.threadToBeDestroyed = some t)
    (hd : s'.threadToBeDestroyed = none) (he : s'.events = s.events ++ [.deleted t]) :
    Account s' := by
  have hfin : ∀ u, s'.Finished u ↔ s.Finished u := by
    intro u
    simp [State.Finished, he]
  refine ⟨fun u hu => .inl ⟨?_, by rw [hd]; simp⟩, fun u hu => ?_⟩
  · rw [he, List.count_append]
    rcases h.finished u ((hfin u).mp hu) with ⟨h₁, h₂⟩ | ⟨h₁, h₂⟩
    · have e : t ≠ u := by
        rintro rfl
        exact h₂ ht
      rw [h₁, List.count_eq_zero.mpr (by simpa using Ne.symm e)]
    · rw [ht] at h₂
      cases h₂
      rw [h₁]
      simp
  · rw [hfin]
    rw [he, List.mem_append] at hu
    rcases hu with hu | hu
    · exact h.deleted u hu
    · obtain rfl : u = t := by simpa using hu
      exact hP.carcass u ht

/-- A switch finishes and deletes nobody. -/
theorem run_events (x : State) (next : Tid) (rest : List Instr) :
    ∃ e, (x.run next rest).events = x.events ++ [e] ∧ ∀ t, e ≠ .finished t ∧ e ≠ .deleted t := by
  refine ⟨_, rfl, fun t => ?_⟩
  unfold State.switched
  split <;> simp

/-- A step finishes `currentThread`, deletes the thread that waits for it, or does neither. -/
theorem Moves.ledger (hm : Moves s s') :
    (∃ l, s'.events = s.events ++ l ∧ (∀ t, .finished t ∉ l ∧ .deleted t ∉ l) ∧
      s'.threadToBeDestroyed = s.threadToBeDestroyed) ∨
    (∃ rest, s.stack s.currentThread = .finishing s.currentThread :: rest ∧
      s'.events = s.events ++ [.finished s.currentThread] ∧
      s'.threadToBeDestroyed = some s.currentThread) ∨
    ∃ t, s.threadToBeDestroyed = some t ∧ s'.events = s.events ++ [.deleted t] ∧
      s'.threadToBeDestroyed = none := by
  cases hm with
  | control hi hc hst hs =>
      exact .inl ⟨[], by rw [hs.events]; simp, by simp, hs.threadToBeDestroyed⟩
  | forks | waits | passes => exact .inl ⟨[], (List.append_nil _).symm, by simp, rfl⟩
  | @forking t => exact .inl ⟨[.readied t], rfl, by simp, rfl⟩
  | @wakes r t => exact .inl ⟨[.readied t], rfl, by simp, rfl⟩
  | @yields next l rest hi hl =>
      obtain ⟨e, he, hne⟩ := run_events ((s.dispatch next l).readyToRun s.currentThread) next rest
      refine .inl ⟨[.dispatched next, .readied s.currentThread, e], ?_,
        by simp [Ne.symm (hne _).1, Ne.symm (hne _).2], rfl⟩
      rw [he]
      show s.events ++ [_] ++ [_] ++ [e] = _
      simp
  | @dispatches next l rest hi hl =>
      obtain ⟨e, he, hne⟩ := run_events (s.dispatch next l) next rest
      refine .inl ⟨[.dispatched next, e], ?_, by simp [Ne.symm (hne _).1, Ne.symm (hne _).2], rfl⟩
      rw [he]
      show s.events ++ [_] ++ [e] = _
      simp
  | @finishes rest hi => exact .inr (.inl ⟨rest, hi, rfl, rfl⟩)
  | @reaps t rest hi ht => exact .inr (.inr ⟨t, ht, rfl, rfl⟩)

/-- **A step that meets the condition keeps the account.** -/
theorem Account.step {a : Action} (hL : LevelInv s) (hP : PlaceInv s) (hR : ReapInv s)
    (h : Account s) (hc : Reaped s a) (hm : Moves s s') : Account s' := by
  rcases hm.ledger with ⟨l, he, hl, hd⟩ | ⟨rest, hi, he, hd⟩ | ⟨t, ht, he, hd⟩
  · exact h.keeps hd he hl
  · exact h.finishes hL hP hR hi (hc (by rw [hi]; rfl)) hd he
  · exact h.reaps hP ht hd he

/-- `t` has finished, and is neither deleted nor in `threadToBeDestroyed`. -/
structure Lost (t : Tid) (s : State) : Prop where
  finished : s.Finished t
  kept : .deleted t ∉ s.events
  forgotten : s.threadToBeDestroyed ≠ some t

/-- A lost thread stays lost. -/
theorem Lost.step (hL : LevelInv s) (hP : PlaceInv s) (h : Lost t s) (hm : Moves s s') :
    Lost t s' := by
  obtain ⟨hf, hk, hn⟩ := h
  have hfin : ∀ {l : List Event}, s'.events = s.events ++ l → s'.Finished t := by
    intro l he
    rw [State.Finished, he]
    exact List.mem_append_left _ hf
  rcases hm.ledger with ⟨l, he, hl, hd⟩ | ⟨rest, hi, he, hd⟩ | ⟨u, hu, he, hd⟩
  · exact ⟨hfin he, by rw [he]; simp [hk, (hl t).2], by rw [hd]; exact hn⟩
  · refine ⟨hfin he, by rw [he]; simp [hk], ?_⟩
    rw [hd]
    rintro ⟨⟩
    have hrun := hP.awake (hL.awake hi rfl rfl (by simp))
    exact hP.not_finished (by rw [hrun]; simp) hf
  · have e : t ≠ u := by
      rintro rfl
      exact hn hu
    exact ⟨hfin he, by rw [he]; simp [hk, e], by rw [hd]; simp⟩

/-! ### Runs -/

theorem init_reap (values : Nat → Int) : ReapInv (init values) :=
  ⟨fun _ => ⟨fun _ => rfl, fun _ => rfl⟩, nofun⟩

/-- **What `Finish` finds.**  In every run, `Finish` finds `threadToBeDestroyed` at `NULL` if and only
if a `SWITCH` has returned in some thread since the last `Finish`.  And in every run in which this
is so at each `Finish`, every thread that has finished has been deleted once, or is in
`threadToBeDestroyed` and has not been deleted; and no other thread has been deleted. -/
theorem finished_reclaimed {values : Nat → Int} (h : Steps step always (init values) s) :
    (∀ this rest, s.stack s.currentThread = .finishing this :: rest →
      (s.threadToBeDestroyed = none ↔ unreaped s.events = false)) ∧
    (Steps step Reaped (init values) s →
      (∀ t, s.Finished t → s.events.count (.deleted t) = 1 ∧ s.threadToBeDestroyed ≠ some t ∨
        s.events.count (.deleted t) = 0 ∧ s.threadToBeDestroyed = some t) ∧
      ∀ t, .deleted t ∈ s.events → s.Finished t) := by
  have hkeep : ∀ x a y, LevelInv x ∧ PlaceInv x ∧ ReapInv x → step x a = .ok y →
      LevelInv y ∧ PlaceInv y ∧ ReapInv y := by
    rintro x a y ⟨hL, hP, hR⟩ hok
    have hm := step_moves hok
    exact ⟨hm.levels hL, hm.places hL hP, hm.reap hL hP hR⟩
  have hinit : LevelInv (init values) ∧ PlaceInv (init values) ∧ ReapInv (init values) :=
    ⟨init_levels values, init_places values, init_reap values⟩
  refine ⟨fun this rest hi => ?_, fun hrun => ?_⟩
  · obtain ⟨-, -, hR⟩ := h.inv (I := fun s => LevelInv s ∧ PlaceInv s ∧ ReapInv s) hinit
      fun x a y hx _ hok => hkeep x a y hx hok
    exact hR.carcass (by rw [hi]; simp)
  · obtain ⟨-, hA⟩ := hrun.inv
      (I := fun s => (LevelInv s ∧ PlaceInv s ∧ ReapInv s) ∧ Account s) ⟨hinit, nofun, nofun⟩
      fun x a y hx hc hok => ⟨hkeep x a y hx.1 hok,
        hx.2.step hx.1.1 hx.1.2.1 hx.1.2.2 hc (step_moves hok)⟩
    exact ⟨hA.finished, hA.deleted⟩

theorem lost_forever (hR : Reachable s) (h : Lost t s) (hrun : Steps step always s s') : Lost t s' :=
  (hrun.inv (I := fun s => LevelInv s ∧ PlaceInv s ∧ Lost t s)
    ⟨reachable_levels hR, reachable_places hR, h⟩ fun _ _ _ hs _ hok =>
      ⟨(step_moves hok).levels hs.1, (step_moves hok).places hs.1 hs.2.1,
        hs.2.2.step hs.1 hs.2.1 (step_moves hok)⟩).2.2

end

/-- The main thread forks one thread and yields to it, it finishes, and the main thread finishes. -/
def finishesOne : List Action :=
  enables ++ [.calls (.fork 1), .exec, .exec] ++ enables ++ [.exec, .calls .yield, .exec, .exec, .exec] ++
    enables ++ [.calls .finish, .exec, .exec, .exec, .exec] ++ enables ++
    [.exec, .calls .finish, .exec]

/-- The main thread comes back from `SWITCH` and deletes the other one. -/
theorem finished_reclaimed_one : ∃ s this rest, Steps step Reaped (init fun _ => 0) s ∧
    s.stack s.currentThread = .finishing this :: rest ∧ s.threadToBeDestroyed = none ∧
    s.Finished 1 ∧ s.events.count (.deleted 1) = 1 := by
  obtain ⟨s, hs, hp⟩ := (Option.any_eq_true ..).mp (show (run step Reaped (init fun _ => 0)
    finishesOne).any (fun s => s.stack s.currentThread = [.finishing 0, .procedure, .call .finish] ∧
      unreaped s.events = false ∧ .finished 1 ∈ s.events) = true by decide +kernel)
  obtain ⟨hst, hu, hf⟩ := of_decide_eq_true hp
  have hsteps := Steps.of_run hs
  obtain ⟨hfinish, hall⟩ := finished_reclaimed hsteps.any
  have hnone := (hfinish _ _ hst).mpr hu
  refine ⟨s, _, _, hsteps, hst, hnone, hf, ?_⟩
  rcases (hall hsteps).1 1 hf with ⟨h₁, -⟩ | ⟨-, h₁⟩
  · exact h₁
  · rw [hnone] at h₁
    cases h₁

/-- Threads 1 and 2 run for the first time and finish, one after the other. -/
def finishesTwo : List Action :=
  forksTwo ++ [.exec] ++ enables ++ [.calls .finish, .exec, .exec, .exec, .exec] ++ enables ++
    [.calls .finish, .exec]

/-- The main thread forks two threads and yields; both finish before it runs again, and the first
one is never deleted. -/
theorem finished_leaks : ∃ s s', Reachable s ∧ s.currentThread = 2 ∧
    (s.stack 2).head? = some (.finishing 2) ∧ s.threadToBeDestroyed = some 1 ∧
    step s .exec = .ok s' ∧ s'.threadToBeDestroyed = some 2 ∧
    ∀ s'', Steps step always s' s'' → s''.Finished 1 ∧ .deleted 1 ∉ s''.events := by
  obtain ⟨s, hs, hp⟩ := (Option.any_eq_true ..).mp (show (run step always (init fun _ => 0)
    finishesTwo).any (fun s => s.currentThread = 2 ∧ (s.stack 2).head? = some (.finishing 2) ∧
      s.threadToBeDestroyed = some 1 ∧ (step s .exec).toOption.any fun s' =>
        s'.threadToBeDestroyed = some 2 ∧ .finished 1 ∈ s'.events ∧ .deleted 1 ∉ s'.events) = true
    by decide +kernel)
  obtain ⟨hcur, hst, hd, hp⟩ := of_decide_eq_true hp
  obtain ⟨s', hs', hp⟩ := (Option.any_eq_true ..).mp hp
  obtain ⟨hd', hf, hk⟩ := of_decide_eq_true hp
  have hsteps := Steps.of_run hs
  refine ⟨s, s', ⟨_, hsteps⟩, hcur, hst, hd, toOption_some hs', hd', fun s'' hrun => ?_⟩
  have hlost := lost_forever ⟨_, hsteps.tail trivial (toOption_some hs')⟩
    ⟨hf, hk, by rw [hd']; decide⟩ hrun
  exact ⟨hlost.finished, hlost.kept⟩

end Nachos.Sched
