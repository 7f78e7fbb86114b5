import Nachos.Threads.Scheduler

/-!
# Threads — Levels

At which level a thread comes to each piece of its stack.  `Levelled this st l h` follows a stack
from the level `l`, inside a handler (`h`) or not: each piece is one that may be executed there
(`Fits`), and leaves the level the next one finds (`Ends`).  What `ThreadRoot`, `Fork` and
`Scheduler::Run` leave stands only on top of a stack.  A thread that does not have the CPU has
given it up inside `Run`, with interrupts off, or has not begun (`Parked`).
-/

namespace Nachos.Sched
open Lib
open Interrupt (IntStatus)

/-- Where a piece may be executed. -/
def Instr.Fits (this : Tid) (l : IntStatus) (h : Bool) : Instr → Prop
  | procedure => h = false
  | call (.V _) => l = .intOff ∨ h = false
  | call _ => h = false
  | ret _ old => l = old
  | setLevel now => now = .intOff ∨ h = false
  | handler => l = .intOff ∧ h = true
  | signalling _ => l = .intOff
  | yielding t | finishing t => l = .intOff ∧ h = false ∧ t = this
  | checkIfDue | tickEnd | waiting _ | sleepLoop | idle | idleLoop => l = .intOff ∧ h = false
  -- only on top
  | threadRoot | forking _ | afterSwitch => False

/-- What a piece leaves, when the thread comes to the next one. -/
def Instr.Ends : Instr → IntStatus → Bool → IntStatus → Bool → Prop
  | procedure, _, h, _, h' => h' = h
  | call .finish, _, h, l', h' => l' = .intOff ∧ h' = h
  | setLevel now, _, h, l', h' => l' = now ∧ h' = h
  | tickEnd, _, h, l', h' => l' = .intOn ∧ h' = h
  | handler, l, _, l', h' => l' = l ∧ h' = false
  | _, l, h, l', h' => l' = l ∧ h' = h

/-- The pieces of a thread that sleeps: those of the handlers while the machine idles. -/
def Instr.idles : Instr → Bool
  | call (.V _) | ret (.V _) _ | setLevel .intOff | handler | signalling _ | idle | idleLoop => true
  | _ => false

def Levelled (this : Tid) : List Instr → IntStatus → Bool → Prop
  | [], _, _ => True
  | i :: rest, l, h => i.Fits this l h ∧ (i.idles = true ∧ l = .intOff ∨ .sleepLoop ∉ rest) ∧
      ∀ l' h', i.Ends l h l' h' → Levelled this rest l' h'

/-- What stands only on top. -/
def Instr.onTop : Instr → Bool
  | threadRoot | forking _ | afterSwitch => true
  | _ => false

/-- A stack with such a piece on top. -/
structure Topped (this : Tid) (i : Instr) (rest : List Instr) (l : IntStatus) (h : Bool) : Prop where
  onTop : i.onTop = true
  level : l = .intOff
  handler : h = false
  awake : .sleepLoop ∉ rest
  rest : Levelled this rest .intOff false

def Typed (this : Tid) (st : List Instr) (l : IntStatus) (h : Bool) : Prop :=
  Levelled this st l h ∨ ∃ i rest, st = i :: rest ∧ Topped this i rest l h

/-- A thread that does not have the CPU. -/
def Parked (this : Tid) (st : List Instr) : Prop :=
  st = [] ∨ st = [.threadRoot] ∨
    ∃ rest, st = .afterSwitch :: rest ∧ .sleepLoop ∉ rest ∧ Levelled this rest .intOff false

structure LevelInv (s : State) : Prop where
  current : Typed s.currentThread (s.stack s.currentThread) s.level s.inHandler
  parked : ∀ t, t ≠ s.currentThread → Parked t (s.stack t)

section
variable {this : Tid} {i : Instr} {n rest : List Instr} {l l' : IntStatus} {h h' : Bool}

/-- A procedure is free to set the level. -/
theorem Levelled.procedure (hp : Levelled this (.procedure :: rest) l h) (l' : IntStatus) :
    Levelled this (.procedure :: rest) l' h := by
  obtain ⟨hfits, hidle | hidle, hends⟩ := hp
  · cases hidle.1
  · exact ⟨hfits, .inr hidle, fun l'' h' hE => hends l'' h' hE⟩

/-- Only a handler, or the idle machine, stands above a thread that sleeps. -/
theorem Levelled.awake (hp : Levelled this (i :: rest) l h) (hi : i.idles = false) :
    .sleepLoop ∉ rest := by
  rcases hp.2.1 with hidle | hidle
  · rw [hi] at hidle
    cases hidle.1
  · exact hidle

theorem Parked.typed {st : List Instr} (hp : Parked this st) : Typed this st .intOff false := by
  rcases hp with rfl | rfl | ⟨rest, rfl, h₁, h₂⟩
  · exact .inl trivial
  · exact .inr ⟨_, _, rfl, rfl, rfl, rfl, nofun, trivial⟩
  · exact .inr ⟨_, _, rfl, rfl, rfl, rfl, h₁, h₂⟩

/-- A piece that does not stand on top only. -/
theorem Typed.levelled (ht : Typed this (i :: rest) l h) (hi : i.onTop = false) :
    Levelled this (i :: rest) l h := by
  rcases ht with ht | ⟨j, rest', e, ht⟩
  · exact ht
  · cases e
    rw [ht.onTop] at hi
    cases hi

theorem Typed.topped (ht : Typed this (i :: rest) l h) (hi : i.onTop = true) :
    Topped this i rest l h := by
  rcases ht with ht | ⟨j, rest', e, ht⟩
  · cases i with
    | threadRoot | forking | afterSwitch => exact ht.1.elim
    | _ => cases hi
  · cases e
    exact ht

/-- The end of an operation: the level is set to what it was at the call. -/
theorem levelled_back (op : Op) (hl : l = .intOff ∨ h = false)
    (hs : (Instr.ret op l).idles = true ∧ l = .intOff ∨ .sleepLoop ∉ rest)
    (hr : Levelled this rest l h) :
    Levelled this (.setLevel l :: .ret op l :: rest) .intOff h := by
  refine ⟨hl, ?_, ?_⟩
  · rcases hs with ⟨-, rfl⟩ | hs
    · exact .inl ⟨rfl, rfl⟩
    · exact .inr (by simp [hs])
  · rintro l' h' ⟨rfl, rfl⟩
    refine ⟨rfl, hs, ?_⟩
    rintro l'' h'' ⟨rfl, rfl⟩
    exact hr

/-- The code of an operation is at the levels it needs. -/
theorem levelled_code {op : Op} (hop : ∀ t, op ≠ .fork t)
    (hc : Levelled this (.call op :: rest) l h) :
    Levelled this (op.code this l ++ rest) .intOff h := by
  obtain ⟨hfits, hidle, hends⟩ := id hc
  cases op with
  | fork t => exact absurd rfl (hop t)
  | yield | P =>
      have hs := hc.awake rfl
      obtain rfl : h = false := hfits
      refine ⟨by simp [Instr.Fits], .inr (by simp [hs]), ?_⟩
      rintro l' h' ⟨rfl, rfl⟩
      exact levelled_back _ (.inr rfl) (.inr hs) (hends _ _ ⟨rfl, rfl⟩)
  | V r =>
      have hback := levelled_back (.V r) hfits
        (hidle.imp (fun hi => ⟨rfl, hi.2⟩) id) (hends _ _ ⟨rfl, rfl⟩)
      refine ⟨rfl, .inl ⟨rfl, rfl⟩, ?_⟩
      rintro l' h' ⟨rfl, rfl⟩
      exact hback
  | finish =>
      have hs := hc.awake rfl
      obtain rfl : h = false := hfits
      refine ⟨by simp [Instr.Fits], .inr hs, ?_⟩
      rintro l' h' ⟨rfl, rfl⟩
      exact hends _ _ ⟨rfl, rfl⟩

/-- `OneTick` turns interrupts off, and on again at its end. -/
theorem levelled_tick (hs : .sleepLoop ∉ rest) (hr : Levelled this rest .intOn false) :
    Levelled this (.checkIfDue :: .tickEnd :: rest) .intOff false := by
  refine ⟨⟨rfl, rfl⟩, .inr (by simp [hs]), ?_⟩
  rintro l' h' ⟨rfl, rfl⟩
  refine ⟨⟨rfl, rfl⟩, .inr hs, ?_⟩
  rintro l' h' ⟨rfl, rfl⟩
  exact hr

theorem levelled_handler (hr : Levelled this rest .intOff false) :
    Levelled this (.handler :: rest) .intOff true := by
  refine ⟨⟨rfl, rfl⟩, .inl ⟨rfl, rfl⟩, ?_⟩
  rintro l' h' ⟨rfl, rfl⟩
  exact hr

/-- An operation is called by a procedure, or by `OneTick`. -/
theorem levelled_call (op : Op) (hs : .sleepLoop ∉ rest)
    (hr : Levelled this rest l false) (hf : op = .finish → Levelled this rest .intOff false) :
    Levelled this (.call op :: rest) l false := by
  cases op with
  | V r =>
      refine ⟨.inr rfl, .inr hs, ?_⟩
      rintro l' h' ⟨rfl, rfl⟩
      exact hr
  | finish =>
      refine ⟨rfl, .inr hs, ?_⟩
      rintro l' h' ⟨rfl, rfl⟩
      exact hf rfl
  | _ =>
      refine ⟨rfl, .inr hs, ?_⟩
      rintro l' h' ⟨rfl, rfl⟩
      exact hr

/-- **A step that moves no thread keeps the levels.** -/
theorem Control.levelled (hc : Control this i l h n l' h') (ht : Typed this (i :: rest) l h) :
    Levelled this (n ++ rest) l' h' := by
  cases hc with
  | threadRoot =>
      obtain ⟨-, rfl, rfl, hs, hr⟩ := ht.topped rfl
      refine ⟨.inr rfl, .inr (by simp [hs]), ?_⟩
      rintro l' h' ⟨rfl, rfl⟩
      refine ⟨rfl, .inr (by simp [hs]), ?_⟩
      rintro l' h' rfl
      refine ⟨rfl, .inr hs, ?_⟩
      rintro l' h' ⟨rfl, rfl⟩
      exact hr
  | calls op =>
      have hp := ht.levelled rfl
      obtain rfl : h = false := hp.1
      exact levelled_call op (by simp [hp.awake rfl]) hp fun _ => hp.procedure _
  | sets now =>
      have hp := ht.levelled rfl
      refine ⟨.inr hp.1, .inr (by simp [hp.awake rfl]), ?_⟩
      rintro l' h' ⟨rfl, rfl⟩
      exact hp.procedure _
  | tick =>
      have hp := ht.levelled rfl
      obtain rfl : h = false := hp.1
      exact levelled_tick (by simp [hp.awake rfl]) hp
  | returns => exact (ht.levelled rfl).2.2 _ _ rfl
  | call hop => exact levelled_code hop (ht.levelled rfl)
  | ret | noneReady | consumes | noneWaits | notDue | idleEnd | halts =>
      exact (ht.levelled rfl).2.2 _ _ ⟨rfl, rfl⟩
  | setLevel | tickEnd | handled => exact (ht.levelled rfl).2.2 _ _ ⟨rfl, rfl⟩
  | enables =>
      have hl := ht.levelled rfl
      obtain rfl : h = false := hl.1.resolve_left nofun
      exact levelled_tick (hl.awake rfl) (hl.2.2 _ _ ⟨rfl, rfl⟩)
  | due =>
      have hl := ht.levelled rfl
      obtain rfl : h = false := hl.1.2
      exact levelled_handler hl
  | tickYield =>
      have hl := ht.levelled rfl
      obtain rfl : h = false := hl.1.2
      exact levelled_call .yield (hl.awake rfl) (hl.2.2 _ _ ⟨rfl, rfl⟩) nofun
  | handlerV r =>
      have hl := ht.levelled rfl
      refine ⟨.inl hl.1.1, .inl ⟨rfl, hl.1.1⟩, ?_⟩
      rintro l' h' ⟨rfl, rfl⟩
      exact hl
  | asks => exact ht.levelled rfl
  | idles =>
      have hl := ht.levelled rfl
      refine ⟨hl.1, .inl ⟨rfl, hl.1.1⟩, ?_⟩
      rintro l' h' ⟨rfl, rfl⟩
      exact hl
  | idleDue =>
      have hl := ht.levelled rfl
      obtain rfl : h = false := hl.1.2
      refine levelled_handler ⟨⟨rfl, rfl⟩, .inl ⟨rfl, rfl⟩, ?_⟩
      rintro l' h' ⟨rfl, rfl⟩
      exact hl.2.2 _ _ ⟨rfl, rfl⟩
  | idleAgain =>
      have hl := ht.levelled rfl
      obtain rfl : h = false := hl.1.2
      exact levelled_handler hl

end

/-! ### The invariant -/

section
variable {s s' : State} {rest : List Instr}

/-- `currentThread` goes on with another stack; the other threads are where they were, or have been
given a stack. -/
theorem LevelInv.goto (h : LevelInv s) (hcur : s'.currentThread = s.currentThread)
    (hst : ∀ t, t ≠ s.currentThread → s'.stack t = s.stack t ∨ s'.stack t = [.threadRoot])
    (ht : Typed s.currentThread (s'.stack s.currentThread) s'.level s'.inHandler) :
    LevelInv s' where
  current := by rw [hcur]; exact ht
  parked t hne := by
    rw [hcur] at hne
    rcases hst t hne with e | e <;> rw [e]
    · exact h.parked t hne
    · exact .inr (.inl rfl)

/-- Before and behind `SWITCH` every thread is parked. -/
theorem LevelInv.run_parked {x : State} (h : LevelInv s)
    (hcur : x.currentThread = s.currentThread) (hst : x.stack = s.stack)
    (hs : .sleepLoop ∉ rest) (hr : Levelled s.currentThread rest .intOff false) (next t : Tid) :
    Parked t ((x.run next rest).stack t) := by
  show Parked t (Function.update x.stack x.currentThread _ t)
  rw [hcur, hst]
  by_cases e : t = s.currentThread
  · rw [e, Function.update_self]
    exact .inr (.inr ⟨rest, rfl, hs, hr⟩)
  · rw [Function.update_of_ne e]
    exact h.parked t e

/-- `Scheduler::Run`. -/
theorem LevelInv.run {x : State} (h : LevelInv s) (hcur : x.currentThread = s.currentThread)
    (hst : x.stack = s.stack) (hl : x.level = .intOff) (hh : x.inHandler = false)
    (hs : .sleepLoop ∉ rest) (hr : Levelled s.currentThread rest .intOff false) (next : Tid) :
    LevelInv (x.run next rest) := by
  have hparked := h.run_parked hcur hst hs hr next
  refine ⟨?_, fun t _ => hparked t⟩
  show Typed next ((x.run next rest).stack next) x.level x.inHandler
  rw [hl, hh]
  exact (hparked next).typed

/-- What `currentThread` has come to. -/
theorem LevelInv.top {i : Instr} (h : LevelInv s) (hi : s.stack s.currentThread = i :: rest) :
    Typed s.currentThread (i :: rest) s.level s.inHandler :=
  hi ▸ h.current

/-- What is below a piece that stands on top only. -/
theorem LevelInv.below {i : Instr} (h : LevelInv s) (hi : s.stack s.currentThread = i :: rest)
    (ht : i.onTop = true) : Levelled s.currentThread rest s.level s.inHandler := by
  obtain ⟨-, hlevel, hh, -, hr⟩ := (h.top hi).topped ht
  rw [hlevel, hh]
  exact hr

/-- Only `currentThread` goes on. -/
theorem LevelInv.goes {x : State} (h : LevelInv s) (hcur : x.currentThread = s.currentThread)
    (hst : x.stack = s.stack) (hr : Levelled s.currentThread rest x.level x.inHandler) :
    LevelInv (x.goto rest) := by
  refine h.goto hcur (fun t hne => .inl ?_) (.inl ?_)
  · show Function.update x.stack x.currentThread rest t = _
    rw [hcur, hst, Function.update_of_ne hne]
  · show Levelled _ (Function.update x.stack x.currentThread rest _) x.level x.inHandler
    rw [hcur, Function.update_self]
    exact hr

/-- A thread goes to sleep. -/
theorem levelled_sleepLoop {this : Tid} (hs : .sleepLoop ∉ rest)
    (hr : Levelled this rest .intOff false) : Levelled this (.sleepLoop :: rest) .intOff false := by
  refine ⟨⟨rfl, rfl⟩, .inr hs, ?_⟩
  rintro l' h' ⟨rfl, rfl⟩
  exact hr

/-- **Every step keeps the levels.** -/
theorem Moves.levels (h : LevelInv s) (hm : Moves s s') : LevelInv s' := by
  cases hm with
  | control hi hc hst hstill =>
      refine h.goto hstill.currentThread (fun t hne => .inl ?_) (.inl ?_)
      · rw [hst, Function.update_of_ne hne]
      · rw [hst, Function.update_self]
        exact hc.levelled (h.top hi)
  | @forks t rest hi ht =>
      have hl := (h.top hi).levelled rfl
      have hh : s.inHandler = false := hl.1
      refine h.goto rfl (fun u hne => ?_) (.inr ⟨.forking t, _, Function.update_self .., ?_⟩)
      · show Function.update (Function.update s.stack t _) s.currentThread _ u = _ ∨
          Function.update (Function.update s.stack t _) s.currentThread _ u = _
        rw [Function.update_of_ne hne]
        by_cases e : u = t
        · rw [e, Function.update_self]; exact .inr rfl
        · rw [Function.update_of_ne e]; exact .inl rfl
      · refine ⟨rfl, rfl, hh, by simp [hl.awake rfl], ?_⟩
        exact levelled_back _ (.inr rfl) (.inr (hl.awake rfl)) (hl.2.2 _ _ ⟨rfl, hh.symm⟩)
  | forking hi => exact h.goes rfl rfl (h.below hi rfl)
  | @yields next l rest hi hl =>
      have hy := (h.top hi).levelled rfl
      obtain ⟨hlevel, hh, -⟩ := hy.1
      exact h.run (x := (s.dispatch next l).readyToRun s.currentThread) rfl rfl hlevel hh
        (hy.awake rfl) (hy.2.2 _ _ ⟨hlevel.symm, hh.symm⟩) next
  | waits hi hv =>
      have hw := (h.top hi).levelled rfl
      obtain ⟨hlevel, hh⟩ := hw.1
      refine h.goes rfl rfl ?_
      show Levelled s.currentThread _ s.level s.inHandler
      rw [hlevel, hh] at hw ⊢
      exact levelled_sleepLoop (by simp [hw.awake rfl]) hw
  | wakes hi hq =>
      have hw := (h.top hi).levelled rfl
      exact h.goes rfl rfl (hw.2.2 _ _ ⟨rfl, rfl⟩)
  | finishes hi =>
      have hf := (h.top hi).levelled rfl
      obtain ⟨hlevel, hh, -⟩ := hf.1
      refine h.goes rfl rfl ?_
      show Levelled s.currentThread _ s.level s.inHandler
      rw [hlevel, hh]
      exact levelled_sleepLoop (hf.awake rfl) (hf.2.2 _ _ ⟨hlevel.symm, hh.symm⟩)
  | @dispatches next l rest hi hl =>
      have hy := (h.top hi).levelled rfl
      obtain ⟨hlevel, hh⟩ := hy.1
      exact h.run (x := s.dispatch next l) rfl rfl hlevel hh (hy.awake rfl)
        (hy.2.2 _ _ ⟨hlevel.symm, hh.symm⟩) next
  | passes hi ht => exact h.goes rfl rfl (h.below hi rfl)
  | reaps hi ht => exact h.goes rfl rfl (h.below hi rfl)

theorem init_levels (values : Nat → Int) : LevelInv (init values) where
  current := by
    refine .inl ⟨.inr rfl, .inr (by simp), ?_⟩
    rintro l' h' ⟨rfl, rfl⟩
    exact ⟨rfl, .inr (by simp), by rintro l' h' rfl; exact levelled_call .finish nofun trivial fun _ => trivial⟩
  parked t hne := by
    refine .inl ?_
    show Function.update (fun _ => []) 0 _ t = []
    exact Function.update_of_ne hne _ _

/-- A state some run reaches. -/
def Reachable (s : State) : Prop := ∃ values, Steps step always (init values) s

theorem reachable_levels (h : Reachable s) : LevelInv s := by
  obtain ⟨values, h⟩ := h
  exact h.inv (init_levels values) fun _ _ _ hs _ hok => (step_moves hok).levels hs

end

end Nachos.Sched
