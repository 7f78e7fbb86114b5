import Nachos.Lib.Places
import Nachos.Threads.Levels

/-!
# Threads — Placement

Where the threads are.  The ready list and the queues of the semaphores are one family of lists
(`State.lists`), and the status of a thread says on which of them it is (`PlacedAt`).  The thread
that has the CPU is running and on no list, but for the time it is inside `Thread::Sleep`
(`Asleep`): there it is where any other thread is that sleeps, and a handler may have made it ready
already.
-/

namespace Nachos.Sched
open Lib
open Interrupt (IntStatus)

/-- The ready list, and the queues. -/
def State.lists (s : State) : Option Nat → List Tid
  | none => s.readyList
  | some r => (s.sems r).queue

def State.Finished (s : State) (t : Tid) : Prop := .finished t ∈ s.events

/-- `currentThread` is in the loop of `Thread::Sleep`. -/
def State.Asleep (s : State) : Prop := .sleepLoop ∈ s.stack s.currentThread

/-- Where a thread of a status is. -/
def PlacedAt (status : ThreadStatus) (finished : Prop) (lists : Option Nat → List Tid) (t : Tid) :
    Prop :=
  match status with
  | .justCreated | .running => Nowhere lists t
  | .ready => OnlyAt lists none t
  | .blocked => finished ∧ Nowhere lists t ∨ ¬ finished ∧ ∃ r, OnlyAt lists (some r) t

def Placed (status : Tid → ThreadStatus) (finished : Tid → Prop)
    (lists : Option Nat → List Tid) : Prop :=
  ∀ t, PlacedAt (status t) (finished t) lists t

/-- Every thread but `u` is in its place. -/
def PlacedBut (u : Tid) (status : Tid → ThreadStatus) (finished : Tid → Prop)
    (lists : Option Nat → List Tid) : Prop :=
  ∀ t, t ≠ u → PlacedAt (status t) (finished t) lists t

section
variable {status : Tid → ThreadStatus} {finished finished' : Tid → Prop}
  {lists : Option Nat → List Tid} {t u : Tid} {i : Option Nat} {r : Nat} {rest : List Tid}

theorem Placed.but (h : Placed status finished lists) (u : Tid) :
    PlacedBut u status finished lists := fun t _ => h t

/-- The thread is put back, with a new status. -/
theorem PlacedBut.set {c : ThreadStatus} (h : PlacedBut u status finished lists)
    (hu : PlacedAt c (finished u) lists u) : Placed (Function.update status u c) finished lists := by
  intro t
  by_cases e : t = u
  · rw [e, Function.update_self]; exact hu
  · rw [Function.update_of_ne e]; exact h t e

theorem PlacedBut.congr (h : PlacedBut u status finished lists)
    (hf : ∀ t, t ≠ u → (finished' t ↔ finished t)) : PlacedBut u status finished' lists := by
  intro t ht
  rw [propext (hf t ht)]
  exact h t ht

/-- The thread is appended to a list. -/
theorem PlacedBut.put (h : PlacedBut u status finished lists) (i : Option Nat) :
    PlacedBut u status finished (Function.update lists i (lists i ++ [u])) := by
  intro t ht
  have := h t ht
  unfold PlacedAt at *
  split at this
  · exact this.append_ne ht i
  · exact this.append_ne ht i
  · exact this.append_ne ht i
  · rcases this with ⟨hf, hn⟩ | ⟨hf, r, hr⟩
    · exact .inl ⟨hf, hn.append_ne ht i⟩
    · exact .inr ⟨hf, r, hr.append_ne ht i⟩

/-- The thread is taken off the front of a list. -/
theorem Placed.take (h : Placed status finished lists) (e : lists i = u :: rest) :
    PlacedBut u status finished (Function.update lists i rest) := by
  intro t ht
  have := h t
  unfold PlacedAt at *
  split at this
  · exact this.remove e
  · exact this.remove e
  · exact this.remove_ne e ht
  · rcases this with ⟨hf, hn⟩ | ⟨hf, r, hr⟩
    · exact .inl ⟨hf, hn.remove e⟩
    · exact .inr ⟨hf, r, hr.remove_ne e ht⟩

/-- Who is on the ready list is ready. -/
theorem Placed.ready_of_mem (h : Placed status finished lists) (hu : u ∈ lists none) :
    status u = .ready ∧ OnlyAt lists none u := by
  have := h u
  unfold PlacedAt at this
  split at this
  · exact absurd hu (this none)
  · exact absurd hu (this none)
  · rename_i e; exact ⟨e, this⟩
  · rcases this with ⟨-, hn⟩ | ⟨-, r, hr⟩
    · exact absurd hu (hn none)
    · cases hr.unique hu

/-- Who is on a queue is blocked. -/
theorem Placed.blocked_of_mem (h : Placed status finished lists) (hu : u ∈ lists (some r)) :
    status u = .blocked ∧ ¬ finished u ∧ OnlyAt lists (some r) u := by
  have := h u
  unfold PlacedAt at this
  split at this
  · exact absurd hu (this _)
  · exact absurd hu (this _)
  · cases this.unique hu
  · rename_i e
    rcases this with ⟨-, hn⟩ | ⟨hf, r', hr⟩
    · exact absurd hu (hn _)
    · cases hr.unique hu
      exact ⟨e, hf, hr⟩

end

/-! ### The invariant -/

/-- The thread an event puts on the ready list, and the one it takes off. -/
def Event.appends : Event → Option Tid
  | readied t => some t
  | _ => none

def Event.removes : Event → Option Tid
  | dispatched t => some t
  | _ => none

/-- The ready list is what has been appended and not yet removed, in order. -/
def State.Fifo (s : State) : Prop :=
  s.events.filterMap Event.appends = s.events.filterMap Event.removes ++ s.readyList

structure PlaceInv (s : State) : Prop where
  placed : Placed s.status s.Finished s.lists
  running : ∀ t, s.status t = .running ↔ t = s.currentThread ∧ ¬ s.Asleep
  finished : ∀ t, s.Finished t → s.status t = .blocked
  unborn : ∀ t, t ≠ s.currentThread → s.stack t = [] → s.status t = .justCreated
  created : ∀ t, s.status t = .justCreated → t ≠ s.currentThread ∧
    (s.stack t = [] ∨ (s.stack s.currentThread).head? = some (.forking t))
  forking : ∀ t, (s.stack s.currentThread).head? = some (.forking t) →
    t ≠ s.currentThread ∧ s.stack t ≠ [] ∧ s.status t = .justCreated
  carcass : ∀ t, s.threadToBeDestroyed = some t → s.Finished t
  fifo : s.Fifo

section
variable {s s' : State} {t u : Tid} {e : Event} {rest : List Instr}

theorem PlaceInv.nowhere (h : PlaceInv s) (ht : s.status t = .running ∨ s.status t = .justCreated) :
    Nowhere s.lists t := by
  have := h.placed t
  rcases ht with ht | ht <;> rw [ht] at this <;> exact this

/-- A thread that is awake is running. -/
theorem PlaceInv.awake (h : PlaceInv s) (ha : ¬ s.Asleep) : s.status s.currentThread = .running :=
  (h.running _).mpr ⟨rfl, ha⟩

/-- Only a blocked thread has finished. -/
theorem PlaceInv.not_finished (h : PlaceInv s) (ht : s.status t ≠ .blocked) : ¬ s.Finished t :=
  fun hf => ht (h.finished t hf)

/-- An event that is not one of the ready list. -/
theorem State.Fifo.log (h : s.Fifo) (ha : e.appends = none) (hr : e.removes = none)
    (he : s'.events = s.events ++ [e]) (hl : s'.readyList = s.readyList) : s'.Fifo := by
  unfold State.Fifo at *
  rw [he, hl, List.filterMap_append, List.filterMap_append, h]
  simp [ha, hr]

theorem State.Fifo.readied (h : s.Fifo) (he : s'.events = s.events ++ [.readied t])
    (hl : s'.readyList = s.readyList ++ [t]) : s'.Fifo := by
  unfold State.Fifo at *
  rw [he, hl, List.filterMap_append, List.filterMap_append, h]
  simp [List.filterMap_cons, Event.appends, Event.removes]

theorem State.Fifo.dispatched {l : List Tid} (h : s.Fifo)
    (he : s'.events = s.events ++ [.dispatched t]) (hl : s.readyList = t :: l)
    (hl' : s'.readyList = l) : s'.Fifo := by
  unfold State.Fifo at *
  rw [he, hl', List.filterMap_append, List.filterMap_append, h, hl]
  simp [List.filterMap_cons, Event.appends, Event.removes]

theorem finished_log (he : e ≠ .finished t) : (s.log e).Finished t ↔ s.Finished t := by
  simp [State.Finished, State.log, Ne.symm he]

theorem Levelled.head {l : IntStatus} {b : Bool} (h : Levelled t rest l b) :
    rest.head? ≠ some (.forking u) := by
  cases rest with
  | nil => simp
  | cons i rest =>
      intro e
      cases e
      exact h.1

theorem Parked.head (h : Parked t rest) : rest.head? ≠ some (.forking u) := by
  rcases h with rfl | rfl | ⟨rest, rfl, -⟩ <;> simp

theorem Parked.awake (h : Parked t rest) : .sleepLoop ∉ rest := by
  rcases h with rfl | rfl | ⟨rest, rfl, h, -⟩
  · simp
  · simp
  · simpa using h

theorem Control.asleep {i : Instr} {n : List Instr} {l l' : IntStatus} {b b' : Bool}
    (hc : Control t i l b n l' b') (rest : List Instr) :
    .sleepLoop ∈ n ++ rest ↔ .sleepLoop ∈ i :: rest := by
  cases hc with
  | call hop => rename_i op; cases op <;> simp [Op.code]
  | _ => simp

theorem Control.ne_forking {i : Instr} {n : List Instr} {l l' : IntStatus} {b b' : Bool}
    (hc : Control t i l b n l' b') (u : Tid) : i ≠ .forking u := by
  cases hc <;> simp

/-- `currentThread` goes on; a thread that was just created stays so, unless it is forked. -/
theorem PlaceInv.goto (h : PlaceInv s) (hcur : s'.currentThread = s.currentThread)
    (hst : ∀ t, t ≠ s.currentThread → s'.stack t = s.stack t)
    (hhead : ∀ t, (s'.stack s.currentThread).head? ≠ some (.forking t))
    (hnew : ∀ t, s'.status t = .justCreated ↔ s.status t = .justCreated ∧
      (s.stack s.currentThread).head? ≠ some (.forking t))
    (hplaced : Placed s'.status s'.Finished s'.lists)
    (hrunning : ∀ t, s'.status t = .running ↔ t = s.currentThread ∧
      .sleepLoop ∉ s'.stack s.currentThread)
    (hfinished : ∀ t, s'.Finished t → s'.status t = .blocked)
    (hcarcass : ∀ t, s'.threadToBeDestroyed = some t → s'.Finished t) (hfifo : s'.Fifo) :
    PlaceInv s' where
  placed := hplaced
  running t := by rw [State.Asleep, hcur]; exact hrunning t
  finished := hfinished
  unborn t ht hs := by
    rw [hcur] at ht
    rw [hst t ht] at hs
    exact (hnew t).mpr ⟨h.unborn t ht hs, fun hf => (h.forking t hf).2.1 hs⟩
  created t ht := by
    obtain ⟨h₁, h₂⟩ := (hnew t).mp ht
    obtain ⟨hne, hs | hf⟩ := h.created t h₁
    · rw [hcur]
      exact ⟨hne, .inl (by rw [hst t hne]; exact hs)⟩
    · exact absurd hf h₂
  forking t ht := by
    rw [hcur] at ht
    exact absurd ht (hhead t)
  carcass := hcarcass
  fifo := hfifo

theorem lists_congr (hr : s'.readyList = s.readyList)
    (hq : ∀ r, (s'.sems r).queue = (s.sems r).queue) : s'.lists = s.lists := by
  funext i
  cases i with
  | none => exact hr
  | some r => exact hq r

/-- A thread is appended to the ready list. -/
theorem lists_ready (hr : s'.readyList = s.readyList ++ [t])
    (hq : ∀ r, (s'.sems r).queue = (s.sems r).queue) :
    s'.lists = Function.update s.lists none (s.lists none ++ [t]) := by
  funext i
  cases i with
  | none => rw [Function.update_self]; exact hr
  | some r => rw [Function.update_of_ne (by simp)]; exact hq r

/-- One queue changes. -/
theorem lists_queue {r : Nat} {m : Semaphore} (hr : s'.readyList = s.readyList)
    (hq : s'.sems = Function.update s.sems r m) :
    s'.lists = Function.update s.lists (some r) m.queue := by
  funext i
  cases i with
  | none => rw [Function.update_of_ne (by simp)]; exact hr
  | some r' =>
      show (s'.sems r').queue = _
      rw [hq]
      by_cases e : r' = r
      · rw [e, Function.update_self, Function.update_self]
      · rw [Function.update_of_ne e, Function.update_of_ne (by simpa using e)]
        rfl

theorem PlaceInv.control {i : Instr} {n : List Instr} (hL : LevelInv s) (h : PlaceInv s)
    (hi : s.stack s.currentThread = i :: rest)
    (hc : Control s.currentThread i s.level s.inHandler n s'.level s'.inHandler)
    (hst : s'.stack = Function.update s.stack s.currentThread (n ++ rest)) (hs : Still s s') :
    PlaceInv s' := by
  have hfin : s'.Finished = s.Finished := by unfold State.Finished; rw [hs.events]
  have hlists : s'.lists = s.lists := lists_congr hs.readyList hs.queue
  have hcur : s'.stack s.currentThread = n ++ rest := by rw [hst, Function.update_self]
  refine h.goto hs.currentThread (fun t ht => by rw [hst, Function.update_of_ne ht]) (fun t => ?_)
    (fun t => ?_) ?_ (fun t => ?_) ?_ ?_ ?_
  · rw [hcur]
    exact (hc.levelled (hL.top hi)).head
  · rw [hs.status, hi]
    exact ⟨fun ht => ⟨ht, by simpa using hc.ne_forking t⟩, fun ht => ht.1⟩
  · rw [hs.status, hfin, hlists]
    exact h.placed
  · rw [hs.status, h.running, State.Asleep, hi, hcur, hc.asleep]
  · rw [hfin, hs.status]
    exact h.finished
  · rw [hs.threadToBeDestroyed, hfin]
    exact h.carcass
  · unfold State.Fifo
    rw [hs.events, hs.readyList]
    exact h.fifo

/-- A thread gets a status; it was not just created, or is the one that is forked. -/
theorem status_new {st : ThreadStatus} (hst : st ≠ .justCreated)
    (hu : s.status u = .justCreated → (s.stack s.currentThread).head? = some (.forking u))
    (ho : ∀ t, t ≠ u → (s.stack s.currentThread).head? ≠ some (.forking t)) (t : Tid) :
    Function.update s.status u st t = .justCreated ↔ s.status t = .justCreated ∧
      (s.stack s.currentThread).head? ≠ some (.forking t) := by
  by_cases e : t = u
  · subst e
    rw [Function.update_self]
    exact ⟨fun h => absurd h hst, fun h => absurd (hu h.1) h.2⟩
  · rw [Function.update_of_ne e]
    exact ⟨fun h => ⟨h, ho t e⟩, fun h => h.1⟩

/-- `ReadyToRun` of a thread that is on no list. -/
theorem PlaceInv.readies (h : PlaceInv s) {i : Instr} (hi : s.stack s.currentThread = i :: rest)
    (hs : i ≠ .sleepLoop) (hhead : ∀ u, rest.head? ≠ some (.forking u))
    (hnew : s.status t = .justCreated → i = .forking t) (ho : ∀ u, u ≠ t → i ≠ .forking u)
    (hself : t = s.currentThread → .sleepLoop ∈ rest) (hnf : ¬ s.Finished t)
    (hcur : s'.currentThread = s.currentThread)
    (hst : s'.stack = Function.update s.stack s.currentThread rest)
    (hstatus : s'.status = Function.update s.status t .ready)
    (hd : s'.threadToBeDestroyed = s.threadToBeDestroyed)
    (he : s'.events = s.events ++ [.readied t]) (hl : s'.readyList = s.readyList ++ [t])
    (hplaced : Placed s'.status s.Finished s'.lists) : PlaceInv s' := by
  have hcur' : s'.stack s.currentThread = rest := by rw [hst, Function.update_self]
  have hfin : s'.Finished = s.Finished := by
    funext u
    simp [State.Finished, he]
  refine h.goto hcur (fun u hu => by rw [hst, Function.update_of_ne hu])
    (fun u => by rw [hcur']; exact hhead u) (fun u => ?_) (hfin ▸ hplaced) (fun u => ?_)
    (fun u hu => ?_) (fun u hu => ?_) (h.fifo.readied he hl)
  · rw [hstatus]
    refine status_new (by simp) (fun hn => ?_) (fun v hv => ?_) u
    · rw [hi, hnew hn]; rfl
    · rw [hi]; simpa using ho v hv
  · rw [hstatus, hcur']
    by_cases e : u = t
    · subst e
      rw [Function.update_self]
      exact ⟨nofun, fun hu => absurd (hself hu.1) hu.2⟩
    · rw [Function.update_of_ne e, h.running, State.Asleep, hi]
      simp [Ne.symm hs]
  · rw [hfin] at hu
    have e : u ≠ t := by
      rintro rfl
      exact hnf hu
    rw [hstatus, Function.update_of_ne e]
    exact h.finished u hu
  · rw [hfin]
    rw [hd] at hu
    exact h.carcass u hu

/-- `ReadyToRun`, in `Fork`. -/
theorem PlaceInv.forked (hL : LevelInv s) (h : PlaceInv s)
    (hi : s.stack s.currentThread = .forking t :: rest) : PlaceInv ((s.readyToRun t).goto rest) := by
  obtain ⟨hne, -, hnew⟩ := h.forking t (by rw [hi]; rfl)
  have htop := (hL.top hi).topped rfl
  have hnf : ¬ s.Finished t := h.not_finished (by rw [hnew]; simp)
  refine h.readies hi (by simp) (fun _ => htop.rest.head) (fun _ => rfl)
    (fun u hu => by simpa using Ne.symm hu) (fun e => absurd e hne) hnf rfl rfl rfl rfl rfl rfl ?_
  refine Eq.mpr (congrArg (Placed _ _) (lists_ready (s := s) rfl fun _ => rfl)) ?_
  exact ((h.placed.but t).put none).set ((h.nowhere (.inr hnew)).append none)

/-- A piece that stands above no sleeping thread. -/
theorem LevelInv.awake {i : Instr} (hL : LevelInv s) (hi : s.stack s.currentThread = i :: rest)
    (hi₁ : i.onTop = false) (hi₂ : i.idles = false) (hi₃ : i ≠ .sleepLoop) : ¬ s.Asleep := by
  have hl := (hL.top hi).levelled hi₁
  rw [State.Asleep, hi]
  simp [Ne.symm hi₃, hl.awake hi₂]

/-- `currentThread` goes to sleep. -/
theorem PlaceInv.sleeps (h : PlaceInv s) {i : Instr} (hi : s.stack s.currentThread = i :: rest)
    (hif : ∀ t, i ≠ .forking t) (ha : ¬ s.Asleep) (hcur : s'.currentThread = s.currentThread)
    {rest' : List Instr}
    (hst : s'.stack = Function.update s.stack s.currentThread (.sleepLoop :: rest'))
    (hstatus : s'.status = Function.update s.status s.currentThread .blocked)
    (hplaced : Placed s'.status s'.Finished s'.lists)
    (hfin : ∀ t, s'.Finished t → t = s.currentThread ∨ s.Finished t)
    (hcarcass : ∀ t, s'.threadToBeDestroyed = some t → s'.Finished t) (hfifo : s'.Fifo) :
    PlaceInv s' := by
  have hrun := h.awake ha
  have hself : s'.stack s.currentThread = .sleepLoop :: rest' := by rw [hst, Function.update_self]
  refine h.goto hcur (fun t ht => by rw [hst, Function.update_of_ne ht])
    (fun t => by rw [hself]; simp) (fun t => ?_) hplaced (fun t => ?_) (fun t ht => ?_) hcarcass hfifo
  · rw [hstatus]
    refine status_new (by simp) (fun hn => ?_) (fun u _ => ?_) t
    · rw [hrun] at hn; cases hn
    · rw [hi]; simpa using hif u
  · rw [hstatus, hself]
    by_cases e : t = s.currentThread
    · rw [e, Function.update_self]; simp
    · rw [Function.update_of_ne e, h.running]; simp [e]
  · rw [hstatus]
    rcases hfin t ht with e | hf
    · rw [e, Function.update_self]
    · by_cases e : t = s.currentThread
      · rw [e, Function.update_self]
      · rw [Function.update_of_ne e]; exact h.finished t hf

/-- `P`, where the value is 0. -/
theorem PlaceInv.waits {r : Nat} (hL : LevelInv s) (h : PlaceInv s)
    (hi : s.stack s.currentThread = .waiting r :: rest) :
    PlaceInv ({ s with
      sems := Function.update s.sems r
        { s.sems r with queue := (s.sems r).queue ++ [s.currentThread] }
      status := Function.update s.status s.currentThread .blocked }.goto
        (.sleepLoop :: .waiting r :: rest)) := by
  have ha := hL.awake hi rfl rfl (by simp)
  have hrun := h.awake ha
  have hnf : ¬ s.Finished s.currentThread := h.not_finished (by rw [hrun]; simp)
  refine h.sleeps hi (by simp) ha rfl rfl rfl ?_ (fun t ht => .inr ht) h.carcass h.fifo
  refine Eq.mpr (congrArg (Placed _ _) (lists_queue (s := s) rfl rfl)) ?_
  exact ((h.placed.but s.currentThread).put (some r)).set
    (.inr ⟨hnf, r, (h.nowhere (.inl hrun)).append (some r)⟩)

/-- `Finish`. -/
theorem PlaceInv.finishes (hL : LevelInv s) (h : PlaceInv s)
    (hi : s.stack s.currentThread = .finishing s.currentThread :: rest) :
    PlaceInv (({ s with
      threadToBeDestroyed := some s.currentThread
      status := Function.update s.status s.currentThread .blocked }.log
        (.finished s.currentThread)).goto (.sleepLoop :: rest)) := by
  have ha := hL.awake hi rfl rfl (by simp)
  have hrun := h.awake ha
  have hmem : ∀ t, .finished t ∈ s.events ++ [Event.finished s.currentThread] ↔
      t = s.currentThread ∨ s.Finished t := by
    intro t
    simp [State.Finished, or_comm]
  refine h.sleeps hi (by simp) ha rfl rfl rfl ?_ (fun t ht => (hmem t).mp ht) ?_ ?_
  · refine ((h.placed.but s.currentThread).congr fun t ht => ?_).set (.inl ⟨?_, ?_⟩)
    · exact (hmem t).trans (or_iff_right ht)
    · exact (hmem _).mpr (.inl rfl)
    · exact h.nowhere (.inl hrun)
  · intro t ht
    cases ht
    exact (hmem _).mpr (.inl rfl)
  · exact h.fifo.log rfl rfl rfl rfl

/-- `V`, where a thread waits. -/
theorem PlaceInv.wakes {r : Nat} {queue : List Tid} (hL : LevelInv s) (h : PlaceInv s)
    (hi : s.stack s.currentThread = .signalling r :: rest) (hq : (s.sems r).queue = t :: queue) :
    PlaceInv (({ s with
      sems := Function.update s.sems r ⟨(s.sems r).value + 1, queue⟩ }.readyToRun t).goto rest) := by
  have hl := (hL.top hi).levelled rfl
  have hmem : s.lists (some r) = t :: queue := hq
  obtain ⟨hblocked, hnf, honly⟩ := h.placed.blocked_of_mem (r := r) (u := t) (by rw [hmem]; simp)
  -- the thread it wakes may be `currentThread`, which idles
  have hself : t = s.currentThread → .sleepLoop ∈ rest := by
    rintro rfl
    by_contra hn
    have hrun := h.awake (by rw [State.Asleep, hi]; simpa using hn)
    rw [hblocked] at hrun
    cases hrun
  refine h.readies hi (by simp) (fun _ => (hl.2.2 _ _ ⟨rfl, rfl⟩).head)
    (fun hn => by rw [hblocked] at hn; cases hn) (fun _ _ => by simp) hself hnf rfl rfl rfl rfl rfl
    rfl ?_
  have hlists : ({ s with sems := Function.update s.sems r ⟨(s.sems r).value + 1, queue⟩ }).lists =
      Function.update s.lists (some r) queue :=
    lists_queue (s := s) (m := ⟨(s.sems r).value + 1, queue⟩) rfl rfl
  refine Eq.mpr (congrArg (Placed _ _) (lists_ready (s := { s with
    sems := Function.update s.sems r ⟨(s.sems r).value + 1, queue⟩ }) rfl fun _ => rfl)) ?_
  rw [hlists]
  exact ((h.placed.take hmem).put none).set ((honly.remove hmem).append none)

/-- What `Run` does behind `SWITCH` moves no thread. -/
theorem PlaceInv.passes (hL : LevelInv s) (h : PlaceInv s)
    (hi : s.stack s.currentThread = .afterSwitch :: rest)
    (hcur : s'.currentThread = s.currentThread)
    (hst : s'.stack = Function.update s.stack s.currentThread rest) (hstatus : s'.status = s.status)
    (hlists : s'.lists = s.lists) (hfin : s'.Finished = s.Finished)
    (hd : s'.threadToBeDestroyed = none) (hfifo : s'.Fifo) : PlaceInv s' := by
  have htop := (hL.top hi).topped rfl
  have hself : s'.stack s.currentThread = rest := by rw [hst, Function.update_self]
  refine h.goto hcur (fun u hu => by rw [hst, Function.update_of_ne hu])
    (fun u => by rw [hself]; exact htop.rest.head) (fun u => ?_) ?_ (fun u => ?_) ?_
    (fun u hu => by rw [hd] at hu; cases hu) hfifo
  · rw [hstatus]
    exact ⟨fun hu => ⟨hu, by rw [hi]; simp⟩, fun hu => hu.1⟩
  · rw [hstatus, hfin, hlists]
    exact h.placed
  · rw [hstatus, hself]
    exact (h.running u).trans (by rw [State.Asleep, hi]; simp)
  · rw [hstatus, hfin]
    exact h.finished

/-- `StackAllocate`, in `Fork`. -/
theorem PlaceInv.allocates (hL : LevelInv s) (h : PlaceInv s)
    (hi : s.stack s.currentThread = .call (.fork t) :: rest) (ht : s.stack t = []) :
    PlaceInv ({ s.stackAllocate t with level := .intOff }.goto
      ((Op.fork t).code s.currentThread s.level ++ rest)) := by
  have ha := hL.awake hi rfl rfl (by simp)
  have hne : t ≠ s.currentThread := by
    rintro rfl
    rw [hi] at ht
    cases ht
  have hcur : ({ s.stackAllocate t with level := .intOff }.goto
      ((Op.fork t).code s.currentThread s.level ++ rest)).stack s.currentThread =
        .forking t :: .setLevel s.level :: .ret (.fork t) s.level :: rest := Function.update_self ..
  have hst : ∀ u, u ≠ s.currentThread → ({ s.stackAllocate t with level := .intOff }.goto
      ((Op.fork t).code s.currentThread s.level ++ rest)).stack u =
        Function.update s.stack t [.threadRoot] u := fun u hu => Function.update_of_ne hu _ _
  have hnew := h.unborn t hne ht
  have hother : ∀ u, (s.stack s.currentThread).head? ≠ some (.forking u) := fun u => by rw [hi]; simp
  refine ⟨h.placed, fun u => ?_, h.finished, fun u hu hs => ?_, fun u hu => ?_, fun u hu => ?_,
    h.carcass, h.fifo⟩
  · refine (h.running u).trans (and_congr_right fun _ => not_congr ?_)
    rw [State.Asleep, State.Asleep, hi]
    show _ ↔ _ ∈ State.stack _ s.currentThread
    rw [hcur]
    simp
  · rw [hst u hu] at hs
    by_cases e : u = t
    · rw [e]; exact hnew
    · rw [Function.update_of_ne e] at hs
      exact h.unborn u hu hs
  · obtain ⟨hu₁, hu₂ | hu₂⟩ := h.created u hu
    · refine ⟨hu₁, ?_⟩
      by_cases e : u = t
      · rw [e]; exact .inr (congrArg List.head? hcur)
      · refine .inl ?_
        rw [hst u hu₁, Function.update_of_ne e]
        exact hu₂
    · exact absurd hu₂ (hother u)
  · replace hu : (State.stack _ s.currentThread).head? = some (.forking u) := hu
    rw [hcur] at hu
    cases hu
    refine ⟨hne, ?_, hnew⟩
    rw [hst t hne, Function.update_self]
    simp

/-- `Scheduler::Run`, from where the next thread is off the ready list. -/
theorem PlaceInv.run {x : State} {next : Tid} (hL : LevelInv s) (h : PlaceInv s) {i : Instr}
    (hi : s.stack s.currentThread = i :: rest) (hif : ∀ t, i ≠ .forking t) (hcur : x.currentThread = s.currentThread)
    (hst : x.stack = s.stack) (hs : .sleepLoop ∉ rest)
    (hr : Levelled s.currentThread rest .intOff false)
    (hd : x.threadToBeDestroyed = s.threadToBeDestroyed) (hfin : ∀ t, x.Finished t ↔ s.Finished t)
    (hother : ∀ t, t ≠ next → t ≠ s.currentThread → x.status t = s.status t)
    (hself : s.currentThread ≠ next → x.status s.currentThread = .ready ∨
      x.status s.currentThread = .blocked)
    (hfinished : ∀ t, x.Finished t → t ≠ next ∧ x.status t = .blocked)
    (hplaced : Placed (Function.update x.status next .running) x.Finished x.lists)
    (hfifo : x.Fifo) : PlaceInv (x.run next rest) := by
  have hparked := hL.run_parked hcur hst hs hr next
  have hstack : (x.run next rest).stack =
      Function.update s.stack s.currentThread (.afterSwitch :: rest) := by
    show Function.update x.stack x.currentThread _ = _
    rw [hcur, hst]
  have hfin' : ∀ t, (x.run next rest).Finished t ↔ x.Finished t := by
    intro t
    refine finished_log ?_
    unfold State.switched
    split <;> simp
  refine ⟨?_, fun t => ?_, fun t ht => ?_, fun t hne ht => ?_, fun t ht => ?_, fun t ht => ?_,
    fun t ht => ?_, ?_⟩
  · intro t
    have := hplaced t
    rw [← propext (hfin' t)] at this
    exact this
  · show Function.update x.status next .running t = .running ↔ t = next ∧ _
    by_cases e : t = next
    · rw [e, Function.update_self]
      exact ⟨fun _ => ⟨rfl, (hparked next).awake⟩, fun _ => rfl⟩
    · rw [Function.update_of_ne e]
      refine ⟨fun ht => ?_, fun ht => absurd ht.1 e⟩
      by_cases e' : t = s.currentThread
      · rcases hself (e' ▸ e) with h' | h' <;> rw [e', h'] at ht <;> cases ht
      · rw [hother t e e', h.running] at ht
        exact absurd ht.1 e'
  · obtain ⟨hne, hb⟩ := hfinished t ((hfin' t).mp ht)
    show Function.update x.status next .running t = _
    rw [Function.update_of_ne hne]
    exact hb
  · have e' : t ≠ s.currentThread := by
      rintro rfl
      rw [hstack, Function.update_self] at ht
      cases ht
    rw [hstack, Function.update_of_ne e'] at ht
    replace hne : t ≠ next := hne
    show Function.update x.status next .running t = _
    rw [Function.update_of_ne hne, hother t hne e']
    exact h.unborn t e' ht
  · replace ht : Function.update x.status next .running t = .justCreated := ht
    have e : t ≠ next := by
      rintro rfl
      rw [Function.update_self] at ht
      cases ht
    have e' : t ≠ s.currentThread := by
      rintro rfl
      rw [Function.update_of_ne e] at ht
      rcases hself e with h' | h' <;> rw [h'] at ht <;> cases ht
    rw [Function.update_of_ne e, hother t e e'] at ht
    obtain ⟨-, ht | ht⟩ := h.created t ht
    · exact ⟨e, .inl (by rw [hstack, Function.update_of_ne e']; exact ht)⟩
    · rw [hi] at ht
      cases ht
      exact absurd rfl (hif t)
  · exact absurd ht (hparked next).head
  · exact (hfin' t).mpr ((hfin t).mpr (h.carcass t (hd ▸ ht)))
  · refine hfifo.log ?_ ?_ rfl rfl
    · unfold State.switched; split <;> rfl
    · unfold State.switched; split <;> rfl

theorem lists_dispatch (s : State) (next : Tid) (l : List Tid) :
    (s.dispatch next l).lists = Function.update s.lists none l := by
  funext i
  cases i with
  | none => rw [Function.update_self]; rfl
  | some r => rw [Function.update_of_ne (by simp)]; rfl

/-- `Sleep` finds a thread. -/
theorem PlaceInv.dispatches {next : Tid} {l : List Tid} (hL : LevelInv s) (h : PlaceInv s)
    (hi : s.stack s.currentThread = .sleepLoop :: rest) (hl : s.readyList = next :: l) :
    PlaceInv ((s.dispatch next l).run next rest) := by
  have hy := (hL.top hi).levelled rfl
  obtain ⟨hlevel, hh⟩ := hy.1
  have hmem : s.lists none = next :: l := hl
  obtain ⟨hready, honly⟩ := h.placed.ready_of_mem (u := next) (by rw [hmem]; simp)
  have hasleep : s.Asleep := by rw [State.Asleep, hi]; simp
  have hfin : ∀ t, (s.dispatch next l).Finished t ↔ s.Finished t := fun t => finished_log (by simp)
  refine h.run hL hi (by simp) rfl rfl (hy.awake rfl) (hy.2.2 _ _ ⟨hlevel.symm, hh.symm⟩) rfl hfin
    (fun _ _ _ => rfl) (fun _ => ?_) (fun t ht => ?_) ?_ (h.fifo.dispatched rfl hl rfl)
  · -- the thread that sleeps is neither running nor just created
    show s.status s.currentThread = _ ∨ s.status s.currentThread = _
    cases hst : s.status s.currentThread with
    | ready => exact .inl rfl
    | blocked => exact .inr rfl
    | running => exact absurd hasleep ((h.running _).mp hst).2
    | justCreated => exact absurd rfl (h.created _ hst).1
  · replace ht := (hfin t).mp ht
    refine ⟨?_, h.finished t ht⟩
    rintro rfl
    exact h.not_finished (by rw [hready]; simp) ht
  · rw [lists_dispatch]
    exact ((h.placed.take hmem).congr fun t _ => hfin t).set (honly.remove hmem)

/-- `Yield` finds a thread. -/
theorem PlaceInv.yields {next : Tid} {l : List Tid} (hL : LevelInv s) (h : PlaceInv s)
    (hi : s.stack s.currentThread = .yielding s.currentThread :: rest)
    (hl : s.readyList = next :: l) :
    PlaceInv (((s.dispatch next l).readyToRun s.currentThread).run next rest) := by
  have hy := (hL.top hi).levelled rfl
  obtain ⟨hlevel, hh, -⟩ := hy.1
  have hmem : s.lists none = next :: l := hl
  obtain ⟨hready, honly⟩ := h.placed.ready_of_mem (u := next) (by rw [hmem]; simp)
  have hrun := h.awake (hL.awake hi rfl rfl (by simp))
  have hne : s.currentThread ≠ next := by
    rintro rfl
    rw [hready] at hrun
    cases hrun
  have hfin : ∀ t, ((s.dispatch next l).readyToRun s.currentThread).Finished t ↔ s.Finished t :=
    fun t => (finished_log (by simp)).trans (finished_log (s := { s with readyList := l }) (by simp))
  refine h.run hL hi (by simp) rfl rfl (hy.awake rfl) (hy.2.2 _ _ ⟨hlevel.symm, hh.symm⟩) rfl hfin
    (fun t _ ht => Function.update_of_ne ht _ _) (fun _ => .inl (Function.update_self ..))
    (fun t ht => ?_) ?_ ?_
  · replace ht := (hfin t).mp ht
    have e : t ≠ s.currentThread := by
      rintro rfl
      exact h.not_finished (by rw [hrun]; simp) ht
    refine ⟨?_, (Function.update_of_ne e _ _).trans (h.finished t ht)⟩
    rintro rfl
    exact h.not_finished (by rw [hready]; simp) ht
  · -- the next thread runs, then the old one is ready
    have hnext := ((h.placed.take hmem).congr fun t _ => hfin t).set (c := .running)
      (honly.remove hmem)
    have hcur : Nowhere (Function.update s.lists none l) s.currentThread :=
      (h.nowhere (.inl hrun)).remove hmem
    have hput := ((hnext.but s.currentThread).put none).set (c := .ready) (hcur.append none)
    rw [Function.update_comm (Ne.symm hne)] at hput
    refine Eq.mpr (congrArg (Placed _ _) (lists_ready (s := s.dispatch next l) rfl fun _ => rfl)) ?_
    rw [lists_dispatch]
    exact hput
  · exact State.Fifo.readied (s := s.dispatch next l) (h.fifo.dispatched rfl hl rfl) rfl rfl

/-- **Every step keeps the threads in their places.** -/
theorem Moves.places (hL : LevelInv s) (h : PlaceInv s) (hm : Moves s s') : PlaceInv s' := by
  cases hm with
  | control hi hc hst hs => exact h.control hL hi hc hst hs
  | forks hi ht => exact h.allocates hL hi ht
  | forking hi => exact h.forked hL hi
  | yields hi hl => exact h.yields hL hi hl
  | waits hi _ => exact h.waits hL hi
  | wakes hi hq => exact h.wakes hL hi hq
  | finishes hi => exact h.finishes hL hi
  | dispatches hi hl => exact h.dispatches hL hi hl
  | passes hi ht => exact h.passes hL hi rfl rfl rfl rfl rfl ht h.fifo
  | @reaps t rest hi _ =>
      refine h.passes hL hi rfl rfl rfl rfl ?_ rfl (h.fifo.log (e := .deleted t) rfl rfl rfl rfl)
      funext u
      exact propext (finished_log (s := { s with threadToBeDestroyed := none }) (by simp))

theorem init_places (values : Nat → Int) : PlaceInv (init values) where
  placed t := by
    have hn : Nowhere (init values).lists t := fun i => by cases i <;> simp [State.lists, init]
    by_cases e : t = 0
    · subst e
      exact hn
    · show PlacedAt (Function.update (fun _ => ThreadStatus.justCreated) 0 .running t) _ _ _
      rw [Function.update_of_ne e]
      exact hn
  running t := by
    show Function.update (fun _ => ThreadStatus.justCreated) 0 .running t = .running ↔ t = 0 ∧ _
    have ha : ¬ (init values).Asleep := by simp [State.Asleep, init]
    by_cases e : t = 0
    · rw [e, Function.update_self]; exact ⟨fun _ => ⟨rfl, ha⟩, fun _ => rfl⟩
    · rw [Function.update_of_ne e]; exact ⟨nofun, fun h => absurd h.1 e⟩
  finished t ht := by cases ht
  unborn t ht _ := Function.update_of_ne (f := fun _ => ThreadStatus.justCreated) ht _
  created t ht := by
    replace ht : Function.update (fun _ => ThreadStatus.justCreated) 0 .running t = .justCreated := ht
    have e : t ≠ 0 := by
      rintro rfl
      rw [Function.update_self] at ht
      cases ht
    exact ⟨e, .inl (Function.update_of_ne (f := fun _ => []) e _)⟩
  forking t ht := by cases ht
  carcass t ht := by cases ht
  fifo := rfl

theorem reachable_places (h : Reachable s) : PlaceInv s := by
  obtain ⟨values, h⟩ := h
  exact (h.inv (I := fun s => LevelInv s ∧ PlaceInv s) ⟨init_levels values, init_places values⟩
    fun _ _ _ hs _ hok => ⟨(step_moves hok).levels hs.1, (step_moves hok).places hs.1 hs.2⟩).2

/-- What stands on a stack while an operation is in its middle. -/
def Instr.ofOperation : Instr → Bool
  | ret _ _ | forking _ | yielding _ | waiting _ | signalling _ | finishing _ | sleepLoop | idle
  | idleLoop | afterSwitch => true
  | _ => false

/-- The thread that has the CPU is in the middle of no operation. -/
def State.Quiet (s : State) : Prop := ∀ i ∈ s.stack s.currentThread, i.ofOperation = false

instance (s : State) : Decidable s.Quiet := inferInstanceAs (Decidable (∀ i ∈ _, _))

/-- **Every thread is in one place.**  In every run, whenever no operation is in its middle:
`currentThread` is the one thread that is running, and is on no list; every other thread that has
been forked and has not finished is ready and on the ready list, once, and on no queue, or it is
blocked and on one queue, once, and on no other list; threads that have finished are on no list;
and the ready list is what is left of the threads appended to it when those taken off it are the
first ones of them. -/
theorem threads_placed (h : Reachable s) (hq : s.Quiet) :
    (s.status s.currentThread = .running ∧ (∀ t, s.status t = .running → t = s.currentThread) ∧
      s.currentThread ∉ s.readyList ∧ ∀ r, s.currentThread ∉ (s.sems r).queue) ∧
    (∀ t, t ≠ s.currentThread → s.stack t ≠ [] → ¬ s.Finished t →
      (s.status t = .ready ∧ s.readyList.count t = 1 ∧ ∀ r, t ∉ (s.sems r).queue) ∨
      (s.status t = .blocked ∧ t ∉ s.readyList ∧ ∃ r, (s.sems r).queue.count t = 1 ∧
        ∀ r', r' ≠ r → t ∉ (s.sems r').queue)) ∧
    (∀ t, s.Finished t → t ∉ s.readyList ∧ ∀ r, t ∉ (s.sems r).queue) ∧
    s.events.filterMap Event.appends = s.events.filterMap Event.removes ++ s.readyList := by
  have hI := reachable_places h
  have hrun := hI.awake fun ha => by cases hq _ ha
  have hnowhere : ∀ t, Nowhere s.lists t → t ∉ s.readyList ∧ ∀ r, t ∉ (s.sems r).queue :=
    fun t hn => ⟨hn none, fun r => hn (some r)⟩
  refine ⟨⟨hrun, fun t ht => ((hI.running t).mp ht).1, hnowhere _ (hI.nowhere (.inl hrun))⟩,
    fun t hne hst hnf => ?_, fun t hf => ?_, hI.fifo⟩
  · have hp := hI.placed t
    unfold PlacedAt at hp
    split at hp
    · rename_i e
      obtain ⟨-, h₁ | h₁⟩ := hI.created t e
      · exact absurd h₁ hst
      · cases hq _ (List.mem_of_mem_head? h₁)
    · rename_i e
      exact absurd ((hI.running t).mp e).1 hne
    · rename_i e
      exact .inl ⟨e, hp.1, fun r => hp.2 (some r) (by simp)⟩
    · rename_i e
      rcases hp with ⟨hf, -⟩ | ⟨-, r, hr⟩
      · exact absurd hf hnf
      · exact .inr ⟨e, hr.2 none (by simp), r, hr.1, fun r' hne => hr.2 (some r') (by simpa using hne)⟩
  · have hp := hI.placed t
    rw [hI.finished t hf] at hp
    rcases hp with ⟨-, hn⟩ | ⟨hnf, -⟩
    · exact hnowhere t hn
    · exact absurd hf hnf

end

/-- `SetLevel(IntOn)`, where nothing is due. -/
def enables : List Action := [.exec, .due false, .exec]

/-- The main thread forks threads 1 and 2 and yields; thread 1 waits on semaphore 0. -/
def forksTwo : List Action :=
  enables ++ [.calls (.fork 1), .exec, .exec] ++ enables ++ [.exec, .calls (.fork 2), .exec, .exec] ++
    enables ++ [.exec, .calls .yield, .exec, .exec]

/-- Thread 1 is where no other thread is, and may be woken by an interrupt. -/
theorem threads_placed_waiting : ∃ s, Reachable s ∧ s.Quiet ∧ s.currentThread = 2 ∧
    s.status 1 = .blocked ∧ 1 ∉ s.readyList ∧
    s.events.filterMap Event.appends = s.events.filterMap Event.removes ++ s.readyList := by
  obtain ⟨s, hs, hp⟩ := (Option.any_eq_true ..).mp (show (run step always (init fun _ => 0)
    (forksTwo ++ [.exec] ++ enables ++ [.calls (.P 0), .exec, .exec, .exec, .exec] ++ enables)).any
      (fun s => s.Quiet ∧ s.currentThread = 2 ∧ s.stack 1 ≠ [] ∧ s.status 1 = .blocked ∧
        .finished 1 ∉ s.events) = true by decide +kernel)
  obtain ⟨hq, hcur, hst, hb, hnf⟩ := of_decide_eq_true hp
  have hR : Reachable s := ⟨_, Steps.of_run hs⟩
  obtain ⟨-, hothers, -, hfifo⟩ := threads_placed hR hq
  refine ⟨s, hR, hq, hcur, hb, ?_, hfifo⟩
  rcases hothers 1 (by rw [hcur]; decide) hst hnf with ⟨he, -⟩ | ⟨-, hn, -⟩
  · rw [hb] at he
    cases he
  · exact hn

end Nachos.Sched
