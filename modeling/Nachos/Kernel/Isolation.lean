import Nachos.Kernel.System
import Nachos.Threads.Spaces

/-!
# Kernel — Isolation

Whose the page table and the registers of the machine are.  `Ok` ties `machine->pageTable` to
`currentThread` whenever this is past `exec_func`; a step is one of three things (`step_moves`): a
`Scheduler::Run`, the entry of a thread with fresh registers, or something `currentThread` does with
its own page table.  With the frames of the processes disjoint, no user instruction and no copy
routine of one process reaches the bytes of another.
-/

namespace Nachos.Kernel
open Lib Machine

/-- Past `exec_func`, or the start of the root. -/
def Mode.started : Mode → Bool
  | user | kernel => true
  | unstarted | root => false

/-- The invariant of the machine. -/
structure Ok (s : State) : Prop where
  procs : Proc.Reachable s.procs
  current : s.mode s.currentThread ≠ .unstarted
  table : (s.mode s.currentThread).started = true → ∀ sp,
    s.procs.spaces s.currentThread = some sp →
      s.pageTable = some s.currentThread ∧ s.pageTableSize = sp.numPages

/-- Steps of the process table that `t` makes. -/
def ProcSteps (t : Tid) : Proc.State → Proc.State → Prop :=
  Steps Proc.step fun _ a => a.thread = t

/-- What `currentThread` does with its own page table. -/
structure Local (s s' : State) : Prop where
  procs : ProcSteps s.currentThread s.procs s'.procs
  currentThread : s'.currentThread = s.currentThread
  pageTable : s'.pageTable = s.pageTable
  pageTableSize : s'.pageTableSize = s.pageTableSize
  userRegisters : s'.userRegisters = s.userRegisters
  mode : s'.mode = s.mode ∨ (s.mode s.currentThread).started = true ∧
    ∃ m : Mode, m.started = true ∧ s'.mode = Function.update s.mode s.currentThread m

/-- A thread enters with fresh registers. -/
structure Enters (s s' : State) : Prop where
  procs : ProcSteps s.currentThread s.procs s'.procs
  space : ∃ sp, s'.procs.spaces s'.currentThread = some sp ∧
    s'.pageTable = some s'.currentThread ∧ s'.pageTableSize = sp.numPages
  userRegisters : s'.userRegisters = s.userRegisters
  mode : ∃ m : Mode, m.started = true ∧ s'.mode = Function.update s.mode s'.currentThread m

/-- The moves of the machine. -/
inductive Moves (s : State) : State → Prop where
  | run (next : Tid) : Moves s (s.run next)
  | inside {s' : State} : Local s s' → Moves s s'
  | enters {s' : State} : Enters s s' → Moves s s'

section
variable {s s' : State} {t u : Tid} {sp : AddrSpace}

theorem proc_ok {a : Proc.Action} (h : s.proc a = .ok s') :
    ∃ procs, Proc.step s.procs a = .ok procs ∧ s' = { s with procs := procs } := by
  unfold State.proc at h
  split at h
  · rename_i procs hp; cases h; exact ⟨procs, hp, rfl⟩
  · cases h

theorem Local.of_proc {a : Proc.Action} (ha : a.thread = s.currentThread)
    (h : s.proc a = .ok s') : Local s s' := by
  obtain ⟨procs, hp, rfl⟩ := proc_ok h
  exact ⟨.one ha hp, rfl, rfl, rfl, rfl, .inl rfl⟩

theorem ProcSteps.spaces {x y : Proc.State} (hR : Proc.Reachable x) (h : ProcSteps t x y) :
    Proc.Reachable y ∧ (∀ u sp, u ≠ t → x.spaces u = some sp → y.spaces u = some sp) ∧
      Proc.KeepsPages (x.spaces t) (y.spaces t) := by
  refine Steps.inv (I := fun y => Proc.Reachable y ∧
    (∀ u sp, u ≠ t → x.spaces u = some sp → y.spaces u = some sp) ∧
      Proc.KeepsPages (x.spaces t) (y.spaces t)) h ⟨hR, fun _ _ _ hsp => hsp, .refl _⟩ ?_
  rintro y a z ⟨⟨heap, hy⟩, hne, hown⟩ rfl hok
  exact ⟨⟨heap, hy.tail trivial hok⟩,
    fun u sp hu hsp => Proc.step_spaces ⟨heap, hy⟩ hok hu (hne u sp hu hsp),
    hown.trans (Proc.step_own ⟨heap, hy⟩ hok)⟩

/-! ### Access to user memory -/

/-- `currentThread` may access user memory, with its own page table. -/
structure Own (s : State) (sp : AddrSpace) : Prop where
  inUser : s.procs.InUser s.currentThread
  running : s.procs.halted = false
  space : s.procs.spaces s.currentThread = some sp
  pageTable : s.pageTable = some s.currentThread
  pageTableSize : s.pageTableSize = sp.numPages

theorem Own.machine_pageTable (h : Own s sp) : s.machine.pageTable = some sp.pageTable := by
  simp [State.machine, h.pageTable, h.space]

/-- What a routine has done is written back: of the processes, only the bits of the own page table
change. -/
theorem Own.writeBack (h : Own s sp) {m : Machine} (hm : Frame s.machine m) :
    ∃ s', s.writeBack m = .ok s' ∧ Local s s' ∧ s'.mainMemory = m.mainMemory ∧ s'.mode = s.mode ∧
      s'.procs.InUser s.currentThread ∧ s'.procs.halted = false ∧
      ∀ u, u ≠ s.currentThread → s'.procs.spaces u = s.procs.spaces u := by
  have htable := hm.table
  rw [h.machine_pageTable, Option.map_some] at htable
  obtain ⟨pageTable, hp, hmap⟩ := Option.map_eq_some_iff.mp htable
  have hstep : Proc.step s.procs (.touch s.currentThread pageTable) =
      .ok (s.procs.touch s.currentThread sp pageTable hmap) := by
    simp [Proc.step, h.running, h.space, hmap, h.inUser.1]
  refine ⟨{ s with
    registers := m.registers
    mainMemory := m.mainMemory
    procs := s.procs.touch s.currentThread sp pageTable hmap }, ?_,
    ⟨.one rfl hstep, rfl, rfl, rfl, rfl, .inl rfl⟩, rfl, rfl, h.inUser, h.running,
    fun u hu => Function.update_of_ne hu _ _⟩
  simp [State.writeBack, State.proc, h.pageTable, hp, hstep]

/-- The exception handler changes neither memory nor address spaces. -/
theorem exceptionHandler_ok (hu : s.procs.InUser s.currentThread) (hr : s.procs.halted = false)
    (hm : (s.mode s.currentThread).started = true) (which : ExceptionType) :
    ∃ s', s.exceptionHandler which = .ok s' ∧ Local s s' ∧ s'.mainMemory = s.mainMemory ∧
      s'.procs.spaces = s.procs.spaces := by
  have hhalt : ∃ s', s.proc (.halt s.currentThread) = .ok s' ∧ Local s s' ∧
      s'.mainMemory = s.mainMemory ∧ s'.procs.spaces = s.procs.spaces := by
    have hstep : s.proc (.halt s.currentThread) = .ok { s with
        procs := { s.procs with halted := true } } := by
      simp [State.proc, Proc.step, hr, hu]
    exact ⟨_, hstep, Local.of_proc rfl hstep, rfl, rfl⟩
  cases which with
  | noException => exact ⟨s, rfl, ⟨.refl, rfl, rfl, rfl, rfl, .inl rfl⟩, rfl, rfl⟩
  | syscallException =>
      exact ⟨_, rfl, ⟨.refl, rfl, rfl, rfl, rfl, .inr ⟨hm, .kernel, rfl, rfl⟩⟩, rfl, rfl⟩
  | _ => exact hhalt

/-- **An access to user memory.**  A routine of the machine aborts, or changes memory only inside
the frames of `currentThread`, and no address space of another thread. -/
theorem access_spec {α : Type} {x : Exec α} (hx : x.Keeps) (h : Own s sp)
    (hm : (s.mode s.currentThread).started = true) :
    s.access x = .error .assertFails ∨ ∃ s', s.access x = .ok s' ∧ Local s s' ∧
      (∀ a, s'.mainMemory a ≠ s.mainMemory a → a / PageSize ∈ sp.frames) ∧
      ∀ u, u ≠ s.currentThread → s'.procs.spaces u = s.procs.spaces u := by
  have hmem : ∀ {m}, Frame s.machine m → ∀ a, m.mainMemory a ≠ s.mainMemory a →
      a / PageSize ∈ sp.frames := by
    intro m hf a ha
    by_contra hn
    refine ha (hf.memory a ?_)
    rintro ⟨pageTable, hp, e, he, hf⟩
    rw [h.machine_pageTable] at hp
    cases hp
    exact hn (hf ▸ List.mem_map_of_mem he)
  unfold State.access
  cases e : x s.machine with
  | aborted => exact .inl rfl
  | ok a m =>
      obtain ⟨s₁, h₁, hl, hmm, -, -, -, hsp⟩ := h.writeBack (hx.ok e)
      exact .inr ⟨s₁, h₁, hl, hmm ▸ hmem (hx.ok e), hsp⟩
  | raised which m =>
      obtain ⟨s₁, h₁, hl, hmm, hmode, hu, hr, hsp⟩ := h.writeBack (hx.raised e)
      obtain ⟨s₂, h₂, hl₂, hmm₂, hsp₂⟩ := exceptionHandler_ok (s := s₁) (hl.currentThread ▸ hu) hr
        (by rw [hl.currentThread, hmode]; exact hm) which
      refine .inr ⟨s₂, by simp [h₁, h₂], ⟨hl.procs.trans (hl.currentThread ▸ hl₂.procs),
        hl₂.currentThread.trans hl.currentThread, hl₂.pageTable.trans hl.pageTable,
        hl₂.pageTableSize.trans hl.pageTableSize, hl₂.userRegisters.trans hl.userRegisters, ?_⟩,
        fun a ha => hmem (hx.raised e) a (by rwa [hmm₂, hmm] at ha),
        fun u hu => by rw [hsp₂, hsp u hu]⟩
      rw [← hmode, ← hl.currentThread]
      exact hl₂.mode

/-! ### What a step does -/

/-- A thread that may access user memory does so with its own page table. -/
theorem Ok.own (h : Ok s) (hr : s.procs.halted = false) (hready : s.Ready s.currentThread)
    (hm : (s.mode s.currentThread).started = true)
    (hpc : s.procs.pc s.currentThread = .user) : ∃ sp, Own s sp := by
  obtain ⟨sp, hsp⟩ := Proc.space_of_user h.procs hpc
  obtain ⟨h₁, h₂⟩ := h.table hm sp hsp
  exact ⟨sp, ⟨⟨hready.1, hpc⟩, hr, hsp, h₁, h₂⟩⟩

theorem Enters.of_takeOver {procs : Proc.State} (hp : ProcSteps s.currentThread s.procs procs)
    (h : { s with procs := procs }.takeOver t = .ok s') : Enters s s' := by
  unfold State.takeOver at h
  split at h
  · cases h
  · rename_i sp hsp
    cases h
    exact ⟨hp, ⟨sp, hsp, rfl, rfl⟩, rfl, .kernel, rfl, rfl⟩

/-- The steps that neither change `currentThread` nor start it. -/
def Action.inside : Action → Bool
  | run _ | execFunc | resume _ => false
  | _ => true

theorem step_ok {a : Action} (hok : step s a = .ok s') :
    s.procs.halted = false ∧ s.Enabled a := by
  unfold step at hok
  split at hok
  · cases hok
  · rename_i hg
    simpa using hg

/-- Most steps are something `currentThread` does with its own page table. -/
theorem step_local {a : Action} (h : Ok s) (hok : step s a = .ok s') (ha : a.inside = true) :
    Local s s' := by
  obtain ⟨hr, hen⟩ := step_ok hok
  have hg : ¬ (s.procs.halted = true ∨ ¬ s.Enabled a) := by simp [hr, hen]
  simp only [step, if_neg hg] at hok
  have haccess : ∀ {α : Type} {x : Exec α}, x.Keeps → s.Ready s.currentThread →
      (s.mode s.currentThread).started = true → s.procs.pc s.currentThread = .user →
      s.access x = .ok s' → Local s s' := by
    intro α x hx h₁ h₂ h₃ hok
    obtain ⟨sp, ho⟩ := h.own hr h₁ h₂ h₃
    rcases access_spec hx ho h₂ with e | ⟨s₁, e, hl, -⟩
    · rw [e] at hok; cases hok
    · rw [e] at hok; cases hok; exact hl
  cases a with
  | run | execFunc | resume => cases ha
  | oneInstruction =>
      exact haccess keeps_oneInstruction hen.1 (by rw [hen.2.1]; rfl) hen.2.2 hok
  | user2System v l =>
      exact haccess (keeps_user2System v l) hen.1 (by rw [hen.2.1]; rfl) hen.2.2 hok
  | system2User v l b =>
      exact haccess (keeps_system2User v l b) hen.1 (by rw [hen.2.1]; rfl) hen.2.2 hok
  | sysRet r2 =>
      cases hok
      exact ⟨.refl, rfl, rfl, rfl, rfl, .inr ⟨by rw [hen.2.1]; rfl, .user, rfl, rfl⟩⟩
  | interrupt | sleep | wake => cases hok; exact ⟨.refl, rfl, rfl, rfl, rfl, .inl rfl⟩
  | boot f => exact Local.of_proc (a := .boot f) hen.1.symm hok
  | exec | join | exit | halt => exact Local.of_proc rfl hok

/-- The process table goes on, inside of `currentThread`, or the root takes over. -/
theorem resume_cases {host : Proc.Host} (hok : step s (.resume host) = .ok s') :
    (Local s s' ∧ s'.registers = s.registers) ∨
    ∃ procs pid par thread, Proc.step s.procs (.resume s.currentThread host) = .ok procs ∧
      s.procs.pc s.currentThread = .execBuilt pid par ∧ State.rootThread s.procs pid = some thread ∧
      { s with procs := procs }.takeOver thread = .ok s' := by
  obtain ⟨hr, hen⟩ := step_ok hok
  have hg : ¬ (s.procs.halted = true ∨ ¬ s.Enabled (.resume host)) := by simp [hr, hen]
  simp only [step, if_neg hg] at hok
  split at hok
  · cases hok
  rename_i x hx
  obtain ⟨procs, hp, rfl⟩ := proc_ok hx
  have hp' : ProcSteps s.currentThread s.procs procs := .one rfl hp
  unfold State.afterResume at hok
  split at hok
  · split at hok
    · cases hok
    · cases hok; exact .inl ⟨⟨hp', rfl, rfl, rfl, rfl, .inl rfl⟩, rfl⟩
  · rename_i pid par hpc
    split at hok
    · rename_i thread hthread
      exact .inr ⟨procs, pid, par, thread, hp, hpc, hthread, hok⟩
    · cases hok; exact .inl ⟨⟨hp', rfl, rfl, rfl, rfl, .inl rfl⟩, rfl⟩
  · cases hok
    exact .inl ⟨⟨hp', rfl, rfl, rfl, rfl, .inr ⟨by rw [hen.2]; rfl, .user, rfl, rfl⟩⟩, rfl⟩
  · cases hok; exact .inl ⟨⟨hp', rfl, rfl, rfl, rfl, .inl rfl⟩, rfl⟩

theorem execFunc_enters (hok : step s .execFunc = .ok s') :
    Enters s s' ∧ s'.currentThread = s.currentThread ∧
      ∃ sp, s'.registers = initRegisters sp s.registers := by
  obtain ⟨hr, hen⟩ := step_ok hok
  have hg : ¬ (s.procs.halted = true ∨ ¬ s.Enabled .execFunc) := by simp [hr, hen]
  simp only [step, if_neg hg] at hok
  unfold State.execFunc at hok
  split at hok
  · cases hok
  · rename_i sp hsp
    cases hok
    exact ⟨⟨.refl, ⟨sp, hsp, rfl, rfl⟩, rfl, .user, rfl, rfl⟩, rfl, sp, rfl⟩

theorem run_ok {next : Tid} (h : step s (.run next) = .ok s') : s' = s.run next := by
  unfold step at h
  split at h
  · cases h
  · cases h; rfl

/-- **A step is one of the moves.** -/
theorem step_moves {a : Action} (h : Ok s) (hok : step s a = .ok s') : Moves s s' := by
  cases ha : a.inside with
  | true => exact .inside (step_local h hok ha)
  | false =>
      cases a with
      | run next => rw [run_ok hok]; exact .run next
      | execFunc => exact .enters (execFunc_enters hok).1
      | resume host =>
          rcases resume_cases hok with ⟨hl, -⟩ | ⟨procs, pid, par, thread, hp, -, -, ht⟩
          · exact .inside hl
          · exact .enters (.of_takeOver (.one rfl hp) ht)
      | _ => cases ha

/-! ### The invariant -/

theorem Mode.ne_unstarted {m : Mode} (h : m.started = true) : m ≠ .unstarted := by
  rintro rfl
  cases h

theorem switchOut_mode (s : State) : s.switchOut.mode = s.mode ∧ s.switchOut.procs = s.procs := by
  unfold State.switchOut
  split <;> exact ⟨rfl, rfl⟩

/-- `Scheduler::Run` starts a thread that has never run, and gives any other its registers and its
page table back. -/
theorem run_cases (s : State) (next : Tid) :
    (s.mode next = .unstarted ∧ s.run next =
      { s.switchOut with currentThread := next }.setMode next .root) ∨
    (s.mode next ≠ .unstarted ∧ s.procs.spaces next = none ∧ s.run next =
      { s.switchOut with currentThread := next }) ∨
    ∃ sp, s.mode next ≠ .unstarted ∧ s.procs.spaces next = some sp ∧ s.run next =
      ({ s.switchOut with currentThread := next }.restoreUserState next).restoreState next sp := by
  obtain ⟨hmode, hprocs⟩ := switchOut_mode s
  unfold State.run State.switchIn
  dsimp only
  rw [hmode, hprocs]
  split
  · rename_i hm; exact .inl ⟨hm, rfl⟩
  · rename_i hm
    split
    · rename_i sp hsp; exact .inr (.inr ⟨sp, hm, hsp, rfl⟩)
    · rename_i hsp; exact .inr (.inl ⟨hm, hsp, rfl⟩)

theorem Moves.ok (h : Ok s) (hm : Moves s s') : Ok s' := by
  cases hm with
  | run next =>
      obtain ⟨hmode, hprocs⟩ := switchOut_mode s
      rcases run_cases s next with ⟨-, e⟩ | ⟨hm, hsp, e⟩ | ⟨sp, hm, hsp, e⟩ <;> rw [e]
      · -- in `ThreadRoot` the machine still has the table of the last thread
        refine ⟨hprocs ▸ h.procs, ?_, fun hst => ?_⟩
        · show Function.update s.switchOut.mode next .root next ≠ _
          rw [Function.update_self]; decide
        · replace hst : (Function.update s.switchOut.mode next .root next).started = true := hst
          rw [Function.update_self] at hst
          cases hst
      · refine ⟨hprocs ▸ h.procs, hmode ▸ hm, fun _ sp' hsp' => ?_⟩
        replace hsp' : s.switchOut.procs.spaces next = some sp' := hsp'
        rw [hprocs, hsp] at hsp'
        cases hsp'
      · refine ⟨hprocs ▸ h.procs, hmode ▸ hm, fun _ sp' hsp' => ⟨rfl, ?_⟩⟩
        replace hsp' : s.switchOut.procs.spaces next = some sp' := hsp'
        rw [hprocs, hsp] at hsp'
        cases hsp'
        rfl
  | inside hl =>
      obtain ⟨hR, -, hown⟩ := hl.procs.spaces h.procs
      have hmode : s'.mode s.currentThread ≠ .unstarted ∧
          ((s'.mode s.currentThread).started = true → (s.mode s.currentThread).started = true) := by
        rcases hl.mode with e | ⟨hst, m, hm, e⟩ <;> rw [e]
        · exact ⟨h.current, id⟩
        · rw [Function.update_self]; exact ⟨Mode.ne_unstarted hm, fun _ => hst⟩
      refine ⟨hR, hl.currentThread ▸ hmode.1, fun hst sp' hsp' => ?_⟩
      rw [hl.currentThread] at hst hsp' ⊢
      rw [hl.pageTable, hl.pageTableSize]
      -- the thread had an address space before, with as many pages
      obtain ⟨sp, hsp, hn⟩ := hown sp' hsp'
      obtain ⟨h₁, h₂⟩ := h.table (hmode.2 hst) sp hsp
      exact ⟨h₁, h₂.trans hn.symm⟩
  | enters he =>
      obtain ⟨hR, -, -⟩ := he.procs.spaces h.procs
      obtain ⟨sp, hsp, h₁, h₂⟩ := he.space
      obtain ⟨m, hm, e⟩ := he.mode
      refine ⟨hR, ?_, fun _ sp' hsp' => ?_⟩
      · rw [e, Function.update_self]; exact Mode.ne_unstarted hm
      · rw [hsp] at hsp'
        cases hsp'
        exact ⟨h₁, h₂⟩

theorem init_ok (heap : Nat → BitVec 32) (regs : Tid → Nat → Word) : Ok (init heap regs) :=
  ⟨⟨heap, .refl⟩, by simp [init], fun _ sp hsp => by cases hsp⟩

/-- A state some run of the kernel reaches. -/
def Reachable (s : State) : Prop := ∃ heap regs, Steps step always (init heap regs) s

theorem reachable_ok (h : Reachable s) : Ok s := by
  obtain ⟨heap, regs, h⟩ := h
  exact h.inv (init_ok heap regs) fun _ _ _ hs _ hok => (step_moves hs hok).ok hs

/-! ### Registers -/

/-- `t` has run, has an address space, and holds the registers `r` until it runs again. -/
structure Away (t : Tid) (r : Nat → Word) (s : State) : Prop where
  started : s.mode t ≠ .unstarted
  space : s.procs.spaces t ≠ none
  saved : ∀ i, i < NumTotalRegs → s.userRegisters t i = r i

theorem Away.of_switchOut (h : Ok s) (hsp : s.procs.spaces s.currentThread ≠ none) :
    Away s.currentThread s.registers s.switchOut := by
  obtain ⟨hmode, hprocs⟩ := switchOut_mode s
  refine ⟨hmode ▸ h.current, hprocs ▸ hsp, fun i hi => ?_⟩
  obtain ⟨sp, hsp⟩ := Option.ne_none_iff_exists'.mp hsp
  simp [State.switchOut, hsp, State.saveUserState, copyRegisters, hi]

/-- A thread that is away gets its registers back. -/
theorem Away.back {r : Nat → Word} (h : Away t r s.switchOut) {i : Nat} (hi : i < NumTotalRegs) :
    (s.run t).registers i = r i := by
  obtain ⟨hmode, hprocs⟩ := switchOut_mode s
  rcases run_cases s t with ⟨hm, -⟩ | ⟨-, hsp, -⟩ | ⟨sp, -, -, e⟩
  · exact absurd hm (hmode ▸ h.started)
  · exact absurd hsp (hprocs ▸ h.space)
  · rw [e, ← h.saved i hi]
    exact if_pos hi

/-- Nobody else touches what it has saved. -/
theorem Away.switchOut {r : Nat → Word} (h : Away t r s) (ht : s.currentThread ≠ t) :
    Away t r s.switchOut := by
  obtain ⟨hmode, hprocs⟩ := switchOut_mode s
  refine ⟨hmode ▸ h.started, hprocs ▸ h.space, fun i hi => ?_⟩
  rw [← h.saved i hi]
  unfold State.switchOut
  split
  · exact congrFun (Function.update_of_ne ht.symm _ _) i
  · rfl

/-- Another thread gets the CPU. -/
theorem Away.run {r : Nat → Word} (h : Away t r s.switchOut) (next : Tid) :
    Away t r (s.run next) := by
  rcases run_cases s next with ⟨-, e⟩ | ⟨-, -, e⟩ | ⟨sp, -, -, e⟩ <;> rw [e]
  · refine ⟨?_, h.space, h.saved⟩
    show Function.update s.switchOut.mode next .root t ≠ _
    by_cases e : t = next
    · rw [e, Function.update_self]; decide
    · rw [Function.update_of_ne e]; exact h.started
  · exact ⟨h.started, h.space, h.saved⟩
  · exact ⟨h.started, h.space, h.saved⟩

theorem Away.moves {r : Nat → Word} (hok : Ok s) (h : Away t r s) (ht : s.currentThread ≠ t)
    (hm : Moves s s') : Away t r s' := by
  have hspaces : ∀ {y}, ProcSteps s.currentThread s.procs y → y.spaces t ≠ none := by
    intro y hy
    obtain ⟨sp, hsp⟩ := Option.ne_none_iff_exists'.mp h.space
    obtain ⟨-, hne, -⟩ := hy.spaces hok.procs
    rw [hne t sp ht.symm hsp]
    simp
  cases hm with
  | run next => exact (h.switchOut ht).run next
  | inside hl =>
      refine ⟨?_, hspaces hl.procs, hl.userRegisters ▸ h.saved⟩
      rcases hl.mode with e | ⟨-, m, -, e⟩ <;> rw [e]
      · exact h.started
      · rw [Function.update_of_ne ht.symm]; exact h.started
  | enters he =>
      obtain ⟨m, hm, e⟩ := he.mode
      refine ⟨?_, hspaces he.procs, he.userRegisters ▸ h.saved⟩
      rw [e]
      by_cases e : t = s'.currentThread
      · rw [← e, Function.update_self]; exact Mode.ne_unstarted hm
      · rw [Function.update_of_ne e]; exact h.started

/-! ### Isolation -/

/-- The steps that access user memory. -/
def Action.accesses : Action → Bool
  | oneInstruction | user2System _ _ | system2User _ _ _ => true
  | _ => false

/-- The byte at `virtAddr` of the address space of `t`. -/
def State.byteAt (s : State) (t : Tid) (virtAddr : Nat) : Option Byte :=
  (s.procs.spaces t).bind fun sp => (sp.pageTable[virtAddr / PageSize]?).map fun e =>
    s.mainMemory (e.physicalPage * PageSize + virtAddr % PageSize)

/-- `currentThread` is switched out in `s`, and `s'` is the state in which it is switched in again.
-/
def Resumes (s s' : State) : Prop :=
  ∃ next s₁, step s (.run next) = .ok s₁ ∧
    ((next = s.currentThread ∧ s' = s₁) ∨
      ∃ s₂, Steps step (fun x _ => x.currentThread ≠ s.currentThread) s₁ s₂ ∧
        s₂.currentThread ≠ s.currentThread ∧ step s₂ (.run s.currentThread) = .ok s')

/-- What a step of `currentThread`, in its address space `sp`, leaves alone: memory outside the
frames of `sp`; and of every other thread the page table, and the bytes it finds through it. -/
structure Isolated (s : State) (sp : AddrSpace) (s' : State) : Prop where
  memory : ∀ x, s'.mainMemory x ≠ s.mainMemory x → x / PageSize ∈ sp.frames
  spaces : ∀ u, u ≠ s.currentThread → s'.procs.spaces u = s.procs.spaces u
  bytes : ∀ u, u ≠ s.currentThread → ∀ v, s'.byteAt u v = s.byteAt u v

theorem byteAt_congr (hsp : s'.procs.spaces u = s.procs.spaces u)
    (hmem : ∀ sp', s.procs.spaces u = some sp' → ∀ a, a / PageSize ∈ sp'.frames →
      s'.mainMemory a = s.mainMemory a) (v : Nat) : s'.byteAt u v = s.byteAt u v := by
  unfold State.byteAt
  rw [hsp]
  cases hu : s.procs.spaces u with
  | none => rfl
  | some sp' =>
      dsimp only [Option.bind_some]
      cases he : sp'.pageTable[v / PageSize]? with
      | none => rfl
      | some e =>
          refine congrArg some (hmem sp' hu _ ?_)
          have hdiv : (e.physicalPage * PageSize + v % PageSize) / PageSize = e.physicalPage := by
            rw [Nat.mul_comm, Nat.mul_add_div (by decide),
              Nat.div_eq_of_lt (Nat.mod_lt _ (by decide)), Nat.add_zero]
          rw [hdiv]
          exact List.mem_map_of_mem (List.mem_of_getElem? he)

theorem access_isolated {α : Type} {x : Exec α} (hx : x.Keeps) (h : Ok s) (ho : Own s sp)
    (hm : (s.mode s.currentThread).started = true) :
    s.access x = .error .assertFails ∨ ∃ s', s.access x = .ok s' ∧ Isolated s sp s' := by
  rcases access_spec hx ho hm with e | ⟨s', e, -, hmem, hsp⟩
  · exact .inl e
  refine .inr ⟨s', e, hmem, hsp, fun u hu => byteAt_congr (hsp u hu) fun sp' hsp' a hin => ?_⟩
  by_contra hne
  -- the frames of two processes are disjoint
  exact (Proc.reachable_frames h.procs).owned.disjoint u s.currentThread sp'.frames sp.frames hu
    (by rw [Proc.State.frames, hsp']; rfl) (by rw [Proc.State.frames, ho.space]; rfl) hin
    (hmem a hne)

theorem Resumes.registers (h : Ok s) (hsp : s.procs.spaces s.currentThread ≠ none)
    (hr : Resumes s s') {i : Nat} (hi : i < NumTotalRegs) : s'.registers i = s.registers i := by
  obtain ⟨next, s₁, h₁, hcase⟩ := hr
  have haway := Away.of_switchOut h hsp
  obtain rfl := run_ok h₁
  rcases hcase with ⟨rfl, rfl⟩ | ⟨s₂, hsteps, hne, h₂⟩
  · exact haway.back hi
  · obtain rfl := run_ok h₂
    have hok₁ : Ok (s.run next) := (step_moves h h₁).ok h
    have haway₂ : Ok s₂ ∧ Away s.currentThread s.registers s₂ :=
      hsteps.inv (I := fun x => Ok x ∧ Away s.currentThread s.registers x)
        ⟨hok₁, haway.run next⟩ fun x a y hx hc hs =>
          ⟨(step_moves hx.1 hs).ok hx.1, hx.2.moves hx.1 hc (step_moves hx.1 hs)⟩
    exact (haway₂.2.switchOut hne).back hi

/-- **Processes are isolated.**  In every reachable state: a user instruction or a copy routine of
`currentThread` is translated with the page table of its own address space; it aborts, or changes
memory only inside its own frames, and every other process finds its page table and each of its
bytes as they were.  And a process that is switched out, wherever it is, is switched in again with
the same 40 registers, whatever has run in between. -/
theorem process_isolated (h : Reachable s) :
    (∀ a : Action, a.accesses = true → s.procs.halted = false → s.Enabled a →
      ∃ sp, s.procs.spaces s.currentThread = some sp ∧
        s.machine.pageTable = some sp.pageTable ∧ s.machine.pageTableSize = sp.numPages ∧
        (step s a = .error .assertFails ∨ ∃ s', step s a = .ok s' ∧ Isolated s sp s')) ∧
    ∀ s', s.procs.spaces s.currentThread ≠ none → Resumes s s' →
      ∀ i, i < NumTotalRegs → s'.registers i = s.registers i := by
  have hok := reachable_ok h
  refine ⟨fun a ha hr hen => ?_, fun s' hsp hres i hi => hres.registers hok hsp hi⟩
  have hg : ¬ (s.procs.halted = true ∨ ¬ s.Enabled a) := by simp [hr, hen]
  have hspec : ∀ {α : Type} {x : Exec α}, x.Keeps → step s a = s.access x →
      s.Ready s.currentThread → (s.mode s.currentThread).started = true →
      s.procs.pc s.currentThread = .user → ∃ sp, s.procs.spaces s.currentThread = some sp ∧
      s.machine.pageTable = some sp.pageTable ∧ s.machine.pageTableSize = sp.numPages ∧
      (step s a = .error .assertFails ∨ ∃ s', step s a = .ok s' ∧ Isolated s sp s') := by
    intro α x hx e h₁ h₂ h₃
    obtain ⟨sp, ho⟩ := hok.own hr h₁ h₂ h₃
    exact ⟨sp, ho.space, ho.machine_pageTable, ho.pageTableSize, e ▸ access_isolated hx hok ho h₂⟩
  cases a with
  | oneInstruction =>
      exact hspec keeps_oneInstruction (by simp only [step, if_neg hg]) hen.1
        (by rw [hen.2.1]; rfl) hen.2.2
  | user2System v l =>
      exact hspec (keeps_user2System v l) (by simp only [step, if_neg hg]) hen.1
        (by rw [hen.2.1]; rfl) hen.2.2
  | system2User v l b =>
      exact hspec (keeps_system2User v l b) (by simp only [step, if_neg hg]) hen.1
        (by rw [hen.2.1]; rfl) hen.2.2
  | _ => cases ha

end

/-- A program of one instruction, `SYSCALL`. -/
def syscallProgram : Executable where
  bytes := [0xad, 0xdf, 0xba, 0, 0, 0, 0, 0, 40, 0, 0, 0, 4, 0, 0, 0] ++ List.replicate 24 0 ++
    [0x0c, 0, 0, 0]
  stack _ := 0

/-- The process table goes on `n` times, on a host that has the program. -/
def goesOn (n : Nat) : List Action := List.replicate n (.resume ⟨true, syscallProgram⟩)

/-- The root, thread 1, starts a child, thread 2, which makes a system call. -/
def childCalls : List Action :=
  .boot [97] :: goesOn 6 ++ .oneInstruction :: .exec (some [98]) :: goesOn 7 ++
    [.run 2, .execFunc, .oneInstruction]

/-- The child is given a byte, and nobody else sees it; switched out in its system call, it comes
back with its registers. -/
theorem process_isolated_child : ∃ s s' s₃,
    run step always (init (fun _ => 0) fun _ _ => 7) childCalls = some s ∧ s.currentThread = 2 ∧
      step s (.system2User 64 1 fun _ => 104) = .ok s' ∧ s'.byteAt 2 64 = some 104 ∧
      (∀ u, u ≠ 2 → ∀ v, s'.byteAt u v = s.byteAt u v) ∧
      Resumes s s₃ ∧ ∀ i, i < NumTotalRegs → s₃.registers i = s.registers i := by
  obtain ⟨s, hs, hp⟩ := (Option.any_eq_true ..).mp (show (run step always
    (init (fun _ => 0) fun _ _ => 7) childCalls).any (fun s => s.currentThread = 2 ∧
      s.Enabled (.system2User 64 1 fun _ => 104) ∧ s.procs.halted = false ∧
      (s.procs.spaces 2).isSome = true ∧
      (step s (.system2User 64 1 fun _ => 104)).toOption.any (fun s' =>
        s'.byteAt 2 64 = some 104) ∧
      (step s (.run 1)).toOption.any fun s₁ =>
        (run step (fun x _ => x.currentThread ≠ 2) s₁ [.sysRet (some 1), .oneInstruction]).any
          fun s₂ => s₂.currentThread = 1 ∧ (step s₂ (.run 2)).toOption.isSome) = true
    by decide +kernel)
  obtain ⟨hcur, hen, hrun, hsp, hbyte, hsw⟩ := of_decide_eq_true hp
  obtain ⟨s', hs', hb⟩ := (Option.any_eq_true ..).mp hbyte
  obtain ⟨s₁, hs₁, h₁⟩ := (Option.any_eq_true ..).mp hsw
  obtain ⟨s₂, hs₂, h₂⟩ := (Option.any_eq_true ..).mp h₁
  obtain ⟨hcur₂, h₃⟩ := of_decide_eq_true h₂
  obtain ⟨s₃, hs₃⟩ := Option.isSome_iff_exists.mp h₃
  have hres : Resumes s s₃ := by
    unfold Resumes
    rw [hcur]
    exact ⟨1, s₁, toOption_some hs₁, .inr ⟨s₂, Steps.of_run hs₂, by rw [hcur₂]; decide,
      toOption_some hs₃⟩⟩
  obtain ⟨hacc, hregs⟩ := process_isolated ⟨_, _, Steps.of_run hs⟩
  obtain ⟨sp, -, -, -, he | ⟨s'', he, hi⟩⟩ := hacc _ rfl hrun hen
  · rw [toOption_some hs'] at he
    cases he
  · rw [toOption_some hs'] at he
    cases he
    refine ⟨s, s', s₃, hs, hcur, toOption_some hs', of_decide_eq_true hb, ?_, hres,
      hregs s₃ ?_ hres⟩
    · rw [← hcur]; exact hi.bytes
    · rw [hcur]; exact Option.ne_none_iff_isSome.mpr hsp

end Nachos.Kernel
