import Nachos.Kernel.Instruction

/-!
# Kernel — Registers

The register file along the runs of the kernel.  `trackedStep` is a step of the kernel that also
notes, for each process, the load its last instruction has left in progress (`loads`), until an
interrupt finishes it.  `RegInv P` says that the registers of every process that has started,
whether it has the CPU or not, meet `P`; here `P` is `RegOk`: register 0 is 0, the load in progress
is for a general register, and it is the one noted.
-/

namespace Nachos.Machine
open Exec

/-! ### The copy routines -/

section
variable {pageTable : List TranslationEntry} {m : Machine}

/-- What a copy routine leaves: the registers as they were, or an address error. -/
def Copies {α : Type} (pageTable : List TranslationEntry) (x : Exec α) (m : Machine) : Prop :=
  Ends x m (fun _ m' => Runs pageTable m' ∧ m'.registers = m.registers)
    fun which _ => which = .addressErrorException

theorem Copies.pure {α : Type} (h : Runs pageTable m) (a : α) : Copies pageTable (pure a) m :=
  ⟨h, rfl⟩

theorem Copies.bind {α β : Type} {x : Exec α} {f : α → Exec β} (hx : Copies pageTable x m)
    (hf : ∀ a m', Runs pageTable m' → Copies pageTable (f a) m') :
    Copies pageTable (x >>= f) m :=
  Ends.bind (hx.mono (fun a m' hm => (hf a m' hm.1).mono
    (fun _ _ h => ⟨h.1, h.2.trans hm.2⟩) fun _ _ h => h) fun _ _ h => h)

theorem Copies.ite {α : Type} {c : Prop} [Decidable c] {x y : Exec α} (hx : Copies pageTable x m)
    (hy : Copies pageTable y m) : Copies pageTable (if c then x else y) m :=
  Ends.ite (fun _ => hx) fun _ => hy

theorem copies_readMem (h : Runs pageTable m) (addr : Word) :
    Copies pageTable (readMem addr 1) m := by
  unfold Copies Ends
  rcases readMem_eq h addr .byte with ⟨-, e⟩ | ⟨-, m', e, hr, hregs, -⟩
  · rw [show readMem addr 1 m = _ from e]
  · rw [show readMem addr 1 m = _ from e]
    exact ⟨hr, hregs⟩

theorem copies_writeMem (h : Runs pageTable m) (addr value : Word) :
    Copies pageTable (writeMem addr 1 value) m := by
  unfold Copies Ends
  rcases writeMem_eq h addr .byte value with ⟨-, e⟩ | ⟨-, m', e, hr, hregs, -⟩
  · rw [show writeMem addr 1 value m = _ from e]
  · rw [show writeMem addr 1 value m = _ from e]
    exact ⟨hr, hregs⟩

theorem copies_user2System (h : Runs pageTable m) (virtAddr : Word) (limit : Nat) :
    Copies pageTable (user2System virtAddr limit) m := by
  have loop : ∀ limit i m, Runs pageTable m →
      Copies pageTable (user2SystemLoop virtAddr limit i) m := by
    intro limit
    induction limit with
    | zero => intro i m h; exact .pure h _
    | succ n ih =>
        intro i m h
        refine (copies_readMem h _).bind fun c m' h' => ?_
        exact .ite (.pure h' _) ((ih _ m' h').bind fun _ _ h'' => .pure h'' _)
  exact (loop _ _ m h).bind fun _ _ h' => .pure h' _

theorem copies_system2User (h : Runs pageTable m) (virtAddr : Word) (len : Int)
    (buffer : Nat → Byte) : Copies pageTable (system2User virtAddr len buffer) m := by
  have loop : ∀ rest i m, Runs pageTable m →
      Copies pageTable (system2UserLoop virtAddr buffer rest i) m := by
    intro rest
    induction rest with
    | zero =>
        intro i m h
        unfold system2UserLoop
        exact (copies_writeMem h _ _).bind fun _ _ h' => .pure h' _
    | succ n ih =>
        intro i m h
        unfold system2UserLoop
        exact (copies_writeMem h _ _).bind fun _ m' h' => .ite (.pure h' _) (ih _ m' h')
  exact .ite (.pure h _) (.ite (.pure h _) ((loop _ _ m h).bind fun _ _ h' => .pure h' _))

end

end Nachos.Machine

namespace Nachos.Kernel
open Lib Machine

/-! ### The load in progress -/

/-- The load in progress: its register and its value. -/
def pending (r : Nat → Word) : Word × Word := (r LoadReg, r LoadValueReg)

/-- What is noted of the loads of the processes in a step from `s` to `s'`: an instruction leaves
one; an interrupt finishes it; and a process begins with none. -/
def loads (s : State) (a : Action) (s' : State) (loaded : Tid → Word × Word) : Tid → Word × Word :=
  match a with
  | .oneInstruction => Function.update loaded s.currentThread (pending s'.registers)
  | .interrupt | .execFunc => Function.update loaded s.currentThread (0, 0)
  | .resume _ =>
      if s'.currentThread = s.currentThread then loaded
      else Function.update loaded s'.currentThread (0, 0)
  | _ => loaded

/-- A step of the kernel, with the loads of the processes. -/
def trackedStep (x : State × (Tid → Word × Word)) (a : Action) :
    Except Stop (State × (Tid → Word × Word)) :=
  match step x.1 a with
  | .ok s' => .ok (s', loads x.1 a s' x.2)
  | .error e => .error e

/-- The registers of a process: those of the machine, or those it has saved. -/
def State.regsOf (s : State) (t : Tid) : Nat → Word :=
  if t = s.currentThread then s.registers else s.userRegisters t

/-- The register file of a process, with the load `load` in progress. -/
structure RegOk (load : Word × Word) (r : Nat → Word) : Prop where
  zero : r 0 = 0
  inRange : (r LoadReg).toNat < NumGPRegs
  pending : pending r = load

/-- `t` is a process that has started and has not exited. -/
def State.InProcess (s : State) (t : Tid) : Prop :=
  (s.mode t).started = true ∧ s.procs.spaces t ≠ none

/-- The invariant of the machine, and that no thread that has started gets an address space. -/
structure Live (s : State) : Prop where
  ok : Ok s
  settled : ∀ t, (s.mode t).started = true → s.procs.Settled t

/-- The registers of every process that has started meet `P`. -/
structure RegInv (P : Tid → (Nat → Word) → Prop) (s : State) : Prop where
  live : Live s
  regs : s.procs.halted = false → ∀ t, s.InProcess t → P t (s.regsOf t)

/-- `P` looks at the registers of the machine only. -/
def Respects (P : Tid → (Nat → Word) → Prop) : Prop :=
  ∀ t r r', (∀ i, i < NumTotalRegs → r' i = r i) → P t r → P t r'

/-- The load in progress of each process is the one noted. -/
def Noted (loaded : Tid → Word × Word) (t : Tid) (r : Nat → Word) : Prop := RegOk (loaded t) r

section
variable {s s' : State} {t : Tid} {load : Word × Word} {r r' : Nat → Word}
  {loaded : Tid → Word × Word} {P P' : Tid → (Nat → Word) → Prop}

theorem RegOk.congr (h : RegOk load r) (e : ∀ i, i < NumTotalRegs → r' i = r i) :
    RegOk load r' := by
  have h₀ := e 0 (by decide)
  have h₁ := e LoadReg (by decide)
  have h₂ := e LoadValueReg (by decide)
  refine ⟨h₀.trans h.zero, by rw [h₁]; exact h.inRange, ?_⟩
  rw [← h.pending]
  exact Prod.ext h₁ h₂

theorem respects_noted : Respects (Noted loaded) := fun _ _ _ e h => RegOk.congr h e

theorem regOk_init (sp : AddrSpace) (r : Nat → Word) : RegOk (0, 0) (initRegisters sp r) :=
  ⟨rfl, (by decide : (0 : Word).toNat < NumGPRegs), rfl⟩

/-! ### What a move does to the processes that have started -/

theorem ProcSteps.settled {u : Tid} {x y : Proc.State} (hR : Proc.Reachable x)
    (h : ProcSteps u x y) (hx : x.Settled t) :
    y.Settled t ∧ (y.spaces t ≠ none → x.spaces t ≠ none) := by
  refine (Steps.inv (I := fun y => Proc.Reachable y ∧ y.Settled t ∧
    (y.spaces t ≠ none → x.spaces t ≠ none)) h ⟨hR, hx, id⟩ ?_).2
  rintro y a z ⟨⟨heap, hy⟩, hset, hsp⟩ rfl hok
  obtain ⟨h₁, h₂⟩ := Proc.step_settled ⟨heap, hy⟩ hok hset
  exact ⟨⟨heap, hy.tail trivial hok⟩, h₁, fun hz => hsp (h₂ hz)⟩

theorem run_mode (s : State) (next : Tid) (t : Tid) (h : ((s.run next).mode t).started = true) :
    (s.mode t).started = true := by
  obtain ⟨hmode, -⟩ := switchOut_mode s
  rcases run_cases s next with ⟨-, e⟩ | ⟨-, -, e⟩ | ⟨sp, -, -, e⟩ <;> rw [e] at h
  · replace h : (Function.update s.switchOut.mode next .root t).started = true := h
    by_cases e : t = next
    · rw [e, Function.update_self] at h; cases h
    · rwa [Function.update_of_ne e, hmode] at h
  · rw [← hmode]; exact h
  · rw [← hmode]; exact h

theorem run_procs (s : State) (next : Tid) : (s.run next).procs = s.procs := by
  obtain ⟨-, hprocs⟩ := switchOut_mode s
  rcases run_cases s next with ⟨-, e⟩ | ⟨-, -, e⟩ | ⟨sp, -, -, e⟩ <;> rw [e] <;> exact hprocs

theorem Local.started (hl : Local s s') (h : (s'.mode t).started = true) :
    (s.mode t).started = true := by
  rcases hl.mode with e | ⟨hst, m, -, e⟩
  · rwa [e] at h
  · by_cases ht : t = s.currentThread
    · rw [ht]; exact hst
    · rwa [e, Function.update_of_ne ht] at h

theorem Enters.started (he : Enters s s') (ht : t ≠ s'.currentThread)
    (h : (s'.mode t).started = true) : (s.mode t).started = true := by
  obtain ⟨m, -, e⟩ := he.mode
  rwa [e, Function.update_of_ne ht] at h

theorem Moves.live (h : Live s) (hm : Moves s s') : Live s' where
  ok := hm.ok h.ok
  settled t ht := by
    cases hm with
    | run next => rw [run_procs]; exact h.settled t (run_mode s next t ht)
    | inside hl => exact (hl.procs.settled h.ok.procs (h.settled t (hl.started ht))).1
    | enters he =>
        by_cases e : t = s'.currentThread
        · obtain ⟨sp, hsp, -⟩ := he.space
          exact .inr (.inl (by rw [e, hsp]; simp))
        · exact (he.procs.settled h.ok.procs (h.settled t (he.started e ht))).1

theorem Local.inProcess (h : Live s) (hl : Local s s') (ht : s'.InProcess t) :
    s.InProcess t := by
  have hst := hl.started ht.1
  exact ⟨hst, (hl.procs.settled h.ok.procs (h.settled t hst)).2 ht.2⟩

theorem regsOf_self (s : State) : s.regsOf s.currentThread = s.registers := if_pos rfl

theorem regsOf_ne (h : t ≠ s.currentThread) : s.regsOf t = s.userRegisters t := if_neg h

/-- **`Scheduler::Run` gives every process its own registers.** -/
theorem run_regsOf (s : State) (next : Tid) (ht : (s.run next).InProcess t) {i : Nat}
    (hi : i < NumTotalRegs) : (s.run next).regsOf t i = s.regsOf t i := by
  have hst := run_mode s next t ht.1
  have hsp : s.procs.spaces t ≠ none := by
    have := ht.2
    rwa [run_procs] at this
  -- what the threads have saved, once the last one is switched out
  have hsaved : s.switchOut.userRegisters t i = s.regsOf t i := by
    unfold State.switchOut
    by_cases e : t = s.currentThread
    · obtain ⟨sp, hsp⟩ := Option.ne_none_iff_exists'.mp hsp
      rw [← e, hsp]
      show Function.update s.userRegisters t _ t i = _
      rw [Function.update_self, e, regsOf_self]
      exact if_pos hi
    · rw [regsOf_ne e]
      split
      · exact congrFun (Function.update_of_ne e _ _) i
      · rfl
  rcases run_cases s next with ⟨hm, e⟩ | ⟨-, hn, e⟩ | ⟨sp, -, -, e⟩
  · have hne : t ≠ next := by
      rintro rfl
      rw [hm] at hst
      cases hst
    rw [regsOf_ne (by rw [e]; exact hne), e]
    exact hsaved
  · have hne : t ≠ next := by
      rintro rfl
      exact hsp hn
    rw [regsOf_ne (by rw [e]; exact hne), e]
    exact hsaved
  · by_cases hne : t = next
    · subst hne
      have hcur : (s.run t).currentThread = t := by rw [e]; rfl
      have hself := regsOf_self (s.run t)
      rw [hcur] at hself
      rw [hself, ← hsaved, e]
      exact if_pos hi
    · rw [regsOf_ne (by rw [e]; exact hne), e]
      exact hsaved

/-! ### The invariant -/

theorem RegInv.run (h : RegInv P s) (hP : Respects P) (next : Tid) : RegInv P (s.run next) where
  live := (Moves.run next).live h.live
  regs hr t ht := by
    have hin : s.InProcess t := by
      have := ht.2
      rw [run_procs] at this
      exact ⟨run_mode s next t ht.1, this⟩
    rw [run_procs] at hr
    exact hP t _ _ (fun i hi => run_regsOf s next ht hi) (h.regs hr t hin)

/-- A step of `currentThread`: only its own registers change. -/
theorem RegInv.inside (h : RegInv P s) (hr : s.procs.halted = false) (hl : Local s s')
    (hP : ∀ t, t ≠ s.currentThread → ∀ r, P t r → P' t r)
    (hcur : s'.procs.halted = false → s.InProcess s.currentThread →
      P s.currentThread s.registers → P' s.currentThread s'.registers) : RegInv P' s' where
  live := (Moves.inside hl).live h.live
  regs hr' t ht := by
    have hin := hl.inProcess h.live ht
    have hok := h.regs hr t hin
    by_cases e : t = s.currentThread
    · subst e
      have hself := regsOf_self s'
      rw [hl.currentThread] at hself
      rw [hself]
      rw [regsOf_self] at hok
      exact hcur hr' hin hok
    · rw [regsOf_ne (by rw [hl.currentThread]; exact e), hl.userRegisters, ← regsOf_ne e]
      exact hP t e _ hok

/-- A process begins, with fresh registers; the thread that had the CPU, if it is another, has no
address space. -/
theorem RegInv.enters (h : RegInv P s) (hr : s.procs.halted = false) (he : Enters s s')
    (hP : ∀ t, t ≠ s'.currentThread → ∀ r, P t r → P' t r)
    (hnew : P' s'.currentThread s'.registers)
    (hold : s'.currentThread ≠ s.currentThread → s'.procs.spaces s.currentThread = none) :
    RegInv P' s' where
  live := (Moves.enters he).live h.live
  regs _ t ht := by
    by_cases e : t = s'.currentThread
    · rw [e, regsOf_self]
      exact hnew
    · have hst := he.started e ht.1
      have hin : s.InProcess t :=
        ⟨hst, (he.procs.settled h.live.ok.procs (h.live.settled t hst)).2 ht.2⟩
      have hne : t ≠ s.currentThread := by
        rintro rfl
        exact ht.2 (hold (Ne.symm e))
      rw [regsOf_ne e, he.userRegisters, ← regsOf_ne hne]
      exact hP t e _ (h.regs hr t hin)

/-- A process runs on a page table of `AddrSpace`. -/
theorem RegInv.own (h : RegInv P s) (hr : s.procs.halted = false)
    (hready : s.Ready s.currentThread) (hm : (s.mode s.currentThread).started = true)
    (hpc : s.procs.pc s.currentThread = .user) :
    ∃ sp, Own s sp ∧ Runs sp.pageTable s.machine ∧ P s.currentThread s.registers := by
  obtain ⟨sp, ho⟩ := h.live.ok.own hr hready hm hpc
  have hregs := h.regs hr s.currentThread ⟨hm, by rw [ho.space]; simp⟩
  rw [regsOf_self] at hregs
  exact ⟨sp, ho, ⟨sp.pageTable, ⟨ho.machine_pageTable, ho.pageTableSize,
    Proc.reachable_linear h.live.ok.procs _ _ ho.space⟩, rfl⟩, hregs⟩

theorem writeBack_registers {m : Machine} (h : s.writeBack m = .ok s') :
    s'.registers = m.registers := by
  unfold State.writeBack at h
  dsimp only at h
  split at h
  · obtain ⟨procs, -, rfl⟩ := proc_ok h
    rfl
  · cases h; rfl

/-- A system call leaves the registers to its handler; any other exception halts the machine. -/
theorem exceptionHandler_registers {which : ExceptionType} (h : s.exceptionHandler which = .ok s') :
    s'.registers = s.registers ∧
      (s'.procs.halted = false → which = .noException ∨ which = .syscallException) := by
  have hhalt : s.proc (.halt s.currentThread) = .ok s' →
      s'.registers = s.registers ∧ s'.procs.halted = true := by
    intro h
    obtain ⟨procs, hp, rfl⟩ := proc_ok h
    refine ⟨rfl, ?_⟩
    simp only [Proc.step] at hp
    split at hp
    · cases hp
    split at hp
    · cases hp; rfl
    · cases hp
  cases which with
  | noException => cases h; exact ⟨rfl, fun _ => .inl rfl⟩
  | syscallException => cases h; exact ⟨rfl, fun _ => .inr rfl⟩
  | _ =>
      obtain ⟨h₁, h₂⟩ := hhalt h
      exact ⟨h₁, fun hr => by rw [h₂] at hr; cases hr⟩

/-- What a routine of the machine leaves of the registers. -/
theorem access_registers {α : Type} {x : Exec α} (h : s.access x = .ok s') :
    (∃ a m, x s.machine = .ok a m ∧ s'.registers = m.registers) ∨
    ∃ which m, x s.machine = .raised which m ∧ s'.registers = m.registers ∧
      (s'.procs.halted = false → which = .noException ∨ which = .syscallException) := by
  unfold State.access at h
  cases e : x s.machine with
  | ok a m =>
      rw [e] at h
      exact .inl ⟨a, m, rfl, writeBack_registers h⟩
  | raised which m =>
      simp only [e] at h
      split at h
      · rename_i s₁ h₁
        obtain ⟨h₂, h₃⟩ := exceptionHandler_registers h
        exact .inr ⟨which, m, rfl, h₂.trans (writeBack_registers h₁), h₃⟩
      · cases h
  | aborted => rw [e] at h; cases h

/-- A copy routine leaves the registers as they were, or halts the machine. -/
theorem copies_registers {α : Type} {x : Exec α} {pageTable : List TranslationEntry}
    (hc : Copies pageTable x s.machine) (hok : s.access x = .ok s')
    (hr : s'.procs.halted = false) : s'.registers = s.registers := by
  unfold Copies Exec.Ends at hc
  rcases access_registers hok with ⟨a, m, e, hregs⟩ | ⟨which, m, e, -, hw⟩
  · rw [e] at hc
    exact hregs.trans hc.2
  · rw [e] at hc
    rcases hw hr with e' | e' <;> rw [e'] at hc <;> cases hc

theorem access_ends {pageTable : List TranslationEntry} (h : Sane pageTable s.machine)
    (hok : s.access oneInstruction = .ok s') :
    Exec.Ends oneInstruction s.machine (fun _ => Stepped s.machine.registers)
      (Trapped s.machine.registers) := by
  refine oneInstruction_ends h fun raw hraw hs => ?_
  have hab := oneInstruction_aborts h hraw hs
  unfold State.access at hok
  rw [hab] at hok
  cases hok

/-- **An instruction leaves register 0 at 0 and a load for a general register.** -/
theorem regOk_oneInstruction {pageTable : List TranslationEntry} (h : Sane pageTable s.machine)
    (hok : s.access oneInstruction = .ok s') : RegOk (pending s'.registers) s'.registers := by
  have hends := access_ends h hok
  unfold Exec.Ends at hends
  rcases access_registers hok with ⟨a, m, e, hregs⟩ | ⟨which, m, e, hregs, -⟩
  · rw [e] at hends
    rw [hregs]
    exact ⟨hends.zero, hends.load, rfl⟩
  · rw [e] at hends
    rw [hregs]
    exact ⟨hends.zero, hends.stepped.load, rfl⟩

theorem takeOver_ok {thread : Tid} (h : s.takeOver thread = .ok s') :
    s'.currentThread = thread ∧ s'.procs = s.procs ∧
      ∃ sp, s'.registers = initRegisters sp s.registers := by
  unfold State.takeOver at h
  split at h
  · cases h
  · rename_i sp _
    cases h
    exact ⟨rfl, rfl, sp, rfl⟩

/-- The thread in whose place the root takes over is another one, and has no address space. -/
theorem takeOver_old {procs : Proc.State} {host : Proc.Host} {pid : Proc.Pid}
    {par : Option Proc.Pid} {thread : Tid} (h : Ok s)
    (hp : Proc.step s.procs (.resume s.currentThread host) = .ok procs)
    (hpc : s.procs.pc s.currentThread = .execBuilt pid par)
    (ht : State.rootThread s.procs pid = some thread) :
    thread ≠ s.currentThread ∧ procs.spaces s.currentThread = none := by
  obtain ⟨heap, hs⟩ := h.procs
  have hR : Proc.Reachable procs := ⟨heap, hs.tail trivial hp⟩
  obtain ⟨b, hb, hb'⟩ := Option.bind_eq_some_iff.mp ht
  split at hb'
  · rename_i hpar
    have hne : thread ≠ s.currentThread := by
      rintro rfl
      have := (Proc.reachable_inv h.procs).pc_created hpc hb hb'
      rw [hpc] at this
      cases this
    have hgone : procs.pc s.currentThread = .gone := by
      simp only [Proc.step] at hp
      split at hp
      · cases hp
      split at hp
      · simp only [Proc.State.resume, hpc, Proc.State.execBuilt, hb, hb', if_pos hpar] at hp
        cases hp
        show Function.update (Function.update s.procs.pc s.currentThread .gone) thread _ _ = _
        rw [Function.update_of_ne (Ne.symm hne), Function.update_self]
      · cases hp
    exact ⟨hne,
      (Proc.reachable_frames hR).dead s.currentThread (by rw [Proc.State.ph, hgone]; rfl)⟩
  · cases hb'

/-- **Every step keeps the register files.** -/
theorem RegInv.step {a : Action} (h : RegInv (Noted loaded) s)
    (hok : Kernel.step s a = .ok s') : RegInv (Noted (loads s a s' loaded)) s' := by
  obtain ⟨hr, hen⟩ := step_ok hok
  have hg : ¬ (s.procs.halted = true ∨ ¬ s.Enabled a) := by simp [hr, hen]
  have hkeep : ∀ {u : Tid} {l : Word × Word}, ∀ t, t ≠ u → ∀ r, Noted loaded t r →
      Noted (Function.update loaded u l) t r := by
    intro u l t ht r h
    rwa [Noted, Function.update_of_ne ht]
  have hnew : ∀ {u : Tid} {sp : AddrSpace} {r : Nat → Word},
      Noted (Function.update loaded u (0, 0)) u (initRegisters sp r) := by
    intro u sp r
    rw [Noted, Function.update_self]
    exact regOk_init sp r
  cases a with
  | run next => rw [run_ok hok]; exact h.run respects_noted next
  | execFunc =>
      obtain ⟨he, hcur, sp, hregs⟩ := execFunc_enters hok
      refine h.enters hr he ?_ ?_ fun hne => absurd hcur hne
      · rw [hcur]; exact hkeep
      · rw [hcur, hregs]; exact hnew
  | resume host =>
      rcases resume_cases hok with ⟨hl, hregs⟩ | ⟨procs, pid, par, thread, hp, hpc, ht, hto⟩
      · rw [loads, if_pos hl.currentThread]
        exact h.inside hr hl (fun _ _ _ h => h) fun _ _ hok => hregs ▸ hok
      · have he : Enters s s' := .of_takeOver (.one rfl hp) hto
        obtain ⟨hcur, hprocs, sp, hregs⟩ := takeOver_ok hto
        obtain ⟨hne, hsp⟩ := takeOver_old h.live.ok hp hpc ht
        rw [loads, if_neg (by rw [hcur]; exact hne)]
        refine h.enters hr he hkeep ?_ fun _ => by rw [hprocs]; exact hsp
        rw [hregs]
        exact hnew
  | oneInstruction =>
      have hl := step_local h.live.ok hok rfl
      simp only [Kernel.step, if_neg hg] at hok
      refine h.inside hr hl hkeep fun _ _ _ => ?_
      obtain ⟨sp, -, hruns, hregs⟩ := h.own hr hen.1 (by rw [hen.2.1]; rfl) hen.2.2
      rw [Noted, loads, Function.update_self]
      exact regOk_oneInstruction ⟨hruns, hregs.inRange⟩ hok
  | user2System v l =>
      have hl := step_local h.live.ok hok rfl
      simp only [Kernel.step, if_neg hg] at hok
      refine h.inside hr hl (fun _ _ _ h => h) fun hr' _ hregs => ?_
      obtain ⟨sp, -, hruns, -⟩ := h.own hr hen.1 (by rw [hen.2.1]; rfl) hen.2.2
      rw [copies_registers (copies_user2System hruns v l) hok hr']
      exact hregs
  | system2User v l b =>
      have hl := step_local h.live.ok hok rfl
      simp only [Kernel.step, if_neg hg] at hok
      refine h.inside hr hl (fun _ _ _ h => h) fun hr' _ hregs => ?_
      obtain ⟨sp, -, hruns, -⟩ := h.own hr hen.1 (by rw [hen.2.1]; rfl) hen.2.2
      rw [copies_registers (copies_system2User hruns v l b) hok hr']
      exact hregs
  | sysRet r2 =>
      have hl := step_local h.live.ok hok rfl
      simp only [Kernel.step, if_neg hg] at hok
      cases hok
      refine h.inside hr hl (fun _ _ _ h => h) fun _ _ hregs => ?_
      cases r2 with
      | none => exact ⟨hregs.zero, hregs.inRange, hregs.pending⟩
      | some v => exact ⟨hregs.zero, hregs.inRange, hregs.pending⟩
  | interrupt =>
      have hl := step_local h.live.ok hok rfl
      simp only [Kernel.step, if_neg hg] at hok
      cases hok
      refine h.inside hr hl hkeep fun _ _ hregs => ?_
      have hd := delayedLoad_spec (m := s.machine) hregs.inRange 0 0
      rw [Noted, loads, Function.update_self]
      exact ⟨hd.zero, lt_of_eq_of_lt (congrArg BitVec.toNat hd.load) noLoad,
        Prod.ext hd.load hd.loadValue⟩
  | sleep | wake =>
      have hl := step_local h.live.ok hok rfl
      simp only [Kernel.step, if_neg hg] at hok
      cases hok
      exact h.inside hr hl (fun _ _ _ h => h) fun _ _ hregs => hregs
  | boot | exec | join | exit | halt =>
      have hl := step_local h.live.ok hok rfl
      simp only [Kernel.step, if_neg hg] at hok
      obtain ⟨procs, -, rfl⟩ := proc_ok hok
      exact h.inside hr hl (fun _ _ _ h => h) fun _ _ hregs => hregs

/-! ### Runs -/

/-- The loads of the processes, before there are any. -/
def noLoads : Tid → Word × Word := fun _ => (0, 0)

theorem init_live (heap : Nat → BitVec 32) (regs : Tid → Nat → Word) :
    Live (init heap regs) where
  ok := init_ok heap regs
  settled t ht := by
    by_cases e : t = 0
    · exact .inl e
    · replace ht : (Function.update (fun _ => Mode.unstarted) 0 .kernel t).started = true := ht
      rw [Function.update_of_ne e] at ht
      cases ht

/-- Before the root is started there is no process. -/
theorem init_regInv (heap : Nat → BitVec 32) (regs : Tid → Nat → Word) : RegInv P (init heap regs) :=
  ⟨init_live heap regs, fun _ _ ht => absurd rfl ht.2⟩

theorem tracked_regInv {heap : Nat → BitVec 32} {regs : Tid → Nat → Word}
    (h : Steps trackedStep always (init heap regs, noLoads) (s, loaded)) :
    RegInv (Noted loaded) s := by
  refine h.inv (I := fun x => RegInv (Noted x.2) x.1) (init_regInv heap regs) ?_
  rintro ⟨s₁, l₁⟩ a ⟨s₂, l₂⟩ hI - hok
  unfold trackedStep at hok
  split at hok
  · rename_i s₃ hs
    cases hok
    exact hI.step hs
  · cases hok

/-- Every run of the kernel can be tracked. -/
theorem tracked_of_steps {heap : Nat → BitVec 32} {regs : Tid → Nat → Word}
    (h : Steps step always (init heap regs) s) :
    ∃ loaded, Steps trackedStep always (init heap regs, noLoads) (s, loaded) := by
  induction h with
  | refl => exact ⟨noLoads, .refl⟩
  | @tail s₁ s₂ a _ _ hs ih =>
      obtain ⟨loaded, ih⟩ := ih
      exact ⟨loads s₁ a s₂ loaded, ih.tail (a := a) trivial (by simp only [trackedStep, hs])⟩

/-- **The register file.**  On every run, before each instruction of a process register 0 is 0 and
the load in progress is for one of the 32 general registers.  The same holds whenever a process
that has started has the CPU, in the kernel or at an interrupt: so a delayed load writes to no
other register but those that note the next one, and what it writes is the load that the last
instruction of this very process has left. -/
theorem register_file_inv {heap : Nat → BitVec 32} {regs : Tid → Nat → Word}
    (h : Steps trackedStep always (init heap regs, noLoads) (s, loaded))
    (hr : s.procs.halted = false) :
    (s.Enabled .oneInstruction → s.InProcess s.currentThread) ∧
    (s.InProcess s.currentThread → s.registers 0 = 0 ∧
      0 ≤ (s.registers LoadReg).toInt ∧ (s.registers LoadReg).toInt < 32 ∧
      (∀ nextReg nextValue i, NumGPRegs ≤ i → i ≠ LoadReg → i ≠ LoadValueReg →
        (s.machine.delayedLoad nextReg nextValue).registers i = s.registers i) ∧
      pending s.registers = loaded s.currentThread) := by
  have hI := tracked_regInv h
  refine ⟨fun hen => ?_, fun hin => ?_⟩
  · have hst : (s.mode s.currentThread).started = true := by rw [hen.2.1]; rfl
    obtain ⟨sp, ho, -⟩ := hI.own hr hen.1 hst hen.2.2
    exact ⟨hst, by rw [ho.space]; simp⟩
  · have hregs : RegOk (loaded s.currentThread) s.registers := by
      rw [← regsOf_self]
      exact hI.regs hr s.currentThread hin
    have hlt : (s.registers LoadReg).toNat < NumGPRegs := hregs.inRange
    have hint : (s.registers LoadReg).toInt = ((s.registers LoadReg).toNat : Int) := by
      rw [BitVec.toInt_eq_toNat_cond, if_pos (by unfold NumGPRegs at hlt; omega)]
    refine ⟨hregs.zero, by omega, by unfold NumGPRegs at hlt; omega, ?_, hregs.pending⟩
    intro nextReg nextValue i h₁ h₂ h₃
    exact (delayedLoad_spec (m := s.machine) hlt nextReg nextValue).others i h₁ h₂ h₃

/-! ### Instructions that bring the simulator down -/

/-- `OneInstruction` executes the instruction or raises an exception: no `ASSERT` fails, the host
does not trap, and every register that is indexed is one of the machine. -/
structure Returns (pageTable : List TranslationEntry) (m : Machine) : Prop where
  ends : Exec.Ends oneInstruction m
    (fun _ m' => ∀ i, NumTotalRegs ≤ i → m'.registers i = m.registers i)
    fun which m' => which ≠ .noException ∧
      ∀ i, NumTotalRegs ≤ i → m'.registers i = m.registers i
  fields : ∀ raw, fetched pageTable m = some raw → (decode raw).InRange
  load : (m.registers LoadReg).toNat < NumGPRegs

/-- **When an instruction brings the simulator down.**  In every reachable state in which a process
executes an instruction, `OneInstruction` returns if and only if the word at `PC`, if there is one,
is neither an unaligned load or store of a part of a word nor the division of the least `int`
by `-1`. -/
theorem oneInstruction_returns_iff (h : Reachable s) (hr : s.procs.halted = false)
    (hen : s.Enabled .oneInstruction) :
    ∃ sp, s.procs.spaces s.currentThread = some sp ∧ s.machine.pageTable = some sp.pageTable ∧
      (Returns sp.pageTable s.machine ↔
        ∀ raw, fetched sp.pageTable s.machine = some raw → ¬ Stumbles (decode raw) s.registers) := by
  obtain ⟨heap, regs, h⟩ := h
  obtain ⟨loaded, ht⟩ := tracked_of_steps h
  obtain ⟨sp, ho, hruns, hregs⟩ :=
    (tracked_regInv ht).own hr hen.1 (by rw [hen.2.1]; rfl) hen.2.2
  have hsane : Sane sp.pageTable s.machine := ⟨hruns, hregs.inRange⟩
  refine ⟨sp, ho.space, ho.machine_pageTable, fun hret raw hraw hs => ?_, fun hs => ?_⟩
  · have hends := hret.ends
    unfold Exec.Ends at hends
    rw [oneInstruction_aborts hsane hraw hs] at hends
    exact hends
  · exact ⟨(oneInstruction_ends hsane hs).mono (fun _ _ hq => hq.outside)
      fun _ _ he => ⟨he.which, he.outside⟩, fun raw _ => decode_inRange raw, hsane.load⟩

end

/-- A program whose code is `code`. -/
def programOf (code : List Byte) : Executable where
  bytes := [0xad, 0xdf, 0xba, 0, 0, 0, 0, 0, 40, 0, 0, 0, BitVec.ofNat 8 code.length, 0, 0, 0] ++
    List.replicate 24 0 ++ code
  stack _ := 0

/-- The root is started with the program `exe`. -/
def boots (exe : Executable) : List Action :=
  .boot [97] :: List.replicate 6 (.resume ⟨true, exe⟩)

/-- `lwl $1, 1($0)`. -/
def unalignedLoad : Executable := programOf [0x01, 0x00, 0x01, 0x88]

/-- `lui $1, 0x8000; addiu $2, $0, -1; div $1, $2`. -/
def leastByMinusOne : Executable :=
  programOf [0x00, 0x80, 0x01, 0x3c, 0xff, 0xff, 0x02, 0x24, 0x1a, 0x00, 0x22, 0x00]

/-- `lw $1, 0($0)`. -/
def loadsItself : Executable := programOf [0x00, 0x00, 0x01, 0x8c]

def isAborted {α : Type} : Result α → Bool
  | .aborted => true
  | _ => false

/-- The process in `s` executes the instruction `raw`. -/
def State.executes (s : State) (raw : Word) : Prop :=
  s.procs.halted = false ∧ s.Enabled .oneInstruction ∧
    (s.procs.spaces s.currentThread).any fun sp => fetched sp.pageTable s.machine = some raw

instance (s : State) (raw : Word) : Decidable (s.executes raw) :=
  inferInstanceAs (Decidable (_ ∧ _ ∧ _))

/-- A run that ends in an abort. -/
theorem brought_down (actions : List Action) {raw : Word}
    (h : (run step always (init (fun _ => 0) fun _ _ => 7) actions).any (fun s =>
      s.executes raw ∧ isAborted (oneInstruction s.machine)) = true) :
    ∃ s sp, Reachable s ∧ s.executes raw ∧ s.procs.spaces s.currentThread = some sp ∧
      ¬ Returns sp.pageTable s.machine := by
  obtain ⟨s, hs, hp⟩ := (Option.any_eq_true ..).mp h
  obtain ⟨hex, hab⟩ := of_decide_eq_true hp
  obtain ⟨sp, hsp, -⟩ := (Option.any_eq_true ..).mp hex.2.2
  refine ⟨s, sp, ⟨_, _, Steps.of_run hs⟩, hex, hsp, fun hret => ?_⟩
  have hends := hret.ends
  unfold Exec.Ends at hends
  generalize oneInstruction s.machine = x at hab hends
  cases x with
  | ok | raised => cases hab
  | aborted => exact hends

/-- The first instruction of one program and the third one of another bring the simulator down.
Neither is a `SYSCALL`. -/
theorem oneInstruction_brings_down :
    (∃ s sp, Reachable s ∧ s.executes 0x88010001 ∧ s.procs.spaces s.currentThread = some sp ∧
      ¬ Returns sp.pageTable s.machine) ∧ (decode 0x88010001).opCode = .OP_LWL ∧
    (∃ s sp, Reachable s ∧ s.executes 0x0022001a ∧ s.procs.spaces s.currentThread = some sp ∧
      ¬ Returns sp.pageTable s.machine) ∧ (decode 0x0022001a).opCode = .OP_DIV :=
  ⟨brought_down (boots unalignedLoad) (by decide +kernel), by decide,
    brought_down (boots leastByMinusOne ++ [.oneInstruction, .oneInstruction])
      (by decide +kernel), by decide⟩

/-- The other instructions of the second program return. -/
theorem oneInstruction_returns_lui : ∃ s sp, Reachable s ∧ s.executes 0x3c018000 ∧
    s.procs.spaces s.currentThread = some sp ∧ Returns sp.pageTable s.machine := by
  obtain ⟨s, hs, hp⟩ := (Option.any_eq_true ..).mp (show (run step always
    (init (fun _ => 0) fun _ _ => 7) (boots leastByMinusOne)).any (fun s =>
      s.executes 0x3c018000) = true by decide +kernel)
  have hex := of_decide_eq_true hp
  have hR : Reachable s := ⟨_, _, Steps.of_run hs⟩
  obtain ⟨sp, hsp, -, hiff⟩ := oneInstruction_returns_iff hR hex.1 hex.2.1
  refine ⟨s, sp, hR, hex, hsp, hiff.mpr fun raw hraw => ?_⟩
  obtain ⟨sp', hsp', hraw'⟩ := (Option.any_eq_true ..).mp hex.2.2
  rw [hsp] at hsp'
  cases hsp'
  rw [of_decide_eq_true hraw'] at hraw
  cases hraw
  have hop : (decode 0x3c018000).opCode = .OP_LUI := by decide
  rw [Stumbles, hop]
  exact id

/-- A process loads a word, and yields to itself: the load is still in progress. -/
theorem register_file_inv_load : ∃ s loaded,
    Steps trackedStep always (init (fun _ => 0) fun _ _ => 7, noLoads) (s, loaded) ∧
    s.Enabled .oneInstruction ∧ s.registers 0 = 0 ∧ pending s.registers = (1, 0x8c010000) ∧
    pending s.registers = loaded s.currentThread := by
  obtain ⟨⟨s, loaded⟩, hs, hp⟩ := (Option.any_eq_true ..).mp (show (run trackedStep always
    (init (fun _ => 0) fun _ _ => 7, noLoads)
      (boots loadsItself ++ [.oneInstruction, .run 1])).any (fun x => x.1.procs.halted = false ∧
      x.1.Enabled .oneInstruction ∧ pending x.1.registers = (1, 0x8c010000)) = true
    by decide +kernel)
  obtain ⟨hr, hen, hpend⟩ := of_decide_eq_true hp
  have ht := Steps.of_run hs
  obtain ⟨h₁, h₂⟩ := register_file_inv ht hr
  obtain ⟨hz, -, -, -, hl⟩ := h₂ (h₁ hen)
  exact ⟨s, loaded, ht, hen, hz, hpend, hl⟩

end Nachos.Kernel
