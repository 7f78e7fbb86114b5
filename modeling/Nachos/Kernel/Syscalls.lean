import Nachos.Kernel.Registers
import Nachos.Userprog.Exception

/-!
# Kernel — Syscalls

The kernel with the handlers of the system calls (userprog/exception.cc) in the place of the free
ones of `System`.  A `SYSCALL` puts its thread at the beginning of a handler; the thread goes
through it operation by operation, and between any two of them, and inside an operation of the
kernel, other threads may have the CPU.  The operations of the process table are those of `Proc`;
any other may sleep, and comes back with any answer.

`CallOk` is what a handler keeps of the registers its thread was trapped with (`trap`): they are
what they were, but for `r2` and for one `AdjustPCRegs`, made or still to come.
-/

namespace Nachos.Kernel
open Lib Machine Syscall

/-- Where a thread is in a handler. -/
inductive Status where
  /-- It is in none. -/
  | user
  | running (p : Prog)
  /-- In an operation of the kernel, before it has returned. -/
  | calling (c : Call) (k : Answer → Prog)

instance : (status : Status) → Decidable (status = .user)
  | .user => .isTrue rfl
  | .running _ | .calling _ _ => .isFalse nofun

/-- The operations of the process table. -/
def action : Call → Option Action
  | .execUpdate name => some (.exec (some name))
  | .joinUpdate id => some (.join id)
  | .exitUpdate ec => some (.exit ec)
  | _ => none

/-- The steps of the kernel that may come where a thread is, apart from those of its handler. -/
def Status.allows : Status → Action → Bool
  | _, .run _ | _, .wake _ | _, .interrupt => true
  | user, .oneInstruction | user, .execFunc | user, .boot _ | user, .resume _ => true
  | calling c _, .sleep => (action c).isNone
  | calling c _, .resume _ => (action c).isSome
  | _, _ => false

/-- The steps of user code, and those that start it. -/
def Action.starts : Action → Bool
  | .oneInstruction | .execFunc => true
  | _ => false

/-- The kernel and the handlers of its threads.  `trap` is history: the registers a thread had when
its system call was delivered. -/
structure Handled where
  kernel : State
  status : Tid → Status
  trap : Tid → Nat → Word

namespace Handled

/-- `currentThread` goes to `status`, and the kernel to `s`. -/
def goto (x : Handled) (s : State) (status : Status) : Handled :=
  { x with kernel := s, status := Function.update x.status x.kernel.currentThread status }

/-- A step of the kernel.  An instruction that leaves its thread in the kernel is a `SYSCALL`. -/
def kernelStep (x : Handled) (a : Action) : Except Stop Handled :=
  if (x.status x.kernel.currentThread).allows a then
    match step x.kernel a with
    | .error e => .error e
    | .ok s =>
        match a with
        | .oneInstruction =>
            if s.mode x.kernel.currentThread = .kernel then
              .ok { x.goto s (.running (handler (s.registers 2))) with
                trap := Function.update x.trap x.kernel.currentThread s.registers }
            else .ok { x with kernel := s }
        | _ => .ok { x with kernel := s }
  else .error .disabled

/-- `currentThread` has the CPU, in its handler. -/
def InHandler (x : Handled) : Prop :=
  x.kernel.procs.halted = false ∧ x.kernel.Enabled (.sysRet none)

instance (x : Handled) : Decidable x.InHandler := inferInstanceAs (Decidable (_ ∧ _))

/-- The next operation of the handler. -/
def operate (x : Handled) (s : State) : Prog → Except Stop Handled
  | .ret => .ok (x.goto (s.setMode s.currentThread .user) .user)
  | .readRegister num k => .ok (x.goto s (.running (k (s.registers num))))
  | .writeRegister num value k =>
      .ok (x.goto { s with registers := (s.machine.setRegister num value).registers } (.running k))
  | .adjustPCRegs k =>
      .ok (x.goto { s with registers := s.machine.adjustPCRegs.registers } (.running k))
  | .user2System virtAddr limit k =>
      match step s (.user2System virtAddr limit) with
      | .error e => .error e
      | .ok s' =>
          match user2System virtAddr limit s.machine with
          | .ok bytes _ => .ok (x.goto s' (.running (k bytes)))
          -- `ExceptionHandler` has halted the machine
          | _ => .ok { x with kernel := s' }
  | .system2User virtAddr len buffer k =>
      match step s (.system2User virtAddr len fun i => buffer.getD i 0) with
      | .error e => .error e
      | .ok s' => .ok (x.goto s' (.running k))
  | .call c k =>
      match action c with
      | none => .ok (x.goto s (.calling c k))
      | some a =>
          match step s a with
          | .error e => .error e
          | .ok s' => .ok (x.goto s' (.calling c k))
  | .jump l => .ok (x.goto s (.running (code l)))
  | .halt =>
      match step s .halt with
      | .error e => .error e
      | .ok s' => .ok { x with kernel := s' }
  | .abort => .error .assertFails

/-- `currentThread` goes on in its handler. -/
def go (x : Handled) : Except Stop Handled :=
  match x.status x.kernel.currentThread with
  | .running p => if x.InHandler then x.operate x.kernel p else .error .disabled
  | _ => .error .disabled

/-- An operation of the kernel returns.  One of the process table has left its result there. -/
def answer (x : Handled) (r : Answer) : Except Stop Handled :=
  match x.status x.kernel.currentThread with
  | .calling c k =>
      if x.InHandler ∧
          ((action c).isSome → r.value = x.kernel.procs.result x.kernel.currentThread) then
        .ok (x.goto x.kernel (.running (k r)))
      else .error .disabled
  | _ => .error .disabled

end Handled

inductive HandledAction where
  | kernel (a : Action)
  | go
  | answer (r : Answer)

def handledStep (x : Handled) : HandledAction → Except Stop Handled
  | .kernel a => x.kernelStep a
  | .go => x.go
  | .answer r => x.answer r

/-- The kernel before `StartProcess`. -/
def handledInit (heap : Nat → BitVec 32) (regs : Tid → Nat → Word) : Handled where
  kernel := init heap regs
  status _ := .user
  trap := regs

/-! ### The registers of a thread in a handler -/

/-- The registers `old`, with `v` in `r2` and, if `adjusted`, behind an `AdjustPCRegs`. -/
def resumed (adjusted : Bool) (old : Nat → Word) (v : Word) (i : Nat) : Word :=
  if i = 2 then v
  else if adjusted then
    if i = PrevPCReg then old PCReg
    else if i = PCReg then old NextPCReg
    else if i = NextPCReg then old NextPCReg + 4
    else old i
  else old i

def Resumed (adjusted : Bool) (old r : Nat → Word) : Prop :=
  ∃ v, ∀ i, i < NumTotalRegs → r i = resumed adjusted old v i

/-- A trap has finished the load in progress. -/
def Clean (old : Nat → Word) : Prop := old 0 = 0 ∧ old LoadReg = 0 ∧ old LoadValueReg = 0

/-- The registers a trap leaves of those of `m`. -/
structure Delivered (m : Machine) (r : Nat → Word) : Prop where
  clean : Clean r
  pc : r PCReg = m.registers PCReg
  nextPC : r NextPCReg = m.registers NextPCReg
  general : ∀ i, i < NumGPRegs → r i = (m.delayedLoad 0 0).registers i

/-- What a thread keeps of the registers `old` it was trapped with. -/
def CallOk (status : Status) (old r : Nat → Word) : Prop :=
  match status with
  | .user => r 0 = 0 ∧ (r LoadReg).toNat < NumGPRegs
  | .running p => Clean old ∧ ∃ adjusted, p.Adjusts adjusted ∧ Resumed adjusted old r
  | .calling _ k => Clean old ∧ ∃ adjusted, (∀ a, (k a).Adjusts adjusted) ∧ Resumed adjusted old r

section
variable {adjusted : Bool} {old r r' : Nat → Word} {status : Status}

theorem Resumed.congr (h : Resumed adjusted old r) (e : ∀ i, i < NumTotalRegs → r' i = r i) :
    Resumed adjusted old r' := by
  obtain ⟨v, h⟩ := h
  exact ⟨v, fun i hi => (e i hi).trans (h i hi)⟩

theorem resumed_self (r : Nat → Word) : Resumed false r r := by
  refine ⟨r 2, fun i _ => ?_⟩
  unfold resumed
  split
  · rename_i e; rw [e]
  · rfl

theorem Resumed.write (h : Resumed adjusted old r) (value : Word) :
    Resumed adjusted old (Function.update r 2 value) := by
  obtain ⟨v, h⟩ := h
  refine ⟨value, fun i hi => ?_⟩
  by_cases e : i = 2
  · rw [e, Function.update_self]; rfl
  · rw [Function.update_of_ne e, h i hi, resumed, resumed, if_neg e, if_neg e]

theorem adjustPCRegs_apply (m : Machine) (i : Nat) : m.adjustPCRegs.registers i =
    if i = NextPCReg then m.registers NextPCReg + 4
    else if i = PCReg then m.registers NextPCReg
    else if i = PrevPCReg then m.registers PCReg
    else m.registers i := by
  show Function.update (Function.update (Function.update m.registers _ _) _ _) _ _ i = _
  simp only [Function.update_apply]
  rfl

theorem Resumed.adjust {m : Machine} (h : Resumed false old m.registers) :
    Resumed true old m.adjustPCRegs.registers := by
  obtain ⟨v, h⟩ := h
  refine ⟨v, fun i hi => ?_⟩
  have hpc : m.registers PCReg = old PCReg := h PCReg (by decide)
  have hnext : m.registers NextPCReg = old NextPCReg := h NextPCReg (by decide)
  rw [adjustPCRegs_apply, hpc, hnext]
  by_cases h₁ : i = NextPCReg
  · rw [h₁]; rfl
  by_cases h₂ : i = PCReg
  · rw [h₂]; rfl
  by_cases h₃ : i = PrevPCReg
  · rw [h₃]; rfl
  rw [if_neg h₁, if_neg h₂, if_neg h₃, h i hi]
  simp [resumed, h₁, h₂, h₃]

/-- The registers a handler does not write. -/
theorem Resumed.same (h : Resumed adjusted old r) {i : Nat} (hi : i < NumTotalRegs)
    (h₁ : i ≠ 2) (h₂ : i ≠ PrevPCReg) (h₃ : i ≠ PCReg) (h₄ : i ≠ NextPCReg) : r i = old i := by
  obtain ⟨v, h⟩ := h
  rw [h i hi]
  simp [resumed, h₁, h₂, h₃, h₄]

/-- An interrupt finds no load in progress. -/
theorem Resumed.interrupt {m : Machine} (h : Resumed adjusted old m.registers) (hc : Clean old) :
    Resumed adjusted old (m.delayedLoad 0 0).registers := by
  have h₀ : m.registers 0 = 0 := (h.same (by decide) (by decide) (by decide) (by decide)
    (by decide)).trans hc.1
  have h₁ : m.registers LoadReg = 0 := (h.same (by decide) (by decide) (by decide) (by decide)
    (by decide)).trans hc.2.1
  have h₂ : m.registers LoadValueReg = 0 := (h.same (by decide) (by decide) (by decide)
    (by decide) (by decide)).trans hc.2.2
  refine h.congr fun i _ => ?_
  show Function.update (Function.update (Function.update (Function.update m.registers
    (m.registers LoadReg).toNat (m.registers LoadValueReg)) LoadReg 0) LoadValueReg 0) 0 0 i = _
  rw [h₁, h₂]
  simp only [Function.update_apply]
  split
  · rename_i e; rw [e, h₀]
  split
  · rename_i e; rw [e, h₂]
  split
  · rename_i e; rw [e, h₁]
  split
  · rename_i hne _ _ e; exact absurd e hne
  · rfl

theorem CallOk.congr (h : CallOk status old r) (e : ∀ i, i < NumTotalRegs → r' i = r i) :
    CallOk status old r' := by
  cases status with
  | user =>
      obtain ⟨h₁, h₂⟩ := h
      exact ⟨(e 0 (by decide)).trans h₁, by rw [e LoadReg (by decide)]; exact h₂⟩
  | running p =>
      obtain ⟨hc, adjusted, hp, hr⟩ := h
      exact ⟨hc, adjusted, hp, hr.congr e⟩
  | calling c k =>
      obtain ⟨hc, adjusted, hp, hr⟩ := h
      exact ⟨hc, adjusted, hp, hr.congr e⟩

theorem CallOk.interrupt {m : Machine} (h : CallOk status old m.registers) :
    CallOk status old (m.delayedLoad 0 0).registers := by
  cases status with
  | user =>
      have hd := delayedLoad_spec (m := m) h.2 0 0
      exact ⟨hd.zero, lt_of_eq_of_lt (congrArg BitVec.toNat hd.load) noLoad⟩
  | running p =>
      obtain ⟨hc, adjusted, hp, hr⟩ := h
      exact ⟨hc, adjusted, hp, hr.interrupt hc⟩
  | calling c k =>
      obtain ⟨hc, adjusted, hp, hr⟩ := h
      exact ⟨hc, adjusted, hp, hr.interrupt hc⟩

end

/-! ### The invariant -/

/-- What a thread keeps in a handler holds of every thread, and a thread in a handler has been
forked. -/
structure HandledInv (x : Handled) : Prop where
  regs : RegInv (fun t => CallOk (x.status t) (x.trap t)) x.kernel
  forked : ∀ t, x.status t ≠ .user → (x.kernel.procs.pc t).forked = true

section
variable {x y : Handled} {s : State} {status : Status}

theorem ProcSteps.forked {t u : Tid} {p q : Proc.State} (hR : Proc.Reachable p)
    (h : ProcSteps u p q) (hp : (p.pc t).forked = true) : (q.pc t).forked = true := by
  refine (Steps.inv (I := fun q => Proc.Reachable q ∧ (q.pc t).forked = true) h ⟨hR, hp⟩ ?_).2
  rintro q a q' ⟨⟨heap, hq⟩, hf⟩ - hok
  exact ⟨⟨heap, hq.tail trivial hok⟩, Proc.step_forked ⟨heap, hq⟩ hok hf⟩

theorem respects_callOk :
    Respects fun t => CallOk (x.status t) (x.trap t) := fun _ _ _ e h => h.congr e

/-- `currentThread` makes a step of its own. -/
theorem HandledInv.goto (h : HandledInv x) (hr : x.kernel.procs.halted = false)
    (hl : Local x.kernel s) (hf : (x.kernel.procs.pc x.kernel.currentThread).forked = true)
    (hcur : s.procs.halted = false →
      CallOk (x.status x.kernel.currentThread) (x.trap x.kernel.currentThread) x.kernel.registers →
      CallOk status (x.trap x.kernel.currentThread) s.registers) :
    HandledInv (x.goto s status) where
  regs := by
    refine h.regs.inside hr hl (fun t ht r hc => ?_) fun hr' _ hc => ?_
    · show CallOk (Function.update x.status _ status t) (x.trap t) r
      rw [Function.update_of_ne ht]
      exact hc
    · show CallOk (Function.update x.status _ status _) _ _
      rw [Function.update_self]
      exact hcur hr' hc
  forked t ht := by
    refine hl.procs.forked h.regs.live.ok.procs ?_
    by_cases e : t = x.kernel.currentThread
    · rw [e]; exact hf
    · replace ht : Function.update x.status _ status t ≠ .user := ht
      rw [Function.update_of_ne e] at ht
      exact h.forked t ht

/-- `currentThread` makes a step of its own, and stays where it is in its handler. -/
theorem HandledInv.stay (h : HandledInv x) (hr : x.kernel.procs.halted = false)
    (hl : Local x.kernel s)
    (hcur : s.procs.halted = false →
      CallOk (x.status x.kernel.currentThread) (x.trap x.kernel.currentThread) x.kernel.registers →
      CallOk (x.status x.kernel.currentThread) (x.trap x.kernel.currentThread) s.registers) :
    HandledInv { x with kernel := s } where
  regs := h.regs.inside hr hl (fun _ _ _ hc => hc) fun hr' _ hc => hcur hr' hc
  forked t ht := hl.procs.forked h.regs.live.ok.procs (h.forked t ht)

theorem access_mode {α : Type} {e : Exec α} {s s' : State} (h : s.access e = .ok s') :
    s'.mode = s.mode ∨ ∃ m, e s.machine = .raised .syscallException m := by
  have hw : ∀ {m : Machine} {s₁ : State}, s.writeBack m = .ok s₁ → s₁.mode = s.mode := by
    intro m s₁ h
    unfold State.writeBack at h
    dsimp only at h
    split at h
    · obtain ⟨procs, -, rfl⟩ := proc_ok h
      rfl
    · cases h; rfl
  unfold State.access at h
  cases ex : e s.machine with
  | ok a m => rw [ex] at h; exact .inl (hw h)
  | raised which m =>
      simp only [ex] at h
      split at h
      · rename_i s₁ h₁
        cases which with
        | syscallException => exact .inr ⟨m, rfl⟩
        | noException => cases h; exact .inl (hw h₁)
        | _ =>
            obtain ⟨procs, -, rfl⟩ := proc_ok h
            exact .inl (show s₁.mode = s.mode from hw h₁)
      · cases h
  | aborted => rw [ex] at h; cases h

/-- An exception does nothing to the registers but finish the load in progress. -/
theorem trapped_registers {m m₀ : Machine} (h : m₀.registers = m.registers) (addr : Word) {i : Nat}
    (hi : i ≠ BadVAddrReg) :
    (trapped addr m₀).registers i = (m.delayedLoad 0 0).registers i := by
  show Function.update (Function.update (Function.update (Function.update
      (Function.update m₀.registers BadVAddrReg addr)
      (Function.update m₀.registers BadVAddrReg addr LoadReg).toNat
      (Function.update m₀.registers BadVAddrReg addr LoadValueReg)) LoadReg 0) LoadValueReg 0) 0 0 i =
    Function.update (Function.update (Function.update (Function.update m.registers
      (m.registers LoadReg).toNat (m.registers LoadValueReg)) LoadReg 0) LoadValueReg 0) 0 0 i
  rw [h, Function.update_of_ne (by decide : LoadReg ≠ BadVAddrReg),
    Function.update_of_ne (by decide : LoadValueReg ≠ BadVAddrReg)]
  simp only [Function.update_apply, if_neg hi]

/-- An instruction that leaves its thread in the kernel has raised a system call. -/
theorem HandledInv.syscall (h : HandledInv x) (hu : x.status x.kernel.currentThread = .user)
    (hok : step x.kernel .oneInstruction = .ok s)
    (hk : s.mode x.kernel.currentThread = .kernel) :
    Delivered x.kernel.machine s.registers := by
  obtain ⟨hr, hen⟩ := step_ok hok
  obtain ⟨sp, -, hruns, hcall⟩ := h.regs.own hr hen.1 (by rw [hen.2.1]; rfl) hen.2.2
  rw [hu] at hcall
  have hg : ¬ (x.kernel.procs.halted = true ∨ ¬ x.kernel.Enabled .oneInstruction) := by
    simp [hr, hen]
  simp only [step, if_neg hg] at hok
  rcases access_mode hok with e | ⟨m, e⟩
  · rw [e, hen.2.1] at hk
    cases hk
  have hends := access_ends ⟨hruns, hcall.2⟩ hok
  unfold Exec.Ends at hends
  rcases access_registers hok with ⟨a, m', e', -⟩ | ⟨which, m', e', hm, -⟩
  · rw [e] at e'
    cases e'
  · rw [e'] at hends
    have hregs : ∀ i, i ≠ BadVAddrReg →
        s.registers i = (x.kernel.machine.delayedLoad 0 0).registers i := by
      intro i hi
      obtain ⟨addr, m₀, h₀, h₁⟩ := hends.delivered
      rw [hm, h₁]
      exact trapped_registers h₀ addr hi
    -- the load in progress is for a general register
    have hd := delayedLoad_spec (m := x.kernel.machine) hcall.2 0 0
    refine ⟨hm ▸ ⟨hends.zero, hends.load, hends.loadValue⟩, ?_, ?_, fun i hi => hregs i ?_⟩
    · rw [hregs PCReg (by decide)]
      exact hd.others PCReg (by decide) (by decide) (by decide)
    · rw [hregs NextPCReg (by decide)]
      exact hd.others NextPCReg (by decide) (by decide) (by decide)
    · exact Nat.ne_of_lt (Nat.lt_trans hi (by decide))

/-- An instruction: a `SYSCALL` puts its thread at the beginning of a handler. -/
theorem HandledInv.oneInstruction (h : HandledInv x)
    (hu : x.status x.kernel.currentThread = .user)
    (hok : step x.kernel .oneInstruction = .ok s) :
    HandledInv { x with kernel := s } ∧
    (s.mode x.kernel.currentThread = .kernel →
      HandledInv { x.goto s (.running (handler (s.registers 2))) with
        trap := Function.update x.trap x.kernel.currentThread s.registers }) := by
  obtain ⟨hr, hen⟩ := step_ok hok
  have hl := step_local h.regs.live.ok hok rfl
  obtain ⟨sp, -, hruns, hcall⟩ := h.regs.own hr hen.1 (by rw [hen.2.1]; rfl) hen.2.2
  have hsys := h.syscall hu hok
  rw [hu] at hcall
  have hg : ¬ (x.kernel.procs.halted = true ∨ ¬ x.kernel.Enabled .oneInstruction) := by
    simp [hr, hen]
  simp only [step, if_neg hg] at hok
  have hregs := regOk_oneInstruction ⟨hruns, hcall.2⟩ hok
  refine ⟨h.stay hr hl fun _ _ => ?_, fun hk => ?_⟩
  · rw [hu]
    exact ⟨hregs.zero, hregs.inRange⟩
  have hclean := (hsys hk).clean
  refine ⟨h.regs.inside hr hl (fun t ht r hc => ?_) fun _ _ _ => ?_, fun t ht => ?_⟩
  · show CallOk (Function.update x.status _ _ t) (Function.update x.trap _ _ t) r
    rw [Function.update_of_ne ht, Function.update_of_ne ht]
    exact hc
  · show CallOk (Function.update x.status _ _ _) (Function.update x.trap _ _ _) _
    rw [Function.update_self, Function.update_self]
    exact ⟨hclean, false, handler_adjusts _, resumed_self _⟩
  · refine hl.procs.forked h.regs.live.ok.procs ?_
    by_cases e : t = x.kernel.currentThread
    · rw [e, hen.2.2]; rfl
    · replace ht : Function.update x.status _ _ t ≠ .user := ht
      rw [Function.update_of_ne e] at ht
      exact h.forked t ht

/-- Another thread takes over as the root: it has been in no handler. -/
theorem HandledInv.resume {host : Proc.Host} (h : HandledInv x)
    (hok : step x.kernel (.resume host) = .ok s) : HandledInv { x with kernel := s } := by
  obtain ⟨hr, hen⟩ := step_ok hok
  rcases resume_cases hok with ⟨hl, hregs⟩ | ⟨procs, pid, par, thread, hp, hpc, ht, hto⟩
  · exact h.stay hr hl fun _ hc => by rw [hregs]; exact hc
  · have he : Enters x.kernel s := .of_takeOver (.one rfl hp) hto
    obtain ⟨hcur, hprocs, sp, hregs⟩ := takeOver_ok hto
    obtain ⟨hne, hsp⟩ := takeOver_old h.regs.live.ok hp hpc ht
    have hcreated : x.kernel.procs.pc thread = .created := by
      obtain ⟨b, hb, hb'⟩ := Option.bind_eq_some_iff.mp ht
      split at hb'
      · exact (Proc.reachable_inv h.regs.live.ok.procs).pc_created hpc hb hb'
      · cases hb'
    have huser : x.status thread = .user := by
      by_contra hn
      have := h.forked thread hn
      rw [hcreated] at this
      cases this
    refine ⟨h.regs.enters hr he (fun _ _ _ hc => hc) ?_ fun _ => by rw [hprocs]; exact hsp,
      fun t ht => he.procs.forked h.regs.live.ok.procs (h.forked t ht)⟩
    have hinit := regOk_init sp x.kernel.registers
    rw [hcur, huser, hregs]
    exact ⟨hinit.zero, hinit.inRange⟩

theorem allows_starts {a : Action} (h : status.allows a = true) (ha : a.starts = true) :
    status = .user := by
  cases a with
  | oneInstruction | execFunc =>
      cases status with
      | user => rfl
      | running | calling => cases h
  | _ => cases ha

/-- **A step of the kernel keeps the invariant.** -/
theorem HandledInv.kernelStep {a : Action} (h : HandledInv x) (hok : x.kernelStep a = .ok y) :
    HandledInv y := by
  unfold Handled.kernelStep at hok
  split at hok
  case isFalse => cases hok
  rename_i hallows
  split at hok
  · cases hok
  rename_i s hs
  obtain ⟨hr, hen⟩ := step_ok hs
  have hg : ¬ (x.kernel.procs.halted = true ∨ ¬ x.kernel.Enabled a) := by simp [hr, hen]
  cases a with
  | oneInstruction =>
      obtain ⟨h₁, h₂⟩ := h.oneInstruction (allows_starts hallows rfl) hs
      dsimp only at hok
      split at hok
      · rename_i hk; cases hok; exact h₂ hk
      · cases hok; exact h₁
  | run next =>
      cases hok
      obtain rfl := run_ok hs
      exact ⟨h.regs.run respects_callOk next, fun t ht => by
        rw [run_procs]; exact h.forked t ht⟩
  | execFunc =>
      cases hok
      obtain ⟨he, hcur, sp, hregs⟩ := execFunc_enters hs
      refine ⟨h.regs.enters hr he (fun _ _ _ hc => hc) ?_ fun hne => absurd hcur hne,
        fun t ht => he.procs.forked h.regs.live.ok.procs (h.forked t ht)⟩
      have hinit := regOk_init sp x.kernel.registers
      rw [hcur, allows_starts hallows rfl, hregs]
      exact ⟨hinit.zero, hinit.inRange⟩
  | resume host => cases hok; exact h.resume hs
  | interrupt =>
      cases hok
      have hl := step_local h.regs.live.ok hs rfl
      simp only [step, if_neg hg] at hs
      cases hs
      exact h.stay hr hl fun _ hc => hc.interrupt
  | sleep | wake =>
      cases hok
      have hl := step_local h.regs.live.ok hs rfl
      simp only [step, if_neg hg] at hs
      cases hs
      exact h.stay hr hl fun _ hc => hc
  | boot =>
      cases hok
      have hl := step_local h.regs.live.ok hs rfl
      simp only [step, if_neg hg] at hs
      obtain ⟨procs, -, rfl⟩ := proc_ok hs
      exact h.stay hr hl fun _ hc => hc
  | user2System | system2User | sysRet | exec | join | exit | halt =>
      cases hst : x.status x.kernel.currentThread <;> rw [hst] at hallows <;> cases hallows

/-- The steps that only the process table makes. -/
def Action.proc : Action → Bool
  | .exec _ | .join _ | .exit _ | .halt => true
  | _ => false

theorem proc_local {a : Action} {s s' : State} (h : Ok s) (ha : a.proc = true)
    (hok : step s a = .ok s') : Local s s' ∧ s'.registers = s.registers := by
  obtain ⟨hr, hen⟩ := step_ok hok
  have hg : ¬ (s.procs.halted = true ∨ ¬ s.Enabled a) := by simp [hr, hen]
  cases a with
  | exec | join | exit | halt =>
      refine ⟨step_local h hok rfl, ?_⟩
      simp only [step, if_neg hg] at hok
      obtain ⟨procs, -, rfl⟩ := proc_ok hok
      rfl
  | _ => cases ha

theorem action_proc {c : Call} {a : Action} (h : action c = some a) : a.proc = true := by
  cases c with
  | execUpdate | joinUpdate | exitUpdate => cases h; rfl
  | _ => cases h

/-- `currentThread` is in its handler, and `p` is what is left of it. -/
structure Operating (x : Handled) (p : Prog) : Prop where
  inv : HandledInv x
  inHandler : x.InHandler
  status : x.status x.kernel.currentThread = .running p

section
variable {p : Prog} {k : Prog}

theorem Operating.started (h : Operating x p) :
    (x.kernel.mode x.kernel.currentThread).started = true := by
  rw [h.inHandler.2.2.1]
  rfl

theorem Operating.running (h : Operating x p) : x.kernel.procs.halted = false := h.inHandler.1

/-- The handler is one of a process with its own page table. -/
theorem Operating.own (h : Operating x p) : ∃ pageTable, Runs pageTable x.kernel.machine := by
  obtain ⟨hr, hready, -, hpc⟩ := h.inHandler
  obtain ⟨sp, -, hruns, -⟩ := h.inv.regs.own hr hready h.started hpc
  exact ⟨_, hruns⟩

/-- It goes on with what is left behind the operation. -/
theorem Operating.goto (h : Operating x p) (hl : Local x.kernel s)
    (hcur : s.procs.halted = false → ∀ adjusted, p.Adjusts adjusted →
      Clean (x.trap x.kernel.currentThread) →
      Resumed adjusted (x.trap x.kernel.currentThread) x.kernel.registers →
      CallOk status (x.trap x.kernel.currentThread) s.registers) : HandledInv (x.goto s status) := by
  have hf : (x.kernel.procs.pc x.kernel.currentThread).forked = true := by
    rw [h.inHandler.2.2.2]
    rfl
  refine h.inv.goto h.running hl hf fun hr' hc => ?_
  rw [h.status] at hc
  obtain ⟨hclean, adjusted, hadj, hres⟩ := hc
  exact hcur hr' adjusted hadj hclean hres

/-- An operation on the registers alone. -/
theorem local_registers (r : Nat → Word) : Local x.kernel { x.kernel with registers := r } :=
  ⟨.refl, rfl, rfl, rfl, rfl, .inl rfl⟩

/-- The handler returns to the process. -/
theorem Operating.ret (h : Operating x .ret) (hok : x.operate x.kernel .ret = .ok y) : HandledInv y := by
  cases hok
  refine h.goto ⟨.refl, rfl, rfl, rfl, rfl, .inr ⟨h.started, .user, rfl, rfl⟩⟩ ?_
  intro _ adjusted _ hc hres
  have hload := hres.same (i := LoadReg) (by decide) (by decide) (by decide) (by decide) (by decide)
  refine ⟨(hres.same (by decide) (by decide) (by decide) (by decide) (by decide)).trans hc.1, ?_⟩
  show (x.kernel.registers LoadReg).toNat < NumGPRegs
  rw [hload, hc.2.1]
  exact noLoad

theorem Operating.writeRegister {num : Nat} {value : Word} (h : Operating x (.writeRegister num value k))
    (hok : x.operate x.kernel (.writeRegister num value k) = .ok y) : HandledInv y := by
  cases hok
  refine h.goto (local_registers _) ?_
  rintro _ adjusted ⟨rfl, hadj⟩ hc hres
  exact ⟨hc, adjusted, hadj, hres.write value⟩

theorem Operating.adjustPCRegs (h : Operating x (.adjustPCRegs k))
    (hok : x.operate x.kernel (.adjustPCRegs k) = .ok y) : HandledInv y := by
  cases hok
  refine h.goto (local_registers _) ?_
  rintro _ adjusted ⟨rfl, hadj⟩ hc hres
  exact ⟨hc, true, hadj, Resumed.adjust (m := x.kernel.machine) hres⟩

/-- Bytes are copied out of user memory, or the machine has halted. -/
theorem Operating.user2System {v : Word} {l : Nat} {k : List Byte → Prog}
    (h : Operating x (.user2System v l k))
    (hok : x.operate x.kernel (.user2System v l k) = .ok y) : HandledInv y := by
  obtain ⟨pageTable, hruns⟩ := h.own
  simp only [Handled.operate] at hok
  split at hok
  · cases hok
  rename_i s hs
  have hl := step_local h.inv.regs.live.ok hs rfl
  obtain ⟨-, hen⟩ := step_ok hs
  have hg : ¬ (x.kernel.procs.halted = true ∨ ¬ x.kernel.Enabled (.user2System v l)) := by
    simp [h.running, hen]
  simp only [step, if_neg hg] at hs
  have hregs := copies_registers (copies_user2System hruns v l) hs
  -- the bytes are there, or an exception of `ReadMem` has halted the machine
  split at hok <;> cases hok
  · refine h.goto hl fun hr' adjusted hadj hc hres => ?_
    rw [hregs hr']
    exact ⟨hc, adjusted, hadj _, hres⟩
  · exact h.inv.stay h.running hl fun hr' hc => by rw [hregs hr']; exact hc

theorem Operating.system2User {v : Word} {l : Int} {b : List Byte} (h : Operating x (.system2User v l b k))
    (hok : x.operate x.kernel (.system2User v l b k) = .ok y) : HandledInv y := by
  obtain ⟨pageTable, hruns⟩ := h.own
  simp only [Handled.operate] at hok
  split at hok
  · cases hok
  rename_i s hs
  have hl := step_local h.inv.regs.live.ok hs rfl
  obtain ⟨-, hen⟩ := step_ok hs
  have hg : ¬ (x.kernel.procs.halted = true ∨
      ¬ x.kernel.Enabled (.system2User v l fun i => b.getD i 0)) :=
    not_or.mpr ⟨by simp [h.running], not_not.mpr hen⟩
  simp only [step, if_neg hg] at hs
  have hregs := copies_registers (copies_system2User hruns v l _) hs
  cases hok
  refine h.goto hl fun hr' adjusted hadj hc hres => ?_
  rw [hregs hr']
  exact ⟨hc, adjusted, hadj, hres⟩

/-- An operation of the kernel begins, in the process table if it is one of that. -/
theorem Operating.call {c : Call} {k : Answer → Prog} (h : Operating x (.call c k))
    (hok : x.operate x.kernel (.call c k) = .ok y) : HandledInv y := by
  simp only [Handled.operate] at hok
  split at hok
  · cases hok
    exact h.goto (local_registers _) fun _ adjusted hadj hc hres => ⟨hc, adjusted, hadj, hres⟩
  rename_i a ha
  split at hok
  · cases hok
  rename_i s hs
  cases hok
  obtain ⟨hl, hregs⟩ := proc_local h.inv.regs.live.ok (action_proc ha) hs
  refine h.goto hl fun _ adjusted hadj hc hres => ?_
  rw [hregs]
  exact ⟨hc, adjusted, hadj, hres⟩

theorem Operating.halt (h : Operating x .halt) (hok : x.operate x.kernel .halt = .ok y) :
    HandledInv y := by
  simp only [Handled.operate] at hok
  split at hok
  · cases hok
  rename_i s hs
  cases hok
  obtain ⟨hl, hregs⟩ := proc_local h.inv.regs.live.ok rfl hs
  exact h.inv.stay h.running hl fun _ hc => by rw [hregs]; exact hc

end

/-- **The next operation of a handler keeps the invariant.** -/
theorem Operating.step {p : Prog} (h : Operating x p) (hok : x.operate x.kernel p = .ok y) :
    HandledInv y := by
  cases p with
  | ret => exact h.ret hok
  | readRegister num k =>
      cases hok
      exact h.goto (local_registers _) fun _ adjusted hadj hc hres => ⟨hc, adjusted, hadj _, hres⟩
  | writeRegister num value k => exact h.writeRegister hok
  | adjustPCRegs k => exact h.adjustPCRegs hok
  | user2System v l k => exact h.user2System hok
  | system2User v l b k => exact h.system2User hok
  | call c k => exact h.call hok
  | jump l =>
      cases hok
      refine h.goto (local_registers _) ?_
      rintro _ adjusted rfl hc hres
      exact ⟨hc, false, code_adjusts l, hres⟩
  | halt => exact h.halt hok
  | abort => cases hok

/-- **Every step keeps the invariant.** -/
theorem HandledInv.step {a : HandledAction} (h : HandledInv x) (hok : handledStep x a = .ok y) :
    HandledInv y := by
  cases a with
  | kernel a => exact h.kernelStep hok
  | go =>
      simp only [handledStep, Handled.go] at hok
      split at hok
      · rename_i p hp
        split at hok
        · rename_i hin; exact Operating.step ⟨h, hin, hp⟩ hok
        · cases hok
      · cases hok
  | answer r =>
      simp only [handledStep, Handled.answer] at hok
      split at hok
      · rename_i c k hp
        split at hok
        · rename_i hin
          cases hok
          obtain ⟨⟨hr, -, -, hpc⟩, -⟩ := hin
          refine h.goto hr ⟨.refl, rfl, rfl, rfl, rfl, .inl rfl⟩ (by rw [hpc]; rfl) fun _ hc => ?_
          rw [hp] at hc
          obtain ⟨hclean, adjusted, hadj, hres⟩ := hc
          exact ⟨hclean, adjusted, hadj r, hres⟩
        · cases hok
      · cases hok

theorem handled_inv {heap : Nat → BitVec 32} {regs : Tid → Nat → Word}
    (h : Steps handledStep always (handledInit heap regs) x) : HandledInv x := by
  refine h.inv (I := HandledInv) ⟨init_regInv heap regs, fun _ ht => absurd rfl ht⟩ ?_
  intro z a z' hz _ hok
  exact hz.step hok

/-! ### The end of a handler -/

theorem goto_status {t : Tid} (ht : x.status t ≠ .user) (hs : status ≠ .user) :
    (x.goto s status).status t ≠ .user := by
  show Function.update x.status _ status t ≠ .user
  by_cases e : t = x.kernel.currentThread
  · rw [e, Function.update_self]; exact hs
  · rw [Function.update_of_ne e]; exact ht

/-- The last operation of a handler is the return from it. -/
def Handled.Leaves (x : Handled) (t : Tid) (y : Handled) : Prop :=
  t = x.kernel.currentThread ∧ x.status t = .running .ret ∧ x.InHandler ∧
    y = x.goto (x.kernel.setMode t .user) .user

theorem operate_status {t : Tid} {p : Prog} (hin : x.InHandler)
    (hp : x.status x.kernel.currentThread = .running p) (hok : x.operate x.kernel p = .ok y)
    (ht : x.status t ≠ .user) :
    y.trap t = x.trap t ∧ (y.status t ≠ .user ∨ x.Leaves t y) := by
  cases p with
  | ret =>
      cases hok
      refine ⟨rfl, ?_⟩
      by_cases e : t = x.kernel.currentThread
      · subst e
        exact .inr ⟨rfl, hp, hin, rfl⟩
      · refine .inl ?_
        show Function.update x.status _ .user t ≠ .user
        rw [Function.update_of_ne e]
        exact ht
  | readRegister | writeRegister | adjustPCRegs | jump =>
      cases hok
      exact ⟨rfl, .inl (goto_status ht (by simp))⟩
  | user2System =>
      simp only [Handled.operate] at hok
      split at hok
      · cases hok
      split at hok
      · cases hok; exact ⟨rfl, .inl (goto_status ht (by simp))⟩
      · cases hok; exact ⟨rfl, .inl ht⟩
  | system2User =>
      simp only [Handled.operate] at hok
      split at hok
      · cases hok
      · cases hok; exact ⟨rfl, .inl (goto_status ht (by simp))⟩
  | call =>
      simp only [Handled.operate] at hok
      split at hok
      · cases hok; exact ⟨rfl, .inl (goto_status ht (by simp))⟩
      split at hok
      · cases hok
      · cases hok; exact ⟨rfl, .inl (goto_status ht (by simp))⟩
  | halt =>
      simp only [Handled.operate] at hok
      split at hok
      · cases hok
      · cases hok; exact ⟨rfl, .inl ht⟩
  | abort => cases hok

/-- A thread in a handler stays there, with the registers it was trapped with, up to the end. -/
theorem handledStep_status {t : Tid} {a : HandledAction} (hok : handledStep x a = .ok y)
    (ht : x.status t ≠ .user) :
    y.trap t = x.trap t ∧ (y.status t ≠ .user ∨ x.Leaves t y) := by
  cases a with
  | kernel a =>
      simp only [handledStep, Handled.kernelStep] at hok
      split at hok
      case isFalse => cases hok
      rename_i hallows
      split at hok
      · cases hok
      split at hok
      · have hne : t ≠ x.kernel.currentThread := by
          rintro rfl
          exact ht (allows_starts hallows rfl)
        split at hok
        · cases hok
          refine ⟨Function.update_of_ne hne _ _, .inl ?_⟩
          show Function.update x.status _ _ t ≠ .user
          rw [Function.update_of_ne hne]
          exact ht
        · cases hok; exact ⟨rfl, .inl ht⟩
      · cases hok; exact ⟨rfl, .inl ht⟩
  | go =>
      simp only [handledStep, Handled.go] at hok
      split at hok
      · rename_i p hp
        split at hok
        · rename_i hin; exact operate_status hin hp hok ht
        · cases hok
      · cases hok
  | answer r =>
      simp only [handledStep, Handled.answer] at hok
      split at hok
      · split at hok
        · cases hok
          exact ⟨rfl, .inl (goto_status ht (by simp))⟩
        · cases hok
      · cases hok

/-- A `SYSCALL` has finished the load in progress, and done nothing else to the registers. -/
theorem syscall_trap (h : HandledInv x) (hok : handledStep x (.kernel .oneInstruction) = .ok y)
    (hcall : y.status x.kernel.currentThread ≠ .user) :
    Delivered x.kernel.machine (y.trap x.kernel.currentThread) := by
  simp only [handledStep, Handled.kernelStep] at hok
  split at hok
  case isFalse => cases hok
  rename_i hallows
  have hu := allows_starts hallows rfl
  split at hok
  · cases hok
  rename_i s hs
  split at hok
  · rename_i hk
    cases hok
    show Delivered _ (Function.update x.trap _ s.registers _)
    rw [Function.update_self]
    exact h.syscall hu hs hk
  · cases hok
    exact absurd hu hcall

/-- **Every system call comes back at the next instruction.**  In every run: a thread that is
trapped into a handler, is somewhere in it up to `x₂`, and is back in user code with the next step,
has the CPU then, goes on at the instruction behind the `SYSCALL`, and finds every general register
but `r2` as the trap has left it. -/
theorem syscall_resumes {heap : Nat → BitVec 32} {regs : Tid → Nat → Word} {x₀ x₁ x₂ : Handled}
    {a : HandledAction} (h : Steps handledStep always (handledInit heap regs) x₀)
    (htrap : handledStep x₀ (.kernel .oneInstruction) = .ok x₁)
    (hcall : x₁.status x₀.kernel.currentThread ≠ .user)
    (hrun : Steps handledStep (fun z _ => z.status x₀.kernel.currentThread ≠ .user) x₁ x₂)
    (hin : x₂.status x₀.kernel.currentThread ≠ .user)
    (hok : handledStep x₂ a = .ok y) (hret : y.status x₀.kernel.currentThread = .user) :
    y.kernel.currentThread = x₀.kernel.currentThread ∧
    y.kernel.mode x₀.kernel.currentThread = .user ∧
    y.kernel.registers PrevPCReg = x₀.kernel.registers PCReg ∧
    y.kernel.registers PCReg = x₀.kernel.registers NextPCReg ∧
    y.kernel.registers NextPCReg = x₀.kernel.registers NextPCReg + 4 ∧
    ∀ i, i < NumGPRegs → i ≠ 2 →
      y.kernel.registers i = (x₀.kernel.machine.delayedLoad 0 0).registers i := by
  have h₀ := handled_inv h
  have h₁ := h₀.step htrap
  have hold := syscall_trap h₀ htrap hcall
  generalize x₀.kernel.currentThread = t at *
  -- up to the return nobody touches what is noted of the trap
  obtain ⟨h₂, hnoted⟩ := hrun.inv (I := fun z => HandledInv z ∧ z.trap t = x₁.trap t) ⟨h₁, rfl⟩
    fun z a z' hz hin hok => ⟨hz.1.step hok, (handledStep_status hok hin).1.trans hz.2⟩
  obtain ⟨-, hst | ⟨rfl, hp, ⟨hr, hready, hmode, hpc⟩, rfl⟩⟩ := handledStep_status hok hin
  · exact absurd hret hst
  obtain ⟨sp, -, -, hc⟩ := h₂.regs.own hr hready (by rw [hmode]; rfl) hpc
  rw [hp] at hc
  obtain ⟨-, adjusted, rfl, v, hres⟩ := hc
  have hregs : ∀ i, i < NumTotalRegs →
      x₂.kernel.registers i = resumed true (x₁.trap x₂.kernel.currentThread) v i := by
    intro i hi
    rw [← hnoted]
    exact hres i hi
  refine ⟨rfl, Function.update_self .., ?_, ?_, ?_, fun i hi h₂ => ?_⟩
  · exact (hregs PrevPCReg (by decide)).trans hold.pc
  · exact (hregs PCReg (by decide)).trans hold.nextPC
  · exact (hregs NextPCReg (by decide)).trans (congrArg (· + 4) hold.nextPC)
  · have hne : i ≠ PrevPCReg ∧ i ≠ PCReg ∧ i ≠ NextPCReg := by
      unfold NumGPRegs at hi
      unfold PrevPCReg PCReg NextPCReg
      omega
    refine (hregs i (Nat.lt_trans hi (by decide))).trans (Eq.trans ?_ (hold.general i hi))
    simp [resumed, h₂, hne]

end

/-- `addiu $2, $0, 14; syscall`. -/
def printsChar : Executable := programOf [0x0e, 0x00, 0x02, 0x24, 0x0c, 0x00, 0x00, 0x00]

/-- `SyscallPrintChar` up to its return, where the thread sleeps on the console. -/
def printing : List HandledAction :=
  [.go, .go, .kernel .sleep, .kernel (.wake 1), .kernel (.run 1), .answer ⟨1, []⟩, .go, .go]

/-- A program prints a character, and goes on at address 8. -/
theorem syscall_resumes_printChar : ∃ x₀ x₁ x₂ y,
    Steps handledStep always (handledInit (fun _ => 0) fun _ _ => 7) x₀ ∧
    handledStep x₀ (.kernel .oneInstruction) = .ok x₁ ∧ x₀.kernel.registers PCReg = 4 ∧
    handledStep x₂ .go = .ok y ∧ y.kernel.mode x₀.kernel.currentThread = .user ∧
    y.kernel.registers PCReg = x₀.kernel.registers NextPCReg ∧
    y.kernel.registers NextPCReg = x₀.kernel.registers NextPCReg + 4 := by
  obtain ⟨x₀, hx₀, hp⟩ := (Option.any_eq_true ..).mp (show (run handledStep always
    (handledInit (fun _ => 0) fun _ _ => 7)
      ((boots printsChar ++ [Action.oneInstruction]).map .kernel)).any (fun x₀ =>
      x₀.kernel.currentThread = 1 ∧ x₀.kernel.registers PCReg = 4 ∧
      (handledStep x₀ (.kernel .oneInstruction)).toOption.any (fun x₁ => x₁.status 1 ≠ .user ∧
        (run handledStep (fun z _ => z.status 1 ≠ .user) x₁ printing).any fun x₂ =>
          x₂.status 1 ≠ .user ∧ (handledStep x₂ .go).toOption.any fun y => y.status 1 = .user))
        = true by decide +kernel)
  obtain ⟨hcur, hpc, hp⟩ := of_decide_eq_true hp
  obtain ⟨x₁, hx₁, hp⟩ := (Option.any_eq_true ..).mp hp
  obtain ⟨hcall, hp⟩ := of_decide_eq_true hp
  obtain ⟨x₂, hx₂, hp⟩ := (Option.any_eq_true ..).mp hp
  obtain ⟨hin, hp⟩ := of_decide_eq_true hp
  obtain ⟨y, hy, hp⟩ := (Option.any_eq_true ..).mp hp
  have hret := of_decide_eq_true hp
  rw [← hcur] at hcall hin hret hx₂
  obtain ⟨-, hmode, -, h₁, h₂, -⟩ := syscall_resumes (Steps.of_run hx₀) (toOption_some hx₁) hcall
    (Steps.of_run hx₂) hin (toOption_some hy) hret
  exact ⟨x₀, x₁, x₂, y, Steps.of_run hx₀, toOption_some hx₁, hpc, toOption_some hy, hmode, h₁, h₂⟩

end Nachos.Kernel
