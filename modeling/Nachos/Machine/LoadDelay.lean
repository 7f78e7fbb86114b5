import Mathlib.Tactic.SplitIfs
import Nachos.Machine.Mips

/-!
# Machine — LoadDelay

A load lands at the end of the instruction behind it (`Machine::DelayedLoad`, machine/mipssim.cc),
or before that instruction, when an interrupt (`Interrupt::CheckIfDue`, machine/interrupt.cc) or an
exception (`Machine::RaiseException`, machine/machine.cc) finishes what is in progress.

`Behind l v m s` relates a machine `m` with a load of `v` to the register `l` in progress to the
machine `s` on which it has landed.  An instruction that neither reads nor writes the register `l`
keeps them together (`Apart.follows`), and so a program that never uses a register in the
instruction behind its load runs the same wherever the interrupts fall (`interrupts_unnoticed`).
-/

namespace Nachos

namespace Exec

/-- Two routines end the same way: with values that meet `Q` on machines that meet `R`, or by the
same exception with the same machine, or by an abort. -/
def Follows {α β : Type} (R : Machine → Machine → Prop) (Q : α → β → Prop) :
    Result α → Result β → Prop
  | .ok a m, .ok b s => Q a b ∧ R m s
  | .raised which m, .raised which' s => which' = which ∧ s = m
  | .aborted, .aborted => True
  | _, _ => False

section
variable {α β γ δ : Type} {R R' : Machine → Machine → Prop} {Q : α → β → Prop} {P : γ → δ → Prop}
  {m s : Machine}

theorem follows_bind {x : Exec α} {y : Exec β} {f : α → Exec γ} {g : β → Exec δ}
    (h : Follows R Q (x m) (y s))
    (hf : ∀ a b m' s', x m = .ok a m' → Q a b → R m' s' → Follows R' P (f a m') (g b s')) :
    Follows R' P ((x >>= f) m) ((y >>= g) s) := by
  show Follows R' P (Exec.bind x f m) (Exec.bind y g s)
  unfold Exec.bind
  cases ex : x m with
  | ok a m' =>
      cases ey : y s with
      | ok b s' =>
          rw [ex, ey] at h
          exact hf a b m' s' ex h.1 h.2
      | raised | aborted =>
          rw [ex, ey] at h
          exact h.elim
  | raised =>
      cases ey : y s with
      | raised =>
          rw [ex, ey] at h
          exact h
      | ok | aborted =>
          rw [ex, ey] at h
          exact h.elim
  | aborted =>
      cases ey : y s with
      | aborted => trivial
      | ok | raised =>
          rw [ex, ey] at h
          exact h.elim

theorem follows_get {f : Machine → Exec α} {g : Machine → Exec β} (h : Follows R Q (f m m) (g s s)) :
    Follows R Q ((do let m ← Exec.get; f m : Exec α) m) ((do let s ← Exec.get; g s : Exec β) s) := h

theorem follows_if {c : Prop} [Decidable c] {x x' : Result α} {y y' : Result β} (h : Follows R Q x y)
    (h' : Follows R Q x' y') : Follows R Q (if c then x else x') (if c then y else y') := by
  split
  · exact h
  · exact h'

theorem follows_ite {c : Prop} [Decidable c] {x x' : Exec α} {y y' : Exec β}
    (h : Follows R Q (x m) (y s)) (h' : Follows R Q (x' m) (y' s)) :
    Follows R Q ((if c then x else x') m) ((if c then y else y') s) := by
  split
  · exact h
  · exact h'

end

end Exec

namespace Machine
open Exec

/-- The registers when the load of `v` to the register `l` has landed. -/
def landed (l : Nat) (v : Word) (r : Nat → Word) : Nat → Word := fun i =>
  if i = LoadReg ∨ i = LoadValueReg then 0 else if i = l ∧ i ≠ 0 then v else r i

/-- A load of `v` to the register `l` is in progress on `m`, and has landed on `s`. -/
structure Behind (l : Nat) (v : Word) (m s : Machine) : Prop where
  load : (m.registers LoadReg).toNat = l
  value : m.registers LoadValueReg = v
  inRange : l < NumGPRegs
  eq : s = { m with registers := landed l v m.registers }

section
variable {l : Nat} {v : Word} {m s : Machine}

theorem Behind.read (h : Behind l v m s) {i : Nat} (hi : i < LoadReg ∨ LoadValueReg < i)
    (hl : l ≠ 0 → i ≠ l) : s.registers i = m.registers i := by
  rw [h.eq]
  show (if _ then _ else _) = _
  rw [if_neg (by unfold LoadReg LoadValueReg at *; omega), if_neg (by rintro ⟨rfl, h0⟩; exact hl h0 rfl)]

theorem Behind.pc (h : Behind l v m s) : s.registers PCReg = m.registers PCReg :=
  h.read (.inl (by decide)) fun _ => by
    have hlt := h.inRange
    unfold NumGPRegs at hlt
    unfold PCReg
    omega

theorem Behind.set (h : Behind l v m s) {num : Nat} (value : Word) (hn : num < LoadReg ∨ LoadValueReg < num)
    (hl : l ≠ 0 → num ≠ l) : Behind l v (m.setRegister num value) (s.setRegister num value) := by
  refine ⟨?_, ?_, h.inRange, ?_⟩
  · rw [← h.load]
    exact congrArg BitVec.toNat (Function.update_of_ne (by unfold LoadReg LoadValueReg at *; omega) _ _)
  · rw [← h.value]
    exact Function.update_of_ne (by unfold LoadReg LoadValueReg at *; omega) _ _
  · rw [h.eq]
    simp only [setRegister, Machine.mk.injEq, and_true]
    funext i
    simp only [landed, Function.update_apply]
    unfold LoadReg LoadValueReg at *
    split_ifs <;> first | rfl | omega

theorem delayedLoad_apply (m : Machine) (nextReg nextValue : Word) (i : Nat) :
    (m.delayedLoad nextReg nextValue).registers i =
      if i = 0 then 0 else if i = LoadValueReg then nextValue else if i = LoadReg then nextReg
      else if i = (m.registers LoadReg).toNat then m.registers LoadValueReg else m.registers i := by
  simp only [delayedLoad, setRegister, Function.update_apply]

/-- The next delayed load leaves no difference. -/
theorem Behind.delayedLoad (h : Behind l v m s) (nextReg nextValue : Word) :
    s.delayedLoad nextReg nextValue = m.delayedLoad nextReg nextValue := by
  have hload := h.load
  have hvalue := h.value
  have hlt := h.inRange
  rw [h.eq]
  have hregs : ∀ i, (({ m with registers := landed l v m.registers } : Machine).delayedLoad
      nextReg nextValue).registers i = (m.delayedLoad nextReg nextValue).registers i := by
    intro i
    rw [delayedLoad_apply, delayedLoad_apply, hload, hvalue]
    simp only [landed]
    unfold NumGPRegs LoadReg LoadValueReg at *
    split_ifs <;> first | rfl | omega | simp_all
  exact congrArg (fun r => { m with registers := r }) (funext hregs)

theorem follows_raise {α : Type} {Q : α → α → Prop} (h : Behind l v m s) (which : ExceptionType)
    (addr : Word) :
    Follows (Behind l v) Q (raiseException which addr m) (raiseException which addr s) := by
  have hlt := h.inRange
  unfold NumGPRegs at hlt
  exact ⟨rfl, (h.set addr (.inr (by decide)) fun _ => by unfold BadVAddrReg; omega).delayedLoad 0 0⟩

theorem follows_translate (h : Behind l v m s) (addr : Word) (size : Nat) (writing : Bool) :
    Follows (Behind l v) (· = ·) (translate addr size writing m) (translate addr size writing s) := by
  obtain ⟨hl, hv, hlt, rfl⟩ := h
  obtain ⟨registers, mem, pageTable, pageTableSize⟩ := m
  have hs : Behind l v ⟨registers, mem, pageTable, pageTableSize⟩
      ⟨landed l v registers, mem, pageTable, pageTableSize⟩ := ⟨hl, hv, hlt, rfl⟩
  refine follows_if ⟨rfl, hs⟩ ?_
  cases pageTable with
  | none => trivial
  | some pageTable =>
      refine follows_if ⟨rfl, hs⟩ ?_
      cases pageTable[addr.toNat / PageSize]? with
      | none => trivial
      | some entry =>
          refine follows_if ⟨rfl, hs⟩ (follows_if ⟨rfl, hs⟩ (follows_if ⟨rfl, hs⟩ ?_))
          exact follows_if ⟨rfl, hl, hv, hlt, rfl⟩ trivial

theorem follows_readMem (h : Behind l v m s) (addr : Word) (size : Nat) :
    Follows (Behind l v) (· = ·) (readMem addr size m) (readMem addr size s) := by
  refine follows_bind (follows_translate h addr size false) fun a b m' s' _ hab h' => ?_
  subst hab
  cases a with
  | error which => exact follows_raise h' which addr
  | ok physicalAddress =>
      have hmem : s'.mainMemory = m'.mainMemory := by rw [h'.eq]
      refine follows_get ?_
      rw [hmem]
      split
      · exact ⟨rfl, h'⟩
      · exact ⟨rfl, h'⟩
      · exact ⟨rfl, h'⟩
      · trivial

theorem follows_writeMem (h : Behind l v m s) (addr : Word) (size : Nat) (value : Word) :
    Follows (Behind l v) (· = ·) (writeMem addr size value m) (writeMem addr size value s) := by
  refine follows_bind (follows_translate h addr size true) fun a b m' s' _ hab h' => ?_
  subst hab
  cases a with
  | error which => exact follows_raise h' which addr
  | ok physicalAddress =>
      refine follows_ite ?_ trivial
      obtain ⟨hl, hv, hlt, rfl⟩ := h'
      exact ⟨rfl, hl, hv, hlt, rfl⟩

end

/-! ### The switch -/

/-- The general registers that an instruction reads, or writes before its end. -/
def Instruction.touched (instr : Instruction) : List Nat :=
  match instr.opCode with
  | .OP_ADD | .OP_ADDU | .OP_AND | .OP_NOR | .OP_SLLV | .OP_SLT | .OP_SLTU | .OP_SRAV | .OP_SRLV
  | .OP_SUB | .OP_SUBU | .OP_XOR => [instr.rs, instr.rt, instr.rd]
  | .OP_ADDI | .OP_ADDIU | .OP_ANDI | .OP_ORI | .OP_SLTI | .OP_SLTIU | .OP_XORI | .OP_BEQ | .OP_BNE
  | .OP_DIV | .OP_DIVU | .OP_MULT | .OP_MULTU | .OP_SB | .OP_SH | .OP_SW | .OP_SWL | .OP_SWR =>
      [instr.rs, instr.rt]
  | .OP_BGEZ | .OP_BGTZ | .OP_BLEZ | .OP_BLTZ | .OP_JR | .OP_LB | .OP_LBU | .OP_LH | .OP_LHU | .OP_LW
  | .OP_LWL | .OP_LWR | .OP_MTHI | .OP_MTLO => [instr.rs]
  | .OP_OR | .OP_JALR => [instr.rs, instr.rd]
  | .OP_BGEZAL | .OP_BLTZAL => [instr.rs, R31]
  | .OP_SLL | .OP_SRA | .OP_SRL => [instr.rt, instr.rd]
  | .OP_LUI => [instr.rt]
  | .OP_MFHI | .OP_MFLO => [instr.rd]
  | .OP_JAL => [R31]
  | .OP_J | .OP_SYSCALL | .OP_RES | .OP_UNIMP | .OP_RFE | .SPECIAL | .BCOND => []

/-- What the `switch` leaves is the same, but for the value of a load to register 0. -/
structure Next.Agrees (a b : Next) : Prop where
  nextLoadReg : b.nextLoadReg = a.nextLoadReg
  nextLoadValue : a.nextLoadReg ≠ 0 → b.nextLoadValue = a.nextLoadValue
  pcAfter : b.pcAfter = a.pcAfter
  inRange : a.nextLoadReg.toNat < NumGPRegs

theorem Next.Agrees.refl {a : Next} (h : a.nextLoadReg.toNat < NumGPRegs) : a.Agrees a :=
  ⟨rfl, fun _ => rfl, rfl, h⟩

section
variable {l : Nat} {v : Word} {m s : Machine}

theorem follows_assign (h : Behind l v m s) {num : Nat} (hn : num < LoadReg) (hl : l ≠ 0 → num ≠ l)
    (value pcAfter : Word) :
    Follows (Behind l v) Next.Agrees (assign num value pcAfter m) (assign num value pcAfter s) :=
  ⟨.refl noLoad, h.set value (.inl hn) hl⟩

theorem follows_branch (h : Behind l v m s) (c : Prop) [Decidable c] (target pcAfter : Word) :
    Follows (Behind l v) Next.Agrees (branch c target pcAfter m) (branch c target pcAfter s) :=
  ⟨.refl noLoad, h⟩

theorem follows_assignHiLo (h : Behind l v m s) (hi lo pcAfter : Word) :
    Follows (Behind l v) Next.Agrees (assignHiLo hi lo pcAfter m) (assignHiLo hi lo pcAfter s) := by
  have hlt := h.inRange
  unfold NumGPRegs at hlt
  exact follows_assign (h.set lo (.inl (by decide : LoReg < LoadReg)) fun _ => by unfold LoReg; omega)
    (by decide) (fun _ => by unfold HiReg; omega) hi pcAfter

/-- A link register is written before `rs` is read. -/
theorem follows_link (h : Behind l v m s) {num rs : Nat} {value : Word} {f : Word → Exec Next}
    (hn : num < LoadReg) (hl : l ≠ 0 → num ≠ l) (hrs : rs < NumGPRegs) (hl' : l ≠ 0 → rs ≠ l)
    (hf : ∀ m' s', Behind l v m' s' → ∀ value, Follows (Behind l v) Next.Agrees (f value m') (f value s')) :
    Follows (Behind l v) Next.Agrees
      ((do writeRegister num value; let rs ← readRegister rs; f rs : Exec Next) m)
      ((do writeRegister num value; let rs ← readRegister rs; f rs : Exec Next) s) := by
  have h' := h.set value (.inl hn) hl
  have e : (s.setRegister num value).registers rs = (m.setRegister num value).registers rs :=
    h'.read (.inl (Nat.lt_trans hrs (by decide))) hl'
  show Follows _ _ _ (f ((s.setRegister num value).registers rs) (s.setRegister num value))
  rw [e]
  exact hf _ _ h' _

theorem follows_divide (h : Behind l v m s) (rs rt pcAfter : Word) :
    Follows (Behind l v) Next.Agrees (divide rs rt pcAfter m) (divide rs rt pcAfter s) :=
  follows_ite (follows_assignHiLo h _ _ _) (follows_ite trivial (follows_assignHiLo h _ _ _))

theorem follows_store (h : Behind l v m s) (size : Nat) (addr value pcAfter : Word) :
    Follows (Behind l v) Next.Agrees (store size addr value pcAfter m)
      (store size addr value pcAfter s) :=
  follows_bind (follows_writeMem h addr size value) fun _ _ _ _ _ _ h' =>
    ⟨.refl noLoad, h'⟩

/-- A load writes its register later. -/
theorem follows_load {size : Nat} {addr pcAfter : Word} {num : Nat} (hn : num < NumGPRegs)
    (h : Behind l v m s) (f : Word → Word) :
    Follows (Behind l v) Next.Agrees
      ((do let value ← readMem addr size; pure ⟨BitVec.ofNat 32 num, f value, pcAfter⟩ : Exec Next) m)
      ((do let value ← readMem addr size; pure ⟨BitVec.ofNat 32 num, f value, pcAfter⟩ : Exec Next) s) := by
  refine follows_bind (follows_readMem h addr size) fun a b m' s' _ hab h' => ?_
  subst hab
  refine ⟨.refl ?_, h'⟩
  show (BitVec.ofNat 32 num).toNat < NumGPRegs
  rw [BitVec.toNat_ofNat]
  exact Nat.lt_of_le_of_lt (Nat.mod_le _ _) hn

/-- `LWL` and `LWR` look at the load in progress to their register. -/
theorem pendingLoad_eq (h : Behind l v m s) {instr : Instruction} (hrt : instr.rt < NumGPRegs)
    (h0 : instr.rt ≠ 0) : pendingLoad instr s = pendingLoad instr m := by
  have hlt := h.inRange
  have hload : s.registers LoadReg = 0 := by
    rw [h.eq]
    rfl
  have hm : m.registers LoadReg = BitVec.ofNat 32 instr.rt ↔ l = instr.rt := by
    rw [← h.load]
    unfold NumGPRegs at *
    constructor
    · intro e
      rw [e, BitVec.toNat_ofNat]
      omega
    · intro e
      rw [← e, BitVec.ofNat_toNat, BitVec.setWidth_eq]
  have hs : (0 : Word) ≠ BitVec.ofNat 32 instr.rt := fun e => h0 (by
    have e' := congrArg BitVec.toNat e
    rw [BitVec.toNat_ofNat] at e'
    unfold NumGPRegs at hrt
    change 0 = _ at e'
    omega)
  rw [pendingLoad, pendingLoad, hload, if_neg hs]
  by_cases hl : l = instr.rt
  · rw [if_pos (hm.mpr hl), h.value, h.eq]
    show (if _ then _ else _) = _
    rw [if_neg (by unfold LoadReg LoadValueReg NumGPRegs at *; omega), if_pos ⟨hl.symm, h0⟩]
  · rw [if_neg (mt hm.mp hl)]
    exact h.read (.inl (by unfold LoadReg NumGPRegs at *; omega)) fun _ => Ne.symm hl

/-- What `OP_LWL` loads at byte `n` of the word `value`, over the register's `next`. -/
def leftPart (n : Nat) (value next : Word) : Word :=
  match n with
  | 0 => value
  | 1 => (next &&& 0xff) ||| (value <<< 8)
  | 2 => (next &&& 0xffff) ||| (value <<< 16)
  | _ => (next &&& 0xffffff) ||| (value <<< 24)

/-- The same of `OP_LWR`. -/
def rightPart (n : Nat) (value next : Word) : Word :=
  match n with
  | 0 => (next &&& 0xffffff00) ||| (value.sshiftRight 24 &&& 0xff)
  | 1 => (next &&& 0xffff0000) ||| (value.sshiftRight 16 &&& 0xffff)
  | 2 => (next &&& 0xff000000) ||| (value.sshiftRight 8 &&& 0xffffff)
  | _ => value

theorem follows_loadPart {addr pcAfter : Word} {instr : Instruction} (hrt : instr.rt < NumGPRegs)
    (h : Behind l v m s) (f : Word → Word → Word) :
    Follows (Behind l v) Next.Agrees
      ((do
        let value ← readMem addr 4
        let m ← Exec.get
        pure ⟨BitVec.ofNat 32 instr.rt, f value (pendingLoad instr m), pcAfter⟩ : Exec Next) m)
      ((do
        let value ← readMem addr 4
        let m ← Exec.get
        pure ⟨BitVec.ofNat 32 instr.rt, f value (pendingLoad instr m), pcAfter⟩ : Exec Next) s) := by
  refine follows_bind (follows_readMem h addr 4) fun a b m' s' _ hab h' => ?_
  subst hab
  refine follows_get ⟨⟨rfl, fun hne => ?_, rfl, ?_⟩, h'⟩
  · have h0 : instr.rt ≠ 0 := fun e => hne (by rw [e]; rfl)
    exact congrArg (f a) (pendingLoad_eq h' hrt h0)
  · show (BitVec.ofNat 32 instr.rt).toNat < NumGPRegs
    rw [BitVec.toNat_ofNat]
    exact Nat.lt_of_le_of_lt (Nat.mod_le _ _) hrt

theorem follows_assert {x y : Exec Next} (c : Bool)
    (hx : Follows (Behind l v) Next.Agrees (x m) (y s)) :
    Follows (Behind l v) Next.Agrees ((do Exec.assert c; x : Exec Next) m)
      ((do Exec.assert c; y : Exec Next) s) := by
  cases c
  · trivial
  · exact hx

theorem follows_storePart {addr pcAfter : Word} (h : Behind l v m s) (f : Word → Word) :
    Follows (Behind l v) Next.Agrees
      ((do let value ← readMem addr 4; store 4 addr (f value) pcAfter : Exec Next) m)
      ((do let value ← readMem addr 4; store 4 addr (f value) pcAfter : Exec Next) s) := by
  refine follows_bind (follows_readMem h addr 4) fun a b m' s' _ hab h' => ?_
  subst hab
  exact follows_store h' 4 addr (f a) pcAfter

/-! ### The instructions, by kind -/

inductive OpKind where
  | arithmetic | multiply | jump | load | store | trap

def OpCode.kind : OpCode → OpKind
  | OP_ADD | OP_ADDI | OP_ADDIU | OP_ADDU | OP_AND | OP_ANDI | OP_LUI | OP_MFHI | OP_MFLO | OP_NOR | OP_OR
  | OP_ORI | OP_SLL | OP_SLLV | OP_SLT | OP_SLTI | OP_SLTIU | OP_SLTU | OP_SRA | OP_SRAV | OP_SRL
  | OP_SRLV | OP_SUB | OP_SUBU | OP_XOR | OP_XORI => .arithmetic
  | OP_DIV | OP_DIVU | OP_MTHI | OP_MTLO | OP_MULT | OP_MULTU => .multiply
  | OP_BEQ | OP_BGEZ | OP_BGEZAL | OP_BGTZ | OP_BLEZ | OP_BLTZ | OP_BLTZAL | OP_BNE | OP_J | OP_JAL
  | OP_JALR | OP_JR => .jump
  | OP_LB | OP_LBU | OP_LH | OP_LHU | OP_LW | OP_LWL | OP_LWR => .load
  | OP_SB | OP_SH | OP_SW | OP_SWL | OP_SWR => .store
  | OP_RFE | OP_SYSCALL | OP_UNIMP | OP_RES | SPECIAL | BCOND => .trap

/-- An instruction on the two machines, which does not touch the register of the load. -/
structure Apart (l : Nat) (v : Word) (m s : Machine) (instr : Instruction) : Prop where
  behind : Behind l v m s
  inRange : instr.InRange
  untouched : l ≠ 0 → l ∉ instr.touched

variable {instr : Instruction}

/-- A register it touches is the same on both. -/
theorem Apart.read (h : Apart l v m s instr) {i : Nat} (hi : i < NumGPRegs) (hmem : i ∈ instr.touched) :
    s.registers i = m.registers i :=
  h.behind.read (.inl (by unfold NumGPRegs at hi; unfold LoadReg; omega))
    fun h0 e => h.untouched h0 (e ▸ hmem)

/-- And so are the registers that are not general. -/
theorem Behind.special (h : Behind l v m s) {i : Nat} (hle : NumGPRegs ≤ i) (hlt : i < LoadReg) :
    s.registers i = m.registers i :=
  h.read (.inl hlt) fun _ => by
    have := h.inRange
    omega

/-- A register it touches is written. -/
theorem Apart.assign (h : Apart l v m s instr) {num : Nat} (hn : num < NumGPRegs)
    (hmem : num ∈ instr.touched) (value pcAfter : Word) :
    Follows (Behind l v) Next.Agrees (assign num value pcAfter m) (assign num value pcAfter s) :=
  follows_assign h.behind (Nat.lt_trans hn (by decide)) (fun h0 e => h.untouched h0 (e ▸ hmem)) _ _

theorem mem_first {i : Nat} {is : List Nat} : i ∈ i :: is := List.mem_cons_self
theorem mem_second {i j : Nat} {is : List Nat} : i ∈ j :: i :: is := List.mem_cons_of_mem _ mem_first
theorem mem_third {i j k : Nat} {is : List Nat} : i ∈ j :: k :: i :: is :=
  List.mem_cons_of_mem _ mem_second

/-- The kinds of instruction begin alike: `NextPCReg` is read. -/
theorem Apart.next (h : Apart l v m s instr) : s.registers NextPCReg = m.registers NextPCReg :=
  h.behind.special (by decide) (by decide)

theorem Apart.arithmetic (h : Apart l v m s instr) (hk : instr.opCode.kind = .arithmetic) :
    Follows (Behind l v) Next.Agrees (execute instr m) (execute instr s) := by
  have hb := h.behind
  obtain ⟨opCode, rs, rt, rd, extra⟩ := instr
  obtain ⟨hrs, hrt, hrd⟩ : rs < NumGPRegs ∧ rt < NumGPRegs ∧ rd < NumGPRegs := h.inRange
  refine follows_get ?_
  dsimp only
  rw [h.next]
  cases opCode with
  | OP_ADD | OP_SUB =>
      rw [h.read hrs mem_first, h.read hrt mem_second]
      exact follows_ite (follows_raise hb _ _) (h.assign hrd mem_third _ _)
  | OP_ADDU | OP_AND | OP_NOR | OP_SLLV | OP_SLT | OP_SLTU | OP_SRAV | OP_SRLV | OP_SUBU | OP_XOR =>
      rw [h.read hrs mem_first, h.read hrt mem_second]
      exact h.assign hrd mem_third _ _
  | OP_OR =>
      -- `rs` is taken twice, and `rt` is not read
      rw [h.read hrs mem_first]
      exact h.assign hrd mem_second _ _
  | OP_ADDI =>
      rw [h.read hrs mem_first]
      exact follows_ite (follows_raise hb _ _) (h.assign hrt mem_second _ _)
  | OP_ADDIU | OP_ANDI | OP_ORI | OP_SLTI | OP_SLTIU | OP_XORI =>
      rw [h.read hrs mem_first]
      exact h.assign hrt mem_second _ _
  | OP_LUI => exact h.assign hrt mem_first _ _
  | OP_SLL | OP_SRA | OP_SRL =>
      rw [h.read hrt mem_first]
      exact h.assign hrd mem_second _ _
  | OP_MFHI =>
      rw [hb.special (i := HiReg) (by decide) (by decide)]
      exact h.assign hrd mem_first _ _
  | OP_MFLO =>
      rw [hb.special (i := LoReg) (by decide) (by decide)]
      exact h.assign hrd mem_first _ _
  | _ => cases hk

/-- What goes to `HI` and `LO`. -/
theorem Apart.multiply (h : Apart l v m s instr) (hk : instr.opCode.kind = .multiply) :
    Follows (Behind l v) Next.Agrees (execute instr m) (execute instr s) := by
  have hb := h.behind
  have hlow := hb.inRange
  obtain ⟨opCode, rs, rt, rd, extra⟩ := instr
  obtain ⟨hrs, hrt, hrd⟩ : rs < NumGPRegs ∧ rt < NumGPRegs ∧ rd < NumGPRegs := h.inRange
  refine follows_get ?_
  dsimp only
  rw [h.next]
  cases opCode with
  | OP_DIV =>
      rw [h.read hrs mem_first, h.read hrt mem_second]
      exact follows_divide hb _ _ _
  | OP_DIVU =>
      rw [h.read hrs mem_first, h.read hrt mem_second]
      exact follows_ite (follows_assignHiLo hb _ _ _) (follows_assignHiLo hb _ _ _)
  | OP_MULT | OP_MULTU =>
      rw [h.read hrs mem_first, h.read hrt mem_second]
      exact follows_assignHiLo hb _ _ _
  | OP_MTHI | OP_MTLO =>
      rw [h.read hrs mem_first]
      exact follows_assign hb (by decide) (fun _ e => by rw [← e] at hlow; exact absurd hlow (by decide)) _ _
  | _ => cases hk

theorem Apart.jump (h : Apart l v m s instr) (hk : instr.opCode.kind = .jump) :
    Follows (Behind l v) Next.Agrees (execute instr m) (execute instr s) := by
  have hb := h.behind
  have hset : ∀ i, i ∈ instr.touched → l ≠ 0 → i ≠ l := fun i hmem h0 e => h.untouched h0 (e ▸ hmem)
  obtain ⟨opCode, rs, rt, rd, extra⟩ := instr
  obtain ⟨hrs, hrt, hrd⟩ : rs < NumGPRegs ∧ rt < NumGPRegs ∧ rd < NumGPRegs := h.inRange
  refine follows_get ?_
  dsimp only
  rw [h.next]
  cases opCode with
  | OP_BEQ | OP_BNE =>
      rw [h.read hrs mem_first, h.read hrt mem_second]
      exact follows_branch hb _ _ _
  | OP_BGEZ | OP_BGTZ | OP_BLEZ | OP_BLTZ =>
      rw [h.read hrs mem_first]
      exact follows_branch hb _ _ _
  | OP_BGEZAL | OP_BLTZAL =>
      -- `R31` is written whether the branch is taken or not, and before `rs` is read
      refine follows_link hb (by decide) (hset R31 mem_second) hrs (hset rs mem_first)
        fun m' s' h' value => ?_
      exact follows_branch h' _ _ _
  | OP_JALR =>
      refine follows_link hb (Nat.lt_trans hrd (by decide)) (hset rd mem_second) hrs (hset rs mem_first)
        fun m' s' h' value => ?_
      exact ⟨.refl noLoad, h'⟩
  | OP_JR =>
      rw [h.read hrs mem_first]
      exact ⟨.refl noLoad, hb⟩
  | OP_J => exact ⟨.refl noLoad, hb⟩
  | OP_JAL => exact h.assign (by decide) mem_first _ _
  | _ => cases hk

theorem Apart.load (h : Apart l v m s instr) (hk : instr.opCode.kind = .load) :
    Follows (Behind l v) Next.Agrees (execute instr m) (execute instr s) := by
  have hb := h.behind
  obtain ⟨opCode, rs, rt, rd, extra⟩ := instr
  obtain ⟨hrs, hrt, hrd⟩ : rs < NumGPRegs ∧ rt < NumGPRegs ∧ rd < NumGPRegs := h.inRange
  refine follows_get ?_
  dsimp only
  rw [h.next]
  cases opCode with
  | OP_LB | OP_LBU =>
      rw [h.read hrs mem_first]
      exact follows_load hrt hb fun value => if value &&& 0x80 ≠ 0 ∧ _ = _ then value ||| 0xffffff00
        else value &&& 0xff
  | OP_LH | OP_LHU =>
      rw [h.read hrs mem_first]
      exact follows_ite (follows_raise hb _ _) (follows_load hrt hb fun value =>
        if value &&& 0x8000 ≠ 0 ∧ _ = _ then value ||| 0xffff0000 else value &&& 0xffff)
  | OP_LW =>
      rw [h.read hrs mem_first]
      exact follows_ite (follows_raise hb _ _) (follows_load hrt hb fun value => value)
  | OP_LWL =>
      rw [h.read hrs mem_first]
      exact follows_assert _ (follows_loadPart hrt hb
        (leftPart (m.registers rs + extra &&& 0x3).toNat))
  | OP_LWR =>
      rw [h.read hrs mem_first]
      exact follows_assert _ (follows_loadPart hrt hb
        (rightPart (m.registers rs + extra &&& 0x3).toNat))
  | _ => cases hk

theorem Apart.store (h : Apart l v m s instr) (hk : instr.opCode.kind = .store) :
    Follows (Behind l v) Next.Agrees (execute instr m) (execute instr s) := by
  have hb := h.behind
  obtain ⟨opCode, rs, rt, rd, extra⟩ := instr
  obtain ⟨hrs, hrt, hrd⟩ : rs < NumGPRegs ∧ rt < NumGPRegs ∧ rd < NumGPRegs := h.inRange
  refine follows_get ?_
  dsimp only
  rw [h.next]
  cases opCode with
  | OP_SB | OP_SH | OP_SW =>
      rw [h.read hrs mem_first, h.read hrt mem_second]
      exact follows_store hb _ _ _ _
  | OP_SWL | OP_SWR =>
      rw [h.read hrs mem_first, h.read hrt mem_second]
      exact follows_assert _ (follows_storePart hb _)
  | _ => cases hk

theorem Apart.trap (h : Apart l v m s instr) (hk : instr.opCode.kind = .trap) :
    Follows (Behind l v) Next.Agrees (execute instr m) (execute instr s) := by
  obtain ⟨opCode, rs, rt, rd, extra⟩ := instr
  refine follows_get ?_
  cases opCode with
  | OP_SYSCALL | OP_RES | OP_UNIMP => exact follows_raise h.behind _ _
  | OP_RFE | SPECIAL | BCOND => trivial
  | _ => cases hk

/-- **An instruction that touches no register of a load in progress** does not see whether the load
has landed. -/
theorem Apart.follows (h : Apart l v m s instr) :
    Follows (Behind l v) Next.Agrees (execute instr m) (execute instr s) := by
  cases hk : instr.opCode.kind with
  | arithmetic => exact h.arithmetic hk
  | multiply => exact h.multiply hk
  | jump => exact h.jump hk
  | load => exact h.load hk
  | store => exact h.store hk
  | trap => exact h.trap hk

end

/-! ### An instruction -/

/-- At the boundary of an instruction: register 0 is zero, and a load goes to a general register. -/
structure Tidy (m : Machine) : Prop where
  zero : m.registers 0 = 0
  load : (m.registers LoadReg).toNat < NumGPRegs

/-- `m` is `s`, or `s` with its load landed, but for the value of a load to register 0. -/
structure Lands (m s : Machine) : Prop where
  tidy : m.Tidy ∧ s.Tidy
  load : m.registers LoadReg = s.registers LoadReg ∨ m.registers LoadReg = 0
  landed : m.delayedLoad 0 0 = s.delayedLoad 0 0

/-- The instruction at `PC` touches the register of the load in progress. -/
def hazard (m : Machine) : Bool :=
  match readMem (m.registers PCReg) 4 m with
  | .ok raw _ =>
      let l := (m.registers LoadReg).toNat
      l ≠ 0 && (decode raw).touched.contains l
  | _ => false

section
variable {l : Nat} {v : Word} {m s : Machine}

theorem Tidy.behind (h : m.Tidy) :
    Behind (m.registers LoadReg).toNat (m.registers LoadValueReg) m (m.delayedLoad 0 0) := by
  have hlt := h.load
  have hzero := h.zero
  have e : (m.delayedLoad 0 0).registers =
      Machine.landed (m.registers LoadReg).toNat (m.registers LoadValueReg) m.registers := by
    funext i
    rw [delayedLoad_apply]
    simp only [Machine.landed]
    unfold NumGPRegs LoadReg LoadValueReg at *
    split_ifs <;> first | rfl | omega | simp_all
  exact ⟨rfl, rfl, hlt, congrArg (fun r => { m with registers := r }) e⟩

theorem advance_apply (next : Next) (m : Machine) (i : Nat) :
    (advance next m).registers i =
      if i = NextPCReg then next.pcAfter
      else if i = PCReg then (m.delayedLoad next.nextLoadReg next.nextLoadValue).registers NextPCReg
      else if i = PrevPCReg then (m.delayedLoad next.nextLoadReg next.nextLoadValue).registers PCReg
      else (m.delayedLoad next.nextLoadReg next.nextLoadValue).registers i := by
  show Function.update (Function.update (Function.update _ PrevPCReg _) PCReg _) NextPCReg _ i = _
  simp only [Function.update_apply]
  rfl

/-- What is noted of a load to register 0 does not matter. -/
theorem advance_lands {a b : Next} (h : (m.registers LoadReg).toNat < NumGPRegs) (hab : a.Agrees b) :
    Lands (advance a m) (advance b m) := by
  have hload : ∀ c : Next, (advance c m).registers LoadReg = c.nextLoadReg := fun c =>
    (delayedLoad_spec h c.nextLoadReg c.nextLoadValue).load
  have hreg : (advance b m).registers LoadReg = (advance a m).registers LoadReg := by
    rw [hload, hload]
    exact hab.nextLoadReg
  have hlt : ((advance a m).registers LoadReg).toNat < NumGPRegs := by
    rw [hload]
    exact hab.inRange
  refine ⟨⟨⟨rfl, hlt⟩, rfl, hreg ▸ hlt⟩, .inl hreg.symm, ?_⟩
  by_cases h0 : a.nextLoadReg = 0
  · have hregs : ∀ i, ((advance a m).delayedLoad 0 0).registers i =
        ((advance b m).delayedLoad 0 0).registers i := by
      intro i
      rw [delayedLoad_apply, delayedLoad_apply, hload, hload, hab.nextLoadReg, h0]
      split_ifs with hi hval hreg hi'
      · rfl
      · rfl
      · rfl
      · exact absurd hi' hi
      · rw [advance_apply, advance_apply, hab.pcAfter, hab.nextLoadReg]
        simp only [delayedLoad_apply, if_neg hi, if_neg hval]
        rfl
    exact congrArg (fun r => { m with registers := r }) (funext hregs)
  · obtain ⟨reg, value, pcAfter⟩ := a
    obtain ⟨reg', value', pcAfter'⟩ := b
    obtain ⟨rfl, hvalue, rfl, -⟩ := hab
    rw [show value' = value from hvalue h0]

theorem Behind.advance {a b : Next} (h : Behind l v m s) (hab : a.Agrees b) :
    Lands (Machine.advance a m) (Machine.advance b s) := by
  have e : Machine.advance b s = Machine.advance b m := by
    unfold Machine.advance
    rw [h.delayedLoad]
  rw [e]
  exact advance_lands (by rw [h.load]; exact h.inRange) hab

/-- **One instruction** that is no hazard leaves no difference. -/
theorem oneInstruction_follows (h : m.Tidy) (hm : m.hazard = false) :
    Follows Lands (fun _ _ => True) (oneInstruction m) (oneInstruction (m.delayedLoad 0 0)) := by
  have hb := h.behind
  have hpc := hb.pc
  refine follows_bind (Q := fun a b => a = m.registers PCReg ∧ b = a)
    (R := fun m' s' => m = m' ∧ m.delayedLoad 0 0 = s') ⟨⟨rfl, hpc⟩, rfl, rfl⟩ ?_
  rintro a _ _ _ - ⟨rfl, rfl⟩ ⟨rfl, rfl⟩
  refine follows_bind (follows_readMem hb _ 4) fun raw _ m₁ s₁ e hab h₁ => ?_
  subst hab
  have hfree : (m.registers LoadReg).toNat ≠ 0 →
      (m.registers LoadReg).toNat ∉ (decode raw).touched := by
    intro h0 hmem
    unfold hazard at hm
    rw [e] at hm
    simp [h0, hmem] at hm
  exact follows_bind (Apart.follows ⟨h₁, decode_inRange raw, hfree⟩) fun a b m₂ s₂ _ hab h₂ =>
    ⟨trivial, h₂.advance hab⟩

theorem delayedLoad_tidy (h : m.Tidy) : (m.delayedLoad 0 0).Tidy := by
  have hd := delayedLoad_spec h.load 0 0
  exact ⟨hd.zero, by rw [hd.load]; exact noLoad⟩

theorem delayedLoad_idem (h : m.Tidy) : (m.delayedLoad 0 0).delayedLoad 0 0 = m.delayedLoad 0 0 :=
  h.behind.delayedLoad 0 0

theorem Lands.landed_left (h : Lands m s) : Lands (m.delayedLoad 0 0) s :=
  ⟨⟨delayedLoad_tidy h.tidy.1, h.tidy.2⟩, .inr (delayedLoad_spec h.tidy.1.load 0 0).load,
    (delayedLoad_idem h.tidy.1).trans h.landed⟩

theorem hazard_iff : m.hazard = true ↔ ∃ raw m', readMem (m.registers PCReg) 4 m = .ok raw m' ∧
    (m.registers LoadReg).toNat ≠ 0 ∧ (m.registers LoadReg).toNat ∈ (decode raw).touched := by
  unfold hazard
  constructor
  · intro h
    split at h
    · rename_i raw m' e
      exact ⟨raw, m', e, by simpa using h⟩
    · cases h
  · rintro ⟨raw, m', e, h⟩
    rw [e]
    simpa using h

/-- The hazards of `m` are hazards of `s`. -/
theorem Lands.hazard (h : Lands m s) (hm : m.hazard = true) : s.hazard = true := by
  obtain ⟨raw, m', e, h0, hmem⟩ := hazard_iff.mp hm
  have hload : m.registers LoadReg = s.registers LoadReg :=
    h.load.resolve_right fun hz => h0 (by rw [hz]; rfl)
  have hpc : m.registers PCReg = s.registers PCReg := by
    rw [← h.tidy.1.behind.pc, h.landed, h.tidy.2.behind.pc]
  have hm := follows_readMem h.tidy.1.behind (m.registers PCReg) 4
  have hs := follows_readMem h.tidy.2.behind (m.registers PCReg) 4
  rw [h.landed] at hm
  rw [e] at hm
  cases e' : readMem (m.registers PCReg) 4 (s.delayedLoad 0 0) with
  | raised | aborted =>
      rw [e'] at hm
      exact hm.elim
  | ok raw' s' =>
      rw [e'] at hm hs
      obtain ⟨rfl, -⟩ := hm
      cases e'' : readMem (m.registers PCReg) 4 s with
      | raised | aborted =>
          rw [e''] at hs
          exact hs.elim
      | ok raw'' s'' =>
          rw [e''] at hs
          obtain ⟨rfl, -⟩ := hs
          exact hazard_iff.mpr ⟨_, s'', by rw [← hpc]; exact e'', by rw [← hload]; exact ⟨h0, hmem⟩⟩

end

end Machine

/-! ### Runs -/

namespace LoadDelay
open Machine Exec

section
variable {κ : Type} (handler : κ → ExceptionType → Machine → Option (κ × Machine))

/-- `OneInstruction` in the loop of `Machine::Run`, with `handler` for `ExceptionHandler`. -/
def step (x : κ × Machine) : Option (κ × Machine) :=
  match oneInstruction x.2 with
  | .ok _ m => some (x.1, m)
  | .raised which m => handler x.1 which m
  | .aborted => none

/-- `Interrupt::OneTick` behind an instruction: what it does to the kernel, and whether an interrupt
is due. -/
structure Tick (κ : Type) where
  effect : κ → κ
  due : Bool

def Tick.run (t : Tick κ) (x : κ × Machine) : κ × Machine :=
  (t.effect x.1, if t.due then x.2.delayedLoad 0 0 else x.2)

/-- `Machine::Run`, for a tick behind each instruction. -/
def run : List (Tick κ) → κ × Machine → Option (κ × Machine)
  | [], x => some x
  | t :: ts, x => (step handler x).bind fun y => run ts (t.run y)

/-- Interrupts behind each instruction, so that each load lands at once. -/
def atOnce (effects : List (κ → κ)) : List (Tick κ) := effects.map fun effect => ⟨effect, true⟩

/-- When loads land at once, no instruction touches the register of the load before it. -/
def loadSafe : List (κ → κ) → κ × Machine → Bool
  | [], _ => true
  | effect :: effects, x => !x.2.hazard &&
      match step handler (x.1, x.2.delayedLoad 0 0) with
      | some y => loadSafe effects (effect y.1, y.2)
      | none => true

end

section
variable {κ : Type} {handler : κ → ExceptionType → Machine → Option (κ × Machine)} {m s : Machine}

theorem step_follows (hhandler : ∀ k which m y, handler k which m = some y → y.2.Tidy) (k : κ)
    (h : m.Tidy) (hm : m.hazard = false) :
    (step handler (k, m) = none ∧ step handler (k, m.delayedLoad 0 0) = none) ∨
      ∃ k' m' s', step handler (k, m) = some (k', m') ∧
        step handler (k, m.delayedLoad 0 0) = some (k', s') ∧ Lands m' s' := by
  have hf := oneInstruction_follows h hm
  unfold step
  dsimp only
  cases e : oneInstruction m with
  | ok a m' =>
      cases e' : oneInstruction (m.delayedLoad 0 0) with
      | ok b s' =>
          rw [e, e'] at hf
          exact .inr ⟨k, m', s', rfl, rfl, hf.2⟩
      | raised | aborted =>
          rw [e, e'] at hf
          exact hf.elim
  | raised which m' =>
      cases e' : oneInstruction (m.delayedLoad 0 0) with
      | raised which' s' =>
          rw [e, e'] at hf
          obtain ⟨rfl, rfl⟩ := hf
          dsimp only
          cases ey : handler k which' s' with
          | none => exact .inl ⟨rfl, rfl⟩
          | some y => exact .inr ⟨y.1, y.2, y.2, rfl, rfl, ⟨hhandler _ _ _ _ ey, hhandler _ _ _ _ ey⟩, .inl rfl, rfl⟩
      | ok | aborted =>
          rw [e, e'] at hf
          exact hf.elim
  | aborted =>
      cases e' : oneInstruction (m.delayedLoad 0 0) with
      | aborted => exact .inl ⟨rfl, rfl⟩
      | ok | raised =>
          rw [e, e'] at hf
          exact hf.elim

theorem run_lands (hhandler : ∀ k which m y, handler k which m = some y → y.2.Tidy)
    {ts : List (Tick κ)} {k : κ} (h : Lands m s)
    (hsafe : loadSafe handler (ts.map Tick.effect) (k, s) = true) :
    (run handler ts (k, m)).map (Prod.map id (delayedLoad 0 0)) =
      run handler (atOnce (ts.map Tick.effect)) (k, s.delayedLoad 0 0) := by
  induction ts generalizing k m s with
  | nil => exact congrArg (fun m => some (k, m)) h.landed
  | cons t ts ih =>
      rw [List.map_cons, loadSafe, Bool.and_eq_true, Bool.not_eq_true'] at hsafe
      obtain ⟨hs, hsafe⟩ := hsafe
      have hm : m.hazard = false := Bool.eq_false_iff.mpr fun hm => by
        rw [h.hazard hm] at hs
        cases hs
      rw [List.map_cons, atOnce, List.map_cons, run, run, ← atOnce]
      rw [← h.landed] at hsafe ⊢
      rcases step_follows hhandler k h.tidy.1 hm with ⟨e, e'⟩ | ⟨k', m', s', e, e', ha⟩
      · rw [e, e']
        rfl
      · rw [e'] at hsafe
        rw [e, e']
        have hl : Lands (t.run (k', m')).2 s' := by
          unfold Tick.run
          dsimp only
          split
          · exact ha.landed_left
          · exact ha
        exact ih hl hsafe

/-- **Interrupts are not noticed** by a program that never touches the register of a load in the
instruction behind it: wherever they fall, it runs as on a machine whose loads land at once. -/
theorem interrupts_unnoticed (hhandler : ∀ k which m y, handler k which m = some y → y.2.Tidy)
    {effects : List (κ → κ)} {k : κ} (hm : m.Tidy) (hsafe : loadSafe handler effects (k, m) = true)
    {ts : List (Tick κ)} (hts : ts.map Tick.effect = effects) :
    (run handler ts (k, m)).map (Prod.map id (delayedLoad 0 0)) =
      run handler (atOnce effects) (k, m.delayedLoad 0 0) := by
  subst hts
  exact run_lands hhandler ⟨⟨hm, hm⟩, .inl rfl, rfl⟩ hsafe

end

/-- A machine at the first instruction of a program, with 21 at the address 64. -/
def atProgram (words : List Word) : Machine where
  registers i := if i = NextPCReg then 4 else 0
  mainMemory i := if i = 64 then 21 else (words.getD (i / 4) 0).extractLsb' (8 * (i % 4)) 8
  pageTable := some [⟨0, 0, true, false, false, false⟩]
  pageTableSize := 1

/-- A kernel that stops at every exception. -/
def noKernel (_ : Unit) (_ : ExceptionType) (_ : Machine) : Option (Unit × Machine) := none

/-- What a program leaves in register 9, with interrupts behind the instructions that `due` says. -/
def doubled (words : List Word) (due : List Bool) : Option Word :=
  (run noKernel (due.map fun b => ⟨id, b⟩) ((), atProgram words)).map fun x =>
    (x.2.delayedLoad 0 0).registers 9

/-- `lw $8, 64($0)`, `nop`, `addu $9, $8, $8`. -/
theorem interrupts_unnoticed_lw :
    ((run noKernel [⟨id, false⟩, ⟨id, true⟩, ⟨id, false⟩]
        ((), atProgram [0x8c080040, 0, 0x01084821])).map (Prod.map id (delayedLoad 0 0))).map
      (fun x => x.2.registers 9) = some 42 := by
  rw [interrupts_unnoticed (fun _ _ _ _ h => by cases h) ⟨rfl, by decide⟩ (by decide +kernel)
    (show List.map Tick.effect _ = [id, id, id] from rfl)]
  decide +kernel

/-- Without the `nop` the interrupt decides. -/
example : doubled [0x8c080040, 0x01084821] [true, false] = some 42 ∧
    doubled [0x8c080040, 0x01084821] [false, false] = some 0 := by
  decide +kernel

end LoadDelay

end Nachos
