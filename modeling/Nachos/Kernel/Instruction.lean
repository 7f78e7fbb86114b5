import Nachos.Kernel.Isolation
import Nachos.Userprog.FlatMemory

/-!
# Kernel — Instruction

How `Machine::OneInstruction` (machine/mipssim.cc) ends, for every instruction word and every
register file.  `Ends x m Q E` is the weakest precondition of a routine: it does not abort, its
result meets `Q`, and the exception it hands to the kernel, with the machine, meets `E`.

Two cases of the `switch` are not guarded (`Stumbles`): the loads and stores of a part of a word
`ASSERT` an aligned address, and `OP_DIV` looks at the divisor only.  Every other instruction ends,
with all the registers it indexes in range (`execute_ends`, `oneInstruction_ends`).
-/

namespace Nachos

namespace Exec
open Machine

/-- The routine `x` ends on `m`, with `Q` or, by an exception, with `E`. -/
def Ends {α : Type} (x : Exec α) (m : Machine) (Q : α → Machine → Prop)
    (E : ExceptionType → Machine → Prop) : Prop :=
  match x m with
  | .ok a m' => Q a m'
  | .raised which m' => E which m'
  | .aborted => False

section
variable {α β : Type} {x : Exec α} {f : α → Exec β} {m : Machine}
  {E : ExceptionType → Machine → Prop}

theorem Ends.bind {Q : β → Machine → Prop} (h : Ends x m (fun a m' => Ends (f a) m' Q E) E) :
    Ends (x >>= f) m Q E := by
  show match Exec.bind x f m with
    | .ok a m' => Q a m'
    | .raised which m' => E which m'
    | .aborted => False
  unfold Ends at h
  unfold Exec.bind
  cases e : x m with
  | ok a m' => rw [e] at h; exact h
  | raised w m' => rw [e] at h; exact h
  | aborted => rw [e] at h; exact h

theorem Ends.get {f : Machine → Exec β} {Q : β → Machine → Prop} (h : Ends (f m) m Q E) :
    Ends (do let m ← Exec.get; f m) m Q E := Ends.bind h

theorem Ends.mono {Q Q' : α → Machine → Prop} {E' : ExceptionType → Machine → Prop}
    (h : Ends x m Q E) (hQ : ∀ a m', Q a m' → Q' a m') (hE : ∀ w m', E w m' → E' w m') :
    Ends x m Q' E' := by
  unfold Ends at h ⊢
  cases e : x m with
  | ok a m' => rw [e] at h; exact hQ a m' h
  | raised w m' => rw [e] at h; exact hE w m' h
  | aborted => rw [e] at h; exact h

theorem Ends.ite {c : Prop} [Decidable c] {y z : Exec α} {Q : α → Machine → Prop}
    (hy : c → Ends y m Q E) (hz : ¬ c → Ends z m Q E) : Ends (if c then y else z) m Q E := by
  split
  · rename_i h; exact hy h
  · rename_i h; exact hz h

end

end Exec

namespace Machine
open Exec

/-! ### The cases of the switch -/

/-- A machine on which user code runs: the page table is one of `AddrSpace`, and the load in
progress is for a general register. -/
structure Sane (pageTable : List TranslationEntry) (m : Machine) : Prop where
  runs : Runs pageTable m
  load : (m.registers LoadReg).toNat < NumGPRegs

/-- Where an exception leaves the registers, which were `r`. -/
structure Trapped (r : Nat → Word) (which : ExceptionType) (m : Machine) : Prop where
  which : which ≠ .noException
  zero : m.registers 0 = 0
  load : m.registers LoadReg = 0
  loadValue : m.registers LoadValueReg = 0
  outside : ∀ i, NumTotalRegs ≤ i → m.registers i = r i
  delivered : ∃ addr m₀, m₀.registers = r ∧ m = trapped addr m₀

/-- Where the `switch` leaves the registers, which were `r`. -/
structure Switched (r : Nat → Word) (next : Next) (m : Machine) : Prop where
  nextLoad : next.nextLoadReg.toNat < NumGPRegs
  load : m.registers LoadReg = r LoadReg
  outside : ∀ i, NumTotalRegs ≤ i → m.registers i = r i

section
variable {pageTable : List TranslationEntry} {m : Machine} {r : Nat → Word} {instr : Instruction}
  {value pcAfter tmp : Word} {E : ExceptionType → Machine → Prop}

theorem Sane.congr {m' : Machine} (h : Sane pageTable m) (hr : Runs pageTable m')
    (e : m'.registers = m.registers) : Sane pageTable m' := ⟨hr, by rw [e]; exact h.load⟩

theorem Sane.traps (h : Sane pageTable m) {which : ExceptionType} (hw : which ≠ .noException)
    (addr : Word) : Trapped m.registers which (trapped addr m) := by
  have hl : (m.setRegister BadVAddrReg addr).registers LoadReg = m.registers LoadReg := rfl
  have hd := delayedLoad_spec (m := m.setRegister BadVAddrReg addr) (hl ▸ h.load) 0 0
  refine ⟨hw, hd.zero, hd.load, hd.loadValue, fun i hi => ?_, addr, m, rfl, rfl⟩
  have hi' : NumGPRegs ≤ i ∧ i ≠ LoadReg ∧ i ≠ LoadValueReg ∧ i ≠ BadVAddrReg := by
    unfold NumTotalRegs NumGPRegs LoadReg LoadValueReg BadVAddrReg at *
    omega
  rw [show (trapped addr m).registers i = _ from hd.others i hi'.1 hi'.2.1 hi'.2.2.1]
  exact Function.update_of_ne hi'.2.2.2 _ _

theorem ends_raise {α : Type} {Q : α → Machine → Prop} {which : ExceptionType}
    (h : Sane pageTable m) (hw : which ≠ .noException) (addr : Word) :
    Ends (raiseException which addr : Exec α) m Q (Trapped m.registers) := h.traps hw addr

theorem ends_next {next : Next} (hn : next.nextLoadReg.toNat < NumGPRegs) :
    Ends (pure next) m (Switched m.registers) E := ⟨hn, rfl, fun _ _ => rfl⟩

/-- A general register, `HI` or `LO` is written, and no load is left. -/
theorem ends_assign {num : Nat} (hn : num < LoadReg) :
    Ends (assign num value pcAfter) m (Switched m.registers) E := by
  refine ⟨noLoad, ?_, fun i hi => ?_⟩
  · exact Function.update_of_ne (Nat.ne_of_gt hn) _ _
  · refine Function.update_of_ne ?_ _ _
    unfold LoadReg NumTotalRegs at *
    omega

/-- A register is written before the rest of the case, which raises nothing. -/
theorem ends_link {num : Nat} {x : Exec Next} (hn : num < LoadReg)
    (hx : ∀ m', Ends x m' (Switched m'.registers) fun _ _ => False) :
    Ends (do writeRegister num value; x) m (Switched m.registers) E := by
  refine Ends.bind ?_
  have hl : (m.setRegister num value).registers LoadReg = m.registers LoadReg :=
    Function.update_of_ne (Nat.ne_of_gt hn) _ _
  have hout : ∀ i, NumTotalRegs ≤ i → (m.setRegister num value).registers i = m.registers i := by
    intro i hi
    refine Function.update_of_ne ?_ _ _
    unfold LoadReg NumTotalRegs at *
    omega
  exact (hx (m.setRegister num value)).mono
    (fun _ _ hq => ⟨hq.nextLoad, hq.load.trans hl, fun i hi => (hq.outside i hi).trans (hout i hi)⟩)
    fun _ _ he => he.elim

theorem ends_readRegister {num : Nat} {f : Word → Exec Next} {Q : Next → Machine → Prop} (hf : ∀ v, Ends (f v) m Q E) :
    Ends (do let v ← readRegister num; f v) m Q E := Ends.bind (hf _)

theorem ends_assignHiLo (hi lo : Word) :
    Ends (assignHiLo hi lo pcAfter) m (Switched m.registers) E :=
  ends_link (by decide) fun _ => ends_assign (by decide)

theorem ends_divide {rs rt : Word} (hs : ¬ (rs = SIGN_BIT ∧ rt = -1)) :
    Ends (divide rs rt pcAfter) m (Switched m.registers) E :=
  .ite (fun _ => ends_assignHiLo _ _)
    fun _ => .ite (fun ht => absurd ht hs) fun _ => ends_assignHiLo _ _

theorem ends_branch (c : Prop) [Decidable c] (target : Word) :
    Ends (branch c target pcAfter) m (Switched m.registers) E :=
  ends_next noLoad

/-- A read of user memory, and the rest of the case. -/
theorem ends_readMem {α : Type} {Q : α → Machine → Prop} {f : Word → Exec α}
    (h : Sane pageTable m) (addr : Word) (size : AccessSize)
    (hf : ∀ v m', Sane pageTable m' → m'.registers = m.registers →
      Ends (f v) m' Q (Trapped m.registers)) :
    Ends (do let v ← readMem addr size.bytes; f v) m Q (Trapped m.registers) := by
  refine Ends.bind ?_
  unfold Ends
  rcases readMem_eq h.runs addr size with ⟨-, e⟩ | ⟨-, m', e, hr, hregs, -⟩
  · rw [e]; exact h.traps (by decide) addr
  · rw [e]; exact hf _ m' (h.congr hr hregs) hregs

theorem ends_store (h : Sane pageTable m) (addr : Word) (size : AccessSize) :
    Ends (store size.bytes addr value pcAfter) m (Switched m.registers) (Trapped m.registers) := by
  refine Ends.bind ?_
  unfold Ends
  rcases writeMem_eq h.runs addr size value with ⟨-, e⟩ | ⟨-, m', e, hr, hregs, -⟩
  · rw [e]; exact h.traps (by decide) addr
  · rw [e]
    rw [← hregs]
    exact ends_next (E := Trapped m'.registers) noLoad

/-- A load is left in progress. -/
theorem ends_load {num : Nat} (hn : num < NumGPRegs) :
    Ends (pure ⟨BitVec.ofNat 32 num, value, pcAfter⟩) m (Switched m.registers) E := by
  refine ends_next ?_
  show (BitVec.ofNat 32 num).toNat < _
  rw [BitVec.toNat_ofNat]
  exact Nat.lt_of_le_of_lt (Nat.mod_le _ _) hn

theorem ends_loadByte (h : Sane pageTable m) (hi : instr.InRange) :
    Ends (loadByte instr tmp pcAfter) m (Switched m.registers) (Trapped m.registers) :=
  ends_readMem h tmp .byte fun _ _ _ e => e ▸ ends_load hi.2.1

/-- `OP_LH`, `OP_LHU` and `OP_LW`: an address that is not aligned raises. -/
theorem ends_loadAligned {c : Prop} [Decidable c] (h : Sane pageTable m) (hi : instr.InRange)
    (size : AccessSize) (f : Word → Word) :
    Ends (if c then raiseException .addressErrorException tmp else do
      let value ← readMem tmp size.bytes
      pure ⟨BitVec.ofNat 32 instr.rt, f value, pcAfter⟩) m (Switched m.registers)
      (Trapped m.registers) :=
  .ite (fun _ => ends_raise h (by decide) _) fun _ =>
    ends_readMem h tmp size fun _ _ _ e => e ▸ ends_load hi.2.1

/-- The `ASSERT` of the loads and stores of a part of a word. -/
theorem ends_aligned {Q : Next → Machine → Prop} {x : Exec Next} (ha : tmp &&& 0x3 = 0) (hx : Ends x m Q E) :
    Ends (do Exec.assert (tmp &&& 0x3 = 0); x) m Q E := by
  refine Ends.bind ?_
  rw [ha]
  exact hx

/-- `OP_LWL` and `OP_LWR`, which load `part` of a word. -/
theorem ends_loadPart (h : Sane pageTable m) (hi : instr.InRange) (ha : tmp &&& 0x3 = 0)
    (part : Word → Machine → Word) :
    Ends (do
      Exec.assert (tmp &&& 0x3 = 0)
      let value ← readMem tmp 4
      let m ← Exec.get
      pure ⟨BitVec.ofNat 32 instr.rt, part value m, pcAfter⟩) m (Switched m.registers)
      (Trapped m.registers) :=
  ends_aligned ha (ends_readMem h tmp .word fun _ _ _ e =>
    Ends.bind (e ▸ ends_load (E := Trapped m.registers) hi.2.1))

/-- `OP_SWL` and `OP_SWR`. -/
theorem ends_storePart {addr : Word} (h : Sane pageTable m) (ha : tmp &&& 0x3 = 0)
    (part : Word → Word) :
    Ends (do
      Exec.assert (tmp &&& 0x3 = 0)
      let value ← readMem addr 4
      store 4 addr (part value) pcAfter) m (Switched m.registers) (Trapped m.registers) :=
  ends_aligned ha (ends_readMem h addr .word fun _ _ h' e => e ▸ ends_store h' addr .word)

/-! ### The switch -/

/-- The instructions that bring the simulator down: an unaligned load or store of a part of a word,
and the one division whose quotient is no `int`. -/
def Stumbles (instr : Instruction) (r : Nat → Word) : Prop :=
  match instr.opCode with
  | .OP_LWL | .OP_LWR | .OP_SWL | .OP_SWR => (r instr.rs + instr.extra) &&& 0x3 ≠ 0
  | .OP_DIV => r instr.rs = SIGN_BIT ∧ r instr.rt = -1
  | _ => False

theorem aborts_unaligned {x : Exec Next} (ha : tmp &&& 0x3 ≠ 0) :
    (do Exec.assert (tmp &&& 0x3 = 0); x : Exec Next) m = .aborted := by
  have e : decide (tmp &&& 0x3 = 0) = false := decide_eq_false ha
  show Exec.bind (Exec.assert (decide (tmp &&& 0x3 = 0))) (fun _ => x) m = _
  rw [e]
  rfl

/-- Both kinds of instructions do bring it down. -/
theorem execute_aborts (hs : Stumbles instr m.registers) : execute instr m = .aborted := by
  obtain ⟨opCode, rs, rt, rd, extra⟩ := instr
  cases opCode with
  | OP_LWL | OP_LWR | OP_SWL | OP_SWR => exact aborts_unaligned (x := _) hs
  | OP_DIV =>
      obtain ⟨hrs, hrt⟩ : m.registers rs = SIGN_BIT ∧ m.registers rt = -1 := hs
      show divide (m.registers rs) (m.registers rt) _ m = _
      rw [hrs, hrt]
      rfl
  | _ => exact hs.elim

/-- **Every other instruction ends.** -/
theorem execute_ends (h : Sane pageTable m) (hi : instr.InRange)
    (hop : instr.opCode.decoded = true) (hs : ¬ Stumbles instr m.registers) :
    Ends (execute instr) m (Switched m.registers) (Trapped m.registers) := by
  obtain ⟨opCode, rs, rt, rd, extra⟩ := instr
  have hlt : ∀ {i}, i < NumGPRegs → i < LoadReg := fun hi => Nat.lt_trans hi (by decide)
  have hrt : rt < LoadReg := hlt hi.2.1
  have hrd : rd < LoadReg := hlt hi.2.2
  have hal : ∀ {a : Word}, ¬ a &&& 0x3 ≠ 0 → a &&& 0x3 = 0 := fun ha => not_not.mp ha
  refine Ends.get ?_
  dsimp only
  cases opCode with
  | OP_ADD | OP_SUB => exact .ite (fun _ => ends_raise h (by decide) _) fun _ => ends_assign hrd
  | OP_ADDI => exact .ite (fun _ => ends_raise h (by decide) _) fun _ => ends_assign hrt
  | OP_BEQ | OP_BGEZ | OP_BGTZ | OP_BLEZ | OP_BLTZ | OP_BNE => exact ends_branch _ _
  | OP_BGEZAL | OP_BLTZAL =>
      refine ends_link (by decide : R31 < LoadReg) fun _ => ?_
      exact ends_readRegister fun _ => ends_branch _ _
  | OP_JALR =>
      refine ends_link hrd fun _ => ?_
      exact ends_readRegister fun _ => ends_next noLoad
  | OP_J | OP_JR => exact ends_next noLoad
  | OP_JAL => exact ends_assign (by decide)
  | OP_DIV => exact ends_divide hs
  | OP_DIVU => exact .ite (fun _ => ends_assignHiLo _ _) fun _ => ends_assignHiLo _ _
  | OP_MULT | OP_MULTU => exact ends_assignHiLo _ _
  | OP_MTHI | OP_MTLO => exact ends_assign (by decide)
  | OP_LB | OP_LBU => exact ends_loadByte h hi
  | OP_LH | OP_LHU => exact ends_loadAligned h hi .half _
  | OP_LW => exact ends_loadAligned h hi .word fun value => value
  | OP_LWL | OP_LWR => exact ends_loadPart h hi (hal hs) _
  | OP_SB => exact ends_store h _ .byte
  | OP_SH => exact ends_store h _ .half
  | OP_SW => exact ends_store h _ .word
  | OP_SWL | OP_SWR => exact ends_storePart h (hal hs) _
  | OP_SYSCALL | OP_RES | OP_UNIMP => exact ends_raise h (by decide) _
  | OP_RFE | SPECIAL | BCOND => cases hop
  | OP_ADDIU | OP_ANDI | OP_LUI | OP_ORI | OP_SLTI | OP_SLTIU | OP_XORI => exact ends_assign hrt
  | _ => exact ends_assign hrd

/-- The word at `PC`, where the fetch finds one. -/
def fetched (pageTable : List TranslationEntry) (m : Machine) : Option Word :=
  let pc := m.registers PCReg
  if (Access.read pc .word).Fits (pageTable.length * PageSize) then
    some (Flat.wordOf .word (((flat pageTable m).drop pc.toNat).take 4))
  else none

/-- What an instruction leaves of the registers, which were `r`. -/
structure Stepped (r : Nat → Word) (m : Machine) : Prop where
  zero : m.registers 0 = 0
  load : (m.registers LoadReg).toNat < NumGPRegs
  outside : ∀ i, NumTotalRegs ≤ i → m.registers i = r i

theorem Trapped.stepped {which : ExceptionType} (h : Trapped r which m) : Stepped r m :=
  ⟨h.zero, by rw [h.load]; exact noLoad, h.outside⟩

/-- The end of `OneInstruction`. -/
theorem Switched.stepped {next : Next} (h : Switched r next m)
    (hl : (r LoadReg).toNat < NumGPRegs) : Stepped r (advance next m) := by
  have hd := delayedLoad_spec (m := m) (h.load ▸ hl) next.nextLoadReg next.nextLoadValue
  have hother : ∀ i, i ≠ PrevPCReg → i ≠ PCReg → i ≠ NextPCReg →
      (advance next m).registers i =
        (m.delayedLoad next.nextLoadReg next.nextLoadValue).registers i := by
    intro i h₁ h₂ h₃
    show Function.update (Function.update (Function.update _ _ _) _ _) _ _ i = _
    rw [Function.update_of_ne h₃, Function.update_of_ne h₂, Function.update_of_ne h₁]
  refine ⟨?_, ?_, fun i hi => ?_⟩
  · rw [hother 0 (by decide) (by decide) (by decide)]
    exact hd.zero
  · rw [hother LoadReg (by decide) (by decide) (by decide), hd.load]
    exact h.nextLoad
  · unfold NumTotalRegs at hi
    rw [hother i (by unfold PrevPCReg; omega) (by unfold PCReg; omega)
      (by unfold NextPCReg; omega), hd.others i (by unfold NumGPRegs; omega)
      (by unfold LoadReg; omega) (by unfold LoadValueReg; omega)]
    exact h.outside i hi

/-- **When `OneInstruction` ends.** -/
theorem oneInstruction_ends (h : Sane pageTable m)
    (hs : ∀ raw, fetched pageTable m = some raw → ¬ Stumbles (decode raw) m.registers) :
    Ends oneInstruction m (fun _ => Stepped m.registers) (Trapped m.registers) := by
  refine Ends.bind (Ends.bind ?_)
  unfold Ends
  rcases readMem_eq h.runs (m.registers PCReg) .word with ⟨-, e⟩ | ⟨hf, m', e, hr, hregs, -⟩
  · rw [show readMem (m.registers PCReg) 4 m = _ from e]
    exact h.traps (by decide) _
  · rw [show readMem (m.registers PCReg) 4 m = _ from e]
    have hns := hs _ (if_pos hf)
    have hend := execute_ends (h.congr hr hregs) (decode_inRange _) (decode_decoded _) (hregs ▸ hns)
    rw [hregs] at hend
    exact Ends.bind (hend.mono (fun _ _ hq => hq.stepped h.load) fun _ _ he => he)

theorem oneInstruction_aborts (h : Sane pageTable m) {raw : Word}
    (hf : fetched pageTable m = some raw) (hs : Stumbles (decode raw) m.registers) :
    oneInstruction m = .aborted := by
  unfold fetched at hf
  dsimp only at hf
  split at hf
  · rename_i hfits
    rcases readMem_eq h.runs (m.registers PCReg) .word with ⟨hn, -⟩ | ⟨-, m', e, -, hregs, -⟩
    · exact absurd hfits hn
    · cases hf
      have hb : oneInstruction m = Exec.bind (readMem (m.registers PCReg) 4) _ m := rfl
      rw [hb, Exec.bind, show readMem (m.registers PCReg) 4 m = _ from e]
      show Exec.bind (execute _) _ m' = _
      rw [Exec.bind, execute_aborts (hregs ▸ hs)]
  · cases hf

end

end Machine

end Nachos
