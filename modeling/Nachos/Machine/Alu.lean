import Nachos.Machine.Multiply

/-!
# Machine — Alu

The integer instructions of `Machine::OneInstruction` (machine/mipssim.cc) against the manual of the
processor.  `Manual` writes down, from the fields of the instruction word, where an instruction puts
its result and which one (`Manual.destination`, `Manual.result`); it knows nothing of `Decode` and
of the `switch`.

`computed` is what the case of the `switch` assigns.  It is the manual's result except for three
opcodes (`computed_eq_iff`): `OP_OR` takes `rs` twice, and `OP_SRL` and `OP_SRLV` shift the `int`
`tmp`, so that copies of the sign come in from the left.  `OP_ADD`, `OP_ADDI` and `OP_SUB` raise an
exception exactly when the result does not fit (`add_overflow`, `sub_overflow`).
-/

namespace Nachos.Machine
open Exec

/-- The integer instructions that raise no exception, by their names in the manual. -/
inductive AluOp where
  | ADDU | ADDIU | SUBU | AND | ANDI | OR | ORI | XOR | XORI | NOR | LUI | SLL | SLLV | SRL | SRLV
  | SRA | SRAV | SLT | SLTI | SLTU | SLTIU
  deriving DecidableEq, Repr

/-- The opcode `Decode` has for an instruction. -/
def AluOp.opCode : AluOp → OpCode
  | ADDU => .OP_ADDU
  | ADDIU => .OP_ADDIU
  | SUBU => .OP_SUBU
  | AND => .OP_AND
  | ANDI => .OP_ANDI
  | OR => .OP_OR
  | ORI => .OP_ORI
  | XOR => .OP_XOR
  | XORI => .OP_XORI
  | NOR => .OP_NOR
  | LUI => .OP_LUI
  | SLL => .OP_SLL
  | SLLV => .OP_SLLV
  | SRL => .OP_SRL
  | SRLV => .OP_SRLV
  | SRA => .OP_SRA
  | SRAV => .OP_SRAV
  | SLT => .OP_SLT
  | SLTI => .OP_SLTI
  | SLTU => .OP_SLTU
  | SLTIU => .OP_SLTIU

/-- The instructions with an immediate operand. -/
def AluOp.immediate : AluOp → Bool
  | ADDIU | ANDI | ORI | XORI | LUI | SLTI | SLTIU => true
  | _ => false

/-! ### The manual -/

namespace Manual

/-- The fields of an instruction word. -/
def rs (raw : Word) : BitVec 5 := raw.extractLsb' 21 5
def rt (raw : Word) : BitVec 5 := raw.extractLsb' 16 5
def rd (raw : Word) : BitVec 5 := raw.extractLsb' 11 5
def shamt (raw : Word) : BitVec 5 := raw.extractLsb' 6 5
def immediate (raw : Word) : BitVec 16 := raw.extractLsb' 0 16

def signExtended (raw : Word) : Word := (immediate raw).signExtend 32
def zeroExtended (raw : Word) : Word := (immediate raw).setWidth 32

/-- The register of the result. -/
def destination (op : AluOp) (raw : Word) : Nat :=
  if op.immediate then (rt raw).toNat else (rd raw).toNat

/-- The result, from the contents `x` of `rs` and `y` of `rt`. -/
def result (op : AluOp) (raw x y : Word) : Word :=
  match op with
  | .ADDU => x + y
  | .ADDIU => x + signExtended raw
  | .SUBU => x - y
  | .AND => x &&& y
  | .ANDI => x &&& zeroExtended raw
  | .OR => x ||| y
  | .ORI => x ||| zeroExtended raw
  | .XOR => x ^^^ y
  | .XORI => x ^^^ zeroExtended raw
  | .NOR => ~~~(x ||| y)
  | .LUI => immediate raw ++ 0#16
  | .SLL => y <<< (shamt raw).toNat
  | .SLLV => y <<< (x.setWidth 5).toNat
  | .SRL => y >>> (shamt raw).toNat
  | .SRLV => y >>> (x.setWidth 5).toNat
  | .SRA => y.sshiftRight (shamt raw).toNat
  | .SRAV => y.sshiftRight (x.setWidth 5).toNat
  | .SLT => if x.toInt < y.toInt then 1 else 0
  | .SLTI => if x.toInt < (signExtended raw).toInt then 1 else 0
  | .SLTU => if x.toNat < y.toNat then 1 else 0
  | .SLTIU => if x.toNat < (signExtended raw).toNat then 1 else 0

/-- The machine `m'` after the instruction `raw` of the machine `m`.  The load in progress reaches
its register. -/
structure Follows (op : AluOp) (raw : Word) (m m' : Machine) : Prop where
  result : m'.registers (destination op raw) =
    result op raw (m.registers (rs raw).toNat) (m.registers (rt raw).toNat)
  others : ∀ i, i < NumGPRegs → i ≠ 0 → i ≠ destination op raw → m'.registers i =
    if i = (m.registers LoadReg).toNat then m.registers LoadValueReg else m.registers i
  zero : m'.registers 0 = 0
  pc : m'.registers PCReg = m.registers NextPCReg
  nextPC : m'.registers NextPCReg = m.registers NextPCReg + 4

end Manual

/-! ### Decoding the fields -/

section
variable (raw : Word)

theorem and_mask (x : Word) {n : Nat} (hn : n < 32) :
    (x &&& BitVec.ofNat 32 (2 ^ n - 1)).toNat = x.toNat % 2 ^ n := by
  have hlt : 2 ^ n < 2 ^ 32 := Nat.pow_lt_pow_right (by decide) hn
  rw [BitVec.toNat_and, BitVec.toNat_ofNat, Nat.mod_eq_of_lt (by omega),
    Nat.and_two_pow_sub_one_eq_mod]

/-- A field of five bits. -/
theorem field_eq (start : Nat) :
    ((raw >>> start) &&& 0x1f).toNat = (raw.extractLsb' start 5).toNat := by
  rw [BitVec.extractLsb'_toNat, ← BitVec.toNat_ushiftRight]
  exact and_mask (n := 5) (raw >>> start) (by decide)

theorem and_lowBits : (raw &&& 0xffff).toNat = (Manual.immediate raw).toNat := by
  rw [Manual.immediate, BitVec.extractLsb'_toNat, Nat.shiftRight_zero]
  exact and_mask (n := 16) raw (by decide)

theorem zeroExtended_eq : Manual.zeroExtended raw = raw &&& 0xffff := by
  apply BitVec.eq_of_toNat_eq
  rw [and_lowBits, Manual.zeroExtended, BitVec.toNat_setWidth]
  exact Nat.mod_eq_of_lt (by omega)

/-- The sign of the immediate operand. -/
theorem and_immediateSign : raw &&& 0xffff &&& 0x8000 ≠ 0 ↔ (Manual.immediate raw).msb = true := by
  have hbit : (raw &&& 0xffff).getLsbD 15 = (Manual.immediate raw).msb := by
    rw [BitVec.msb_eq_getLsbD_last, BitVec.getLsbD, and_lowBits]
    rfl
  rw [show (0x8000 : Word) = BitVec.twoPow 32 15 from rfl, BitVec.and_twoPow, hbit]
  cases (Manual.immediate raw).msb <;> decide

/-- `extra |= 0xffff0000`. -/
theorem or_highBits : (raw &&& 0xffff ||| 0xffff0000).toNat =
    (Manual.immediate raw).toNat + 0xffff0000 := by
  rw [BitVec.toNat_or, and_lowBits, Nat.or_comm, Nat.add_comm]
  exact (Nat.two_pow_add_eq_or_of_lt (i := 16) (Manual.immediate raw).isLt 0xffff).symm

theorem signExtended_eq : (if raw &&& 0xffff &&& 0x8000 ≠ 0 then raw &&& 0xffff ||| 0xffff0000
    else raw &&& 0xffff) = Manual.signExtended raw := by
  have himm := (Manual.immediate raw).isLt
  have hset : ((Manual.immediate raw).setWidth 32).toNat = (Manual.immediate raw).toNat := by
    rw [BitVec.toNat_setWidth, Nat.mod_eq_of_lt (by omega)]
  apply BitVec.eq_of_toNat_eq
  rw [Manual.signExtended, BitVec.toNat_signExtend, hset]
  by_cases h : (Manual.immediate raw).msb = true
  · rw [if_pos ((and_immediateSign raw).mpr h), if_pos h, or_highBits]
  · rw [if_neg (mt (and_immediateSign raw).mp h), if_neg h, and_lowBits]
    rfl

/-- The opcodes with a signed immediate operand, and those with a shift amount. -/
def immediateOps : List OpCode :=
  [.OP_ADDI, .OP_ADDIU, .OP_ANDI, .OP_ORI, .OP_XORI, .OP_LUI, .OP_SLTI, .OP_SLTIU]
def shiftOps : List OpCode := [.OP_SLL, .OP_SRL, .OP_SRA]

/-- What the two tables say of them. -/
theorem opTable_formats (e : OpCode × Format) (h : e ∈ opTable) :
    (e.1 ∈ immediateOps → e.2 = .IFMT) ∧ e.1 ∉ shiftOps ∧ (e.1 = .SPECIAL → e.2 = .RFMT) := by
  revert e
  decide

theorem specialTable_formats (op : OpCode) (h : op ∈ specialTable) : op ∉ immediateOps := by
  revert op
  decide

/-- The entry of `opTable` for an instruction word, and the ways on from it. -/
theorem decode_entry : ∃ e ∈ opTable,
    (e.2 = .IFMT → (decode raw).extra = Manual.signExtended raw) ∧
    (e.2 = .RFMT → (decode raw).extra = (raw >>> 6) &&& 0x1f) ∧
    ((e.1 = .SPECIAL ∧ (decode raw).opCode ∈ specialTable) ∨
      (decode raw).opCode ∉ immediateOps ∧ (decode raw).opCode ∉ shiftOps ∨
      (decode raw).opCode = e.1) := by
  have he := getD_mem (l := opTable) (a := (.OP_RES, .IFMT)) (i := ((raw >>> 26) &&& 0x3f).toNat)
    (Nat.lt_of_le_of_lt (and_toNat_lt (n := 0x3f) _ (by decide)) (by decide))
  have hop := getD_mem (l := specialTable) (a := .OP_RES) (i := (raw &&& 0x3f).toNat)
    (Nat.lt_of_le_of_lt (and_toNat_lt (n := 0x3f) _ (by decide)) (by decide))
  refine ⟨_, he, ?_⟩
  rw [← signExtended_eq]
  unfold decode
  dsimp only
  generalize opTable.getD ((raw >>> 26) &&& 0x3f).toNat (.OP_RES, .IFMT) = e
  obtain ⟨c, f⟩ := e
  refine ⟨?_, ?_, ?_⟩
  · rintro rfl
    rfl
  · rintro rfl
    rfl
  · dsimp only
    split
    · exact .inl ⟨rfl, hop⟩
    · refine .inr (.inl ?_)
      repeat' split
      all_goals decide
    · exact .inr (.inr rfl)

theorem decode_immediate (h : (decode raw).opCode ∈ immediateOps) :
    (decode raw).extra = Manual.signExtended raw := by
  obtain ⟨e, he, hi, -, ⟨-, hop⟩ | ⟨hn, -⟩ | hc⟩ := decode_entry raw
  · exact absurd h (specialTable_formats _ hop)
  · exact absurd h hn
  · exact hi ((opTable_formats e he).1 (hc ▸ h))

theorem decode_shift (h : (decode raw).opCode ∈ shiftOps) :
    (decode raw).extra.toNat = (Manual.shamt raw).toNat := by
  obtain ⟨e, he, -, hr, ⟨hs, -⟩ | ⟨-, hn⟩ | hc⟩ := decode_entry raw
  · rw [hr ((opTable_formats e he).2.2 hs)]
    exact field_eq raw 6
  · exact absurd h hn
  · exact absurd (hc ▸ h) (opTable_formats e he).2.1

end

/-! ### What the `switch` assigns -/

/-- The value that the case of the `switch` for `op` assigns. -/
def computed (op : AluOp) (extra rs rt : Word) : Word :=
  match op with
  | .ADDU => rs + rt
  | .ADDIU => rs + extra
  | .SUBU => rs - rt
  | .AND => rs &&& rt
  | .ANDI => rs &&& (extra &&& 0xffff)
  | .OR => rs ||| rs
  | .ORI => rs ||| (extra &&& 0xffff)
  | .XOR => rs ^^^ rt
  | .XORI => rs ^^^ (extra &&& 0xffff)
  | .NOR => ~~~(rs ||| rt)
  | .LUI => extra <<< 16
  | .SLL => rt <<< extra.toNat
  | .SLLV => rt <<< (rs &&& 0x1f).toNat
  | .SRL | .SRA => rt.sshiftRight extra.toNat
  | .SRLV | .SRAV => rt.sshiftRight (rs &&& 0x1f).toNat
  | .SLT => flag (rs.slt rt)
  | .SLTI => flag (rs.slt extra)
  | .SLTU => flag (rs.ult rt)
  | .SLTIU => flag (rs.ult extra)

theorem execute_alu {instr : Instruction} {op : AluOp} (hop : instr.opCode = op.opCode)
    (m : Machine) : execute instr m = .ok ⟨0, 0, m.registers NextPCReg + 4⟩
      (m.setRegister (if op.immediate then instr.rt else instr.rd)
        (computed op instr.extra (m.registers instr.rs) (m.registers instr.rt))) := by
  obtain ⟨opCode, rs, rt, rd, extra⟩ := instr
  subst hop
  cases op <;> rfl

/-- The operands on which the simulator follows the manual: for `OR`, every bit of `rt` is one of
`rs`; for the logical shifts to the right, there is no sign to copy or no place to shift. -/
def Manual.Simulated (op : AluOp) (raw x y : Word) : Prop :=
  match op with
  | .OR => y &&& ~~~x = 0
  | .SRL => y.msb = false ∨ shamt raw = 0
  | .SRLV => y.msb = false ∨ x.setWidth 5 = 0
  | _ => True

section
variable {raw : Word}

/-- `rs | rs` misses no bit of `rt` when there is none but those of `rs`. -/
theorem or_self_eq_iff (x y : Word) : x ||| x = x ||| y ↔ y &&& ~~~x = 0 := by
  have hbits : ∀ p q : Bool, p = (p || q) ↔ (q && !p) = false := by decide
  have hbit : ∀ i, i < 32 → (x.getLsbD i = (x ||| y).getLsbD i ↔
      (y &&& ~~~x).getLsbD i = (0#32).getLsbD i) := by
    intro i hi
    rw [BitVec.getLsbD_or, BitVec.getLsbD_and, BitVec.getLsbD_not, BitVec.getLsbD_zero,
      decide_eq_true hi, Bool.true_and]
    exact hbits _ _
  rw [BitVec.or_self]
  constructor
  · intro h
    exact BitVec.eq_of_getLsbD_eq fun i hi => (hbit i hi).mp (congrArg (BitVec.getLsbD · i) h)
  · intro h
    exact BitVec.eq_of_getLsbD_eq fun i hi => (hbit i hi).mpr (congrArg (BitVec.getLsbD · i) h)

/-- Where there is a sign to copy, a shift of the `int` shows. -/
theorem sshiftRight_eq_iff (y : Word) (s : BitVec 5) :
    y.sshiftRight s.toNat = y >>> s.toNat ↔ y.msb = false ∨ s = 0 := by
  constructor
  · intro h
    have hmsb := congrArg BitVec.msb h
    rw [BitVec.msb_sshiftRight, BitVec.msb_ushiftRight] at hmsb
    by_cases hs : s.toNat = 0
    · exact .inr (BitVec.eq_of_toNat_eq hs)
    · rw [decide_eq_true (Nat.pos_of_ne_zero hs), Bool.not_true, Bool.false_and] at hmsb
      exact .inl hmsb
  · rintro (h | rfl)
    · exact BitVec.sshiftRight_eq_of_msb_false h
    · exact (BitVec.sshiftRight_zero ..).trans (BitVec.ushiftRight_zero ..).symm

theorem signExtended_mod (raw : Word) :
    (Manual.signExtended raw).toNat % 2 ^ 16 = (Manual.immediate raw).toNat := by
  have himm := (Manual.immediate raw).isLt
  rw [Manual.signExtended, BitVec.toNat_signExtend, BitVec.toNat_setWidth]
  split <;> omega

theorem signExtended_mask (raw : Word) :
    Manual.signExtended raw &&& 0xffff = Manual.zeroExtended raw := by
  apply BitVec.eq_of_toNat_eq
  rw [zeroExtended_eq, and_lowBits raw, ← signExtended_mod raw]
  exact and_mask (n := 16) (Manual.signExtended raw) (by decide)

theorem signExtended_shift (raw : Word) :
    Manual.signExtended raw <<< 16 = Manual.immediate raw ++ 0#16 := by
  have hmod := signExtended_mod raw
  have hlt := (Manual.signExtended raw).isLt
  apply BitVec.eq_of_toNat_eq
  rw [BitVec.toNat_shiftLeft, BitVec.toNat_append, Nat.shiftLeft_eq, Nat.shiftLeft_eq, ← hmod,
    show (0#16).toNat = 0 from rfl, Nat.or_zero]
  omega

theorem and_lowFive (x : Word) : (x &&& 0x1f).toNat = (x.setWidth 5).toNat := by
  rw [BitVec.toNat_setWidth]
  exact and_mask (n := 5) x (by decide)

theorem flag_decide (p : Prop) [Decidable p] : flag (decide p) = if p then 1 else 0 := by
  by_cases h : p <;> simp [flag, h]

/-- **The `switch` and the manual**: which operands they agree on. -/
theorem computed_eq_iff {op : AluOp} (hop : (decode raw).opCode = op.opCode) (x y : Word) :
    computed op (decode raw).extra x y = Manual.result op raw x y ↔
      Manual.Simulated op raw x y := by
  have himm : op.opCode ∈ immediateOps → (decode raw).extra = Manual.signExtended raw :=
    fun h => decode_immediate raw (hop ▸ h)
  have hshift : op.opCode ∈ shiftOps → (decode raw).extra.toNat = (Manual.shamt raw).toNat :=
    fun h => decode_shift raw (hop ▸ h)
  cases op with
  | OR => exact or_self_eq_iff x y
  | SRL =>
      rw [computed, hshift (by decide)]
      exact sshiftRight_eq_iff y (Manual.shamt raw)
  | SRLV =>
      rw [computed, and_lowFive]
      exact sshiftRight_eq_iff y (x.setWidth 5)
  | ADDIU =>
      rw [computed, himm (by decide)]
      exact iff_of_true rfl trivial
  | ANDI | ORI | XORI =>
      rw [computed, himm (by decide), signExtended_mask]
      exact iff_of_true rfl trivial
  | LUI =>
      rw [computed, himm (by decide), signExtended_shift]
      exact iff_of_true rfl trivial
  | SLL | SRA =>
      rw [computed, hshift (by decide)]
      exact iff_of_true rfl trivial
  | SLLV | SRAV =>
      rw [computed, and_lowFive]
      exact iff_of_true rfl trivial
  | SLT | SLTU => exact iff_of_true (flag_decide _) trivial
  | SLTI | SLTIU =>
      rw [computed, himm (by decide)]
      exact iff_of_true (flag_decide _) trivial
  | ADDU | SUBU | AND | XOR | NOR => exact iff_of_true rfl trivial

end

/-! ### One instruction -/

section
variable {m m₁ : Machine} {raw : Word}

/-- `ReadMem` changes no register. -/
theorem readMem_registers {addr value : Word} {size : Nat}
    (h : readMem addr size m = .ok value m₁) : m₁.registers = m.registers := by
  have hb : readMem addr size m = Exec.bind (translate addr size false) _ m := rfl
  rw [hb, Exec.bind] at h
  rcases translate_cases addr size false m with ⟨e, ht⟩ | ht | ⟨pageTable, entry, -, -, -, ht⟩
  · rw [ht] at h
    cases h
  · rw [ht] at h
    cases h
  · rw [ht] at h
    have hg : ∀ {f : Machine → Exec Word} {m : Machine},
        (do let m ← Exec.get; f m : Exec Word) m = f m m := rfl
    dsimp only at h
    rw [hg] at h
    split at h
    · cases h; rfl
    · cases h; rfl
    · cases h; rfl
    · cases h

/-- `OneInstruction`, behind the fetch. -/
theorem oneInstruction_eq (hf : readMem (m.registers PCReg) 4 m = .ok raw m₁) :
    oneInstruction m = Exec.bind (execute (decode raw)) (fun next => Exec.modify (advance next)) m₁ := by
  have hb : oneInstruction m = Exec.bind (readMem (m.registers PCReg) 4) _ m := rfl
  rw [hb, Exec.bind, hf]
  rfl

theorem destination_eq (op : AluOp) :
    (if op.immediate then (decode raw).rt else (decode raw).rd) = Manual.destination op raw := by
  unfold Manual.destination
  rw [← show (decode raw).rt = (Manual.rt raw).toNat from field_eq raw 16,
    ← show (decode raw).rd = (Manual.rd raw).toNat from field_eq raw 11]

theorem destination_lt (op : AluOp) (raw : Word) : Manual.destination op raw < NumGPRegs := by
  unfold Manual.destination
  split
  · exact (Manual.rt raw).isLt
  · exact (Manual.rd raw).isLt

/-- What an instruction that assigns `value` to the register `d` leaves. -/
structure Assigned (d : Nat) (value : Word) (m m' : Machine) : Prop where
  value : (m.registers LoadReg).toNat ≠ d → m'.registers d = value
  others : ∀ i, i < NumGPRegs → i ≠ 0 → i ≠ d → m'.registers i =
    if i = (m.registers LoadReg).toNat then m.registers LoadValueReg else m.registers i
  pc : m'.registers PCReg = m.registers NextPCReg
  nextPC : m'.registers NextPCReg = m.registers NextPCReg + 4

theorem advance_assigned {d : Nat} (value : Word) (hd : d < NumGPRegs) (h0 : d ≠ 0)
    (hl : (m.registers LoadReg).toNat < NumGPRegs) (hregs : m₁.registers = m.registers) :
    Assigned d value m
      (advance ⟨0, 0, m₁.registers NextPCReg + 4⟩ (m₁.setRegister d value)) := by
  have hset : ∀ i, i ≠ d → (m₁.setRegister d value).registers i = m.registers i := fun i hi => by
    rw [← hregs]
    exact Function.update_of_ne hi _ _
  have hbig : ∀ i, NumGPRegs ≤ i → i ≠ d := fun i hi => by omega
  have hload := hset LoadReg (hbig _ (by decide))
  have hcount := advance_counters ⟨0, 0, m₁.registers NextPCReg + 4⟩ (m₁.setRegister d value)
    (by rw [hload]; exact hl)
  refine ⟨fun hne => ?_, fun i hi hi0 hid => ?_, ?_, ?_⟩
  · rw [advance_general _ _ hd h0, hload, if_neg (Ne.symm hne)]
    exact Function.update_self _ _ _
  · rw [advance_general _ _ hi hi0, hload, hset _ (hbig _ (by decide)), hset i hid]
  · rw [hcount.1, hset _ (hbig _ (by decide))]
  · rw [hcount.2, hregs]

/-- **The ALU and the manual.**  An integer instruction that is fetched is executed as the manual
says if and only if, for `OR`, every bit of `rt` is one of `rs`, and for `SRL` and `SRLV`, `rt` is
not negative or shifted by nothing.  The load in progress is for a general register, as on every
run, and for another one than the result. -/
theorem alu_follows_manual_iff {op : AluOp}
    (hf : readMem (m.registers PCReg) 4 m = .ok raw m₁) (hop : (decode raw).opCode = op.opCode)
    (h0 : Manual.destination op raw ≠ 0) (hl : (m.registers LoadReg).toNat < NumGPRegs)
    (hne : (m.registers LoadReg).toNat ≠ Manual.destination op raw) :
    (∃ m', oneInstruction m = .ok () m' ∧ Manual.Follows op raw m m') ↔
      Manual.Simulated op raw (m.registers (Manual.rs raw).toNat)
        (m.registers (Manual.rt raw).toNat) := by
  have hregs := readMem_registers hf
  have hrs : (decode raw).rs = (Manual.rs raw).toNat := field_eq raw 21
  have hrt : (decode raw).rt = (Manual.rt raw).toNat := field_eq raw 16
  have hone := oneInstruction_eq hf
  rw [Exec.bind, execute_alu hop, destination_eq, hrs, hrt, hregs] at hone
  have hall := advance_assigned (computed op (decode raw).extra
    (m.registers (Manual.rs raw).toNat) (m.registers (Manual.rt raw).toNat))
    (destination_lt op raw) h0 hl hregs
  rw [hregs] at hall
  rw [← computed_eq_iff hop]
  constructor
  · rintro ⟨m', hm', hfol⟩
    rw [hone] at hm'
    cases hm'
    rw [← hfol.result]
    exact (hall.value hne).symm
  · intro h
    exact ⟨_, hone, (hall.value hne).trans h, hall.others, rfl, hall.pc, hall.nextPC⟩

end

/-- A machine at the instruction `raw`, with `x` in register 1 and `y` in register 2. -/
def machineAt (raw x y : Word) : Machine where
  registers i := if i = 1 then x else if i = 2 then y else if i = NextPCReg then 4 else 0
  mainMemory i := raw.extractLsb' (8 * i) 8
  pageTable := some [⟨0, 0, true, false, false, false⟩]
  pageTableSize := 1

/-- `or $3, $1, $2` with 1 and 2, and `srl $3, $2, 1` with a negative number. -/
theorem alu_misses_manual :
    (∃ m₁ m', readMem ((machineAt 0x00221825 1 2).registers PCReg) 4 (machineAt 0x00221825 1 2) =
        .ok 0x00221825 m₁ ∧ (decode 0x00221825).opCode = AluOp.OR.opCode ∧
      Manual.destination .OR 0x00221825 = 3 ∧ (machineAt 0x00221825 1 2).registers LoadReg = 0 ∧
      oneInstruction (machineAt 0x00221825 1 2) = .ok () m' ∧ m'.registers 3 = 1 ∧
      ¬ Manual.Follows .OR 0x00221825 (machineAt 0x00221825 1 2) m') ∧
    ∃ m₁ m', readMem ((machineAt 0x00021842 0 0x80000000).registers PCReg) 4
        (machineAt 0x00021842 0 0x80000000) = .ok 0x00021842 m₁ ∧
      (decode 0x00021842).opCode = AluOp.SRL.opCode ∧ Manual.destination .SRL 0x00021842 = 3 ∧
      (machineAt 0x00021842 0 0x80000000).registers LoadReg = 0 ∧
      oneInstruction (machineAt 0x00021842 0 0x80000000) = .ok () m' ∧
      m'.registers 3 = 0xc0000000 ∧
      ¬ Manual.Follows .SRL 0x00021842 (machineAt 0x00021842 0 0x80000000) m' := by
  refine ⟨⟨_, _, rfl, by decide, by decide, by decide, rfl, by decide, fun h => ?_⟩,
    ⟨_, _, rfl, by decide, by decide, by decide, rfl, by decide, fun h => ?_⟩⟩
  · exact absurd h.result (by decide)
  · exact absurd h.result (by decide)

/-- `srlv $3, $2, $1` with a positive number. -/
theorem alu_follows_manual_srlv :
    ∃ m', oneInstruction (machineAt 0x00221806 33 6) = .ok () m' ∧
      Manual.Follows .SRLV 0x00221806 (machineAt 0x00221806 33 6) m' ∧ m'.registers 3 = 3 := by
  obtain ⟨m', hm', hfol⟩ := (alu_follows_manual_iff (m := machineAt 0x00221806 33 6)
    (show readMem 0 4 _ = .ok 0x00221806 _ from rfl)
    (show (decode 0x00221806).opCode = AluOp.SRLV.opCode by decide) (by decide) (by decide)
    (by decide)).mpr
    (.inl (by decide))
  exact ⟨m', hm', hfol, hfol.result⟩

/-! ### Overflow -/

/-- The integer instructions that raise an exception on overflow. -/
inductive TrapOp where
  | ADD | ADDI | SUB
  deriving DecidableEq, Repr

def TrapOp.opCode : TrapOp → OpCode
  | ADD => .OP_ADD
  | ADDI => .OP_ADDI
  | SUB => .OP_SUB

namespace Manual

/-- The register of the result of an instruction that may overflow. -/
def trapDestination (op : TrapOp) (raw : Word) : Nat :=
  if op = .ADDI then (rt raw).toNat else (rd raw).toNat

/-- The sum or difference, as a number. -/
def exactResult (op : TrapOp) (raw x y : Word) : Int :=
  match op with
  | .ADD => x.toInt + y.toInt
  | .ADDI => x.toInt + (signExtended raw).toInt
  | .SUB => x.toInt - y.toInt

/-- A number that fits a word. -/
def Fits (v : Int) : Prop := -2 ^ 31 ≤ v ∧ v ≤ 2 ^ 31 - 1

instance (v : Int) : Decidable (Fits v) := inferInstanceAs (Decidable (_ ∧ _))

end Manual

/-- The condition of the case of the `switch`, and what it assigns otherwise. -/
def overflows (op : TrapOp) (extra rs rt : Word) : Prop :=
  match op with
  | .ADD => (rs ^^^ rt) &&& SIGN_BIT = 0 ∧ (rs ^^^ (rs + rt)) &&& SIGN_BIT ≠ 0
  | .ADDI => (rs ^^^ extra) &&& SIGN_BIT = 0 ∧ (extra ^^^ (rs + extra)) &&& SIGN_BIT ≠ 0
  | .SUB => (rs ^^^ rt) &&& SIGN_BIT ≠ 0 ∧ (rs ^^^ (rs - rt)) &&& SIGN_BIT ≠ 0

def wrapped (op : TrapOp) (extra rs rt : Word) : Word :=
  match op with
  | .ADD => rs + rt
  | .ADDI => rs + extra
  | .SUB => rs - rt

theorem xor_signBit (x y : Word) :
    (x ^^^ y) &&& SIGN_BIT = 0 ↔ (x.toInt < 0 ↔ y.toInt < 0) := by
  have hsign : ∀ z : Word, z.msb = decide (z.toInt < 0) := fun z => BitVec.msb_eq_toInt
  have hmsb : (x ^^^ y) &&& SIGN_BIT = 0 ↔ (x ^^^ y).msb = false := by
    rw [and_signBit, BitVec.msb_eq_decide, decide_eq_false_iff_not, Nat.not_le]
  rw [hmsb, BitVec.msb_xor, hsign, hsign]
  by_cases hx : x.toInt < 0 <;> by_cases hy : y.toInt < 0 <;> simp [hx, hy]

theorem toInt_bounds (x : Word) : -2 ^ 31 ≤ x.toInt ∧ x.toInt < 2 ^ 31 := by
  have hx := x.isLt
  have hint := BitVec.toInt_eq_toNat_cond x
  split at hint <;> omega

/-- A number and the word it is cut to differ by a multiple of `2 ^ 32`. -/
theorem bmod_word (v : Int) : ∃ k : Int, v.bmod (2 ^ 32) = v + 2 ^ 32 * k := by
  have h := Int.bmod_add_bdiv v (2 ^ 32)
  exact ⟨-v.bdiv (2 ^ 32), by omega⟩

/-- A sum overflows where the operands have one sign and the wrapped sum the other. -/
theorem add_overflow (x y : Word) : ((x.toInt < 0 ↔ y.toInt < 0) ∧
    ¬ (x.toInt < 0 ↔ (x + y).toInt < 0)) ↔ ¬ Manual.Fits (x.toInt + y.toInt) := by
  have hx := toInt_bounds x
  have hy := toInt_bounds y
  have hz := toInt_bounds (x + y)
  obtain ⟨k, hk⟩ := bmod_word (x.toInt + y.toInt)
  rw [← BitVec.toInt_add] at hk
  unfold Manual.Fits
  omega

/-- A difference overflows where the operands have two signs and the wrapped difference that of the
second. -/
theorem sub_overflow (x y : Word) : (¬ (x.toInt < 0 ↔ y.toInt < 0) ∧
    ¬ (x.toInt < 0 ↔ (x - y).toInt < 0)) ↔ ¬ Manual.Fits (x.toInt - y.toInt) := by
  have hx := toInt_bounds x
  have hy := toInt_bounds y
  have hz := toInt_bounds (x - y)
  obtain ⟨k, hk⟩ := bmod_word (x.toInt - y.toInt)
  rw [← BitVec.toInt_sub] at hk
  unfold Manual.Fits
  omega

/-- A number that fits is not changed by wrapping. -/
theorem bmod_fits {v : Int} (h : Manual.Fits v) : v.bmod (2 ^ 32) = v := by
  unfold Manual.Fits at h
  exact Int.bmod_eq_of_le (by omega) (by omega)

section
variable {raw : Word} {op : TrapOp}

theorem trap_extra (hop : (decode raw).opCode = op.opCode) (h : op = .ADDI) :
    (decode raw).extra = Manual.signExtended raw := by
  apply decode_immediate
  rw [hop, h]
  decide

/-- **The three conditions of the `switch` are one**: the number does not fit. -/
theorem overflows_iff (hop : (decode raw).opCode = op.opCode) (x y : Word) :
    overflows op (decode raw).extra x y ↔ ¬ Manual.Fits (Manual.exactResult op raw x y) := by
  cases op with
  | ADD =>
      rw [overflows, ne_eq, xor_signBit, xor_signBit]
      exact add_overflow x y
  | ADDI =>
      rw [overflows, trap_extra hop rfl, ne_eq, xor_signBit, xor_signBit, Manual.exactResult,
        ← add_overflow]
      -- the immediate operand has the sign of `rs` here
      constructor
      · intro h
        exact ⟨h.1, fun hx => h.2 (h.1.symm.trans hx)⟩
      · intro h
        exact ⟨h.1, fun hx => h.2 (h.1.trans hx)⟩
  | SUB =>
      rw [overflows, ne_eq, ne_eq, xor_signBit, xor_signBit]
      exact sub_overflow x y

theorem wrapped_toInt (hop : (decode raw).opCode = op.opCode) {x y : Word}
    (h : Manual.Fits (Manual.exactResult op raw x y)) :
    (wrapped op (decode raw).extra x y).toInt = Manual.exactResult op raw x y := by
  cases op with
  | ADD =>
      rw [wrapped, BitVec.toInt_add]
      exact bmod_fits h
  | ADDI =>
      rw [wrapped, trap_extra hop rfl, BitVec.toInt_add]
      exact bmod_fits h
  | SUB =>
      rw [wrapped, BitVec.toInt_sub]
      exact bmod_fits h

theorem execute_overflow {instr : Instruction} (hop : instr.opCode = op.opCode) {m : Machine}
    (h : overflows op instr.extra (m.registers instr.rs) (m.registers instr.rt)) :
    execute instr m = raiseException .overflowException 0 m := by
  obtain ⟨opCode, rs, rt, rd, extra⟩ := instr
  subst hop
  cases op with
  | ADD | ADDI | SUB => exact congrFun (if_pos h) m

theorem execute_wrapped {instr : Instruction} (hop : instr.opCode = op.opCode) {m : Machine}
    (h : ¬ overflows op instr.extra (m.registers instr.rs) (m.registers instr.rt)) :
    execute instr m = .ok ⟨0, 0, m.registers NextPCReg + 4⟩
      (m.setRegister (if op = .ADDI then instr.rt else instr.rd)
        (wrapped op instr.extra (m.registers instr.rs) (m.registers instr.rt))) := by
  obtain ⟨opCode, rs, rt, rd, extra⟩ := instr
  subst hop
  cases op with
  | ADD | ADDI | SUB => exact congrFun (if_neg h) m

/-- The machine `m'` an exception leaves of `m`: nothing is changed, except that the load in
progress reaches its register. -/
structure Interrupted (m m' : Machine) : Prop where
  general : ∀ i, i < NumGPRegs → i ≠ 0 → m'.registers i =
    if i = (m.registers LoadReg).toNat then m.registers LoadValueReg else m.registers i
  zero : m'.registers 0 = 0
  pc : m'.registers PCReg = m.registers PCReg
  nextPC : m'.registers NextPCReg = m.registers NextPCReg

theorem interrupted_of_raise {m m₁ : Machine} (hl : (m.registers LoadReg).toNat < NumGPRegs)
    (hregs : m₁.registers = m.registers) (badVAddr : Word) :
    Interrupted m ((m₁.setRegister BadVAddrReg badVAddr).delayedLoad 0 0) := by
  have hset : ∀ i, i ≠ BadVAddrReg →
      (m₁.setRegister BadVAddrReg badVAddr).registers i = m.registers i := fun i hi => by
    rw [← hregs]
    exact Function.update_of_ne hi _ _
  have hload := hset LoadReg (by decide)
  have hd := delayedLoad_spec (m := m₁.setRegister BadVAddrReg badVAddr)
    (by rw [hload]; exact hl) 0 0
  refine ⟨fun i hi hi0 => ?_, hd.zero, ?_, ?_⟩
  · rw [delayedLoad_general _ _ _ hi hi0, hload, hset LoadValueReg (by decide),
      hset i (by unfold NumGPRegs at hi; unfold BadVAddrReg; omega)]
  · rw [hd.others PCReg (by decide) (by decide) (by decide), hset _ (by decide)]
  · rw [hd.others NextPCReg (by decide) (by decide) (by decide), hset _ (by decide)]

theorem trapDestination_eq :
    (if op = .ADDI then (decode raw).rt else (decode raw).rd) = Manual.trapDestination op raw := by
  unfold Manual.trapDestination
  rw [← show (decode raw).rt = (Manual.rt raw).toNat from field_eq raw 16,
    ← show (decode raw).rd = (Manual.rd raw).toNat from field_eq raw 11]

theorem trapDestination_lt (op : TrapOp) (raw : Word) :
    Manual.trapDestination op raw < NumGPRegs := by
  unfold Manual.trapDestination
  split
  · exact (Manual.rt raw).isLt
  · exact (Manual.rd raw).isLt

/-- **Overflow.**  `ADD`, `ADDI` and `SUB`, once fetched, raise an overflow exception if and only if
the sum or difference of the numbers does not fit, and then nothing is changed; otherwise the
register of the result has the number.  The load in progress is for a general register, as on every
run. -/
theorem overflow_raised_iff {m m₁ : Machine}
    (hf : readMem (m.registers PCReg) 4 m = .ok raw m₁) (hop : (decode raw).opCode = op.opCode)
    (hl : (m.registers LoadReg).toNat < NumGPRegs) {v : Int}
    (hv : v = Manual.exactResult op raw (m.registers (Manual.rs raw).toNat)
      (m.registers (Manual.rt raw).toNat)) :
    ((∃ m', oneInstruction m = .raised .overflowException m') ↔ ¬ Manual.Fits v) ∧
    (∀ m', oneInstruction m = .raised .overflowException m' → Interrupted m m') ∧
    (Manual.Fits v → ∃ m', oneInstruction m = .ok () m' ∧
      (Manual.trapDestination op raw ≠ 0 →
        (m.registers LoadReg).toNat ≠ Manual.trapDestination op raw →
        (m'.registers (Manual.trapDestination op raw)).toInt = v)) := by
  subst hv
  have hregs := readMem_registers hf
  have hrs : (decode raw).rs = (Manual.rs raw).toNat := field_eq raw 21
  have hrt : (decode raw).rt = (Manual.rt raw).toNat := field_eq raw 16
  have hover := overflows_iff hop (m.registers (decode raw).rs) (m.registers (decode raw).rt)
  have hone := oneInstruction_eq hf
  rw [Exec.bind] at hone
  by_cases ho : overflows op (decode raw).extra (m.registers (decode raw).rs)
      (m.registers (decode raw).rt)
  · rw [execute_overflow hop (by rw [hregs]; exact ho)] at hone
    have hnot := hover.mp ho
    rw [hrs, hrt] at hnot
    refine ⟨iff_of_true ⟨_, hone⟩ hnot, fun m' hm' => ?_, fun hfit => absurd hfit hnot⟩
    rw [hone] at hm'
    cases hm'
    exact interrupted_of_raise hl hregs 0
  · rw [execute_wrapped hop (by rw [hregs]; exact ho), trapDestination_eq, hregs] at hone
    have hfit := not_not.mp (mt hover.mpr ho)
    have hval := wrapped_toInt hop hfit
    rw [hrs, hrt] at hfit hval hone
    refine ⟨iff_of_false ?_ (not_not.mpr hfit), fun m' hm' => ?_, fun _ => ⟨_, hone, ?_⟩⟩
    · rintro ⟨m', hm'⟩
      rw [hone] at hm'
      cases hm'
    · rw [hone] at hm'
      cases hm'
    · intro h0 hne
      have hall := advance_assigned (wrapped op (decode raw).extra
        (m.registers (Manual.rs raw).toNat) (m.registers (Manual.rt raw).toNat))
        (trapDestination_lt op raw) h0 hl hregs
      rw [hregs] at hall
      rw [hall.value hne]
      exact hval

end

/-- `addi $3, $1, -1` at the least number, and behind it. -/
theorem overflow_raised_addi :
    (∃ m', oneInstruction (machineAt 0x2023ffff 0x80000000 0) =
      .raised .overflowException m' ∧ m'.registers PCReg = 0) ∧
    ∃ m', oneInstruction (machineAt 0x2023ffff 0x80000001 0) = .ok () m' ∧
      (m'.registers 3).toInt = -2 ^ 31 := by
  have hop : (decode 0x2023ffff).opCode = TrapOp.ADDI.opCode := by decide
  obtain ⟨hraised, hstays, -⟩ := overflow_raised_iff (m := machineAt 0x2023ffff 0x80000000 0)
    rfl hop (by decide) rfl
  obtain ⟨-, -, hok⟩ := overflow_raised_iff (m := machineAt 0x2023ffff 0x80000001 0)
    rfl hop (by decide) rfl
  obtain ⟨m', hm'⟩ := hraised.mpr (by decide)
  obtain ⟨m'', hm'', hval⟩ := hok (by decide)
  exact ⟨⟨m', hm', (hstays m' hm').pc⟩, m'', hm'', (hval (by decide) (by decide)).trans (by decide)⟩

end Nachos.Machine
