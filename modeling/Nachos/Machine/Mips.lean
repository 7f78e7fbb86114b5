import Mathlib.Algebra.Ring.Nat
import Nachos.Machine.Memory

/-!
# Machine — Mips

`Instruction::Decode` and `Machine::OneInstruction` (machine/mipssim.cc, machine/mipssim.h).

`execute` is the `switch` over the opcodes, with its fall-throughs.  Where a case writes a register
and then reads one (`BGEZAL`, `BLTZAL`, `JALR`), the model reads after the write too; `OR` takes
`rs` twice, and `SRL` and `SRLV` shift an `int`.  The host's `/` and `%` trap at the one quotient
that does not fit an `int`.
-/

namespace Nachos.Machine
open Exec

/-- The opcodes, with the two marks of `opTable` for a further look. -/
inductive OpCode where
  | OP_ADD | OP_ADDI | OP_ADDIU | OP_ADDU | OP_AND | OP_ANDI | OP_BEQ | OP_BGEZ | OP_BGEZAL
  | OP_BGTZ | OP_BLEZ | OP_BLTZ | OP_BLTZAL | OP_BNE | OP_DIV | OP_DIVU | OP_J | OP_JAL | OP_JALR
  | OP_JR | OP_LB | OP_LBU | OP_LH | OP_LHU | OP_LUI | OP_LW | OP_LWL | OP_LWR | OP_MFHI | OP_MFLO
  | OP_MTHI | OP_MTLO | OP_MULT | OP_MULTU | OP_NOR | OP_OR | OP_ORI | OP_RFE | OP_SB | OP_SH
  | OP_SLL | OP_SLLV | OP_SLT | OP_SLTI | OP_SLTIU | OP_SLTU | OP_SRA | OP_SRAV | OP_SRL | OP_SRLV
  | OP_SUB | OP_SUBU | OP_SW | OP_SWL | OP_SWR | OP_XOR | OP_XORI | OP_SYSCALL | OP_UNIMP | OP_RES
  | SPECIAL | BCOND
  deriving DecidableEq, Repr

/-- The format of an instruction. -/
inductive Format where
  | IFMT | JFMT | RFMT
  deriving DecidableEq, Repr

open OpCode Format in
/-- `opTable`: the meaning of bits 31:26. -/
def opTable : List (OpCode × Format) :=
  [(SPECIAL, RFMT), (BCOND, IFMT), (OP_J, JFMT), (OP_JAL, JFMT),
   (OP_BEQ, IFMT), (OP_BNE, IFMT), (OP_BLEZ, IFMT), (OP_BGTZ, IFMT),
   (OP_ADDI, IFMT), (OP_ADDIU, IFMT), (OP_SLTI, IFMT), (OP_SLTIU, IFMT),
   (OP_ANDI, IFMT), (OP_ORI, IFMT), (OP_XORI, IFMT), (OP_LUI, IFMT),
   (OP_UNIMP, IFMT), (OP_UNIMP, IFMT), (OP_UNIMP, IFMT), (OP_UNIMP, IFMT),
   (OP_RES, IFMT), (OP_RES, IFMT), (OP_RES, IFMT), (OP_RES, IFMT),
   (OP_RES, IFMT), (OP_RES, IFMT), (OP_RES, IFMT), (OP_RES, IFMT),
   (OP_RES, IFMT), (OP_RES, IFMT), (OP_RES, IFMT), (OP_RES, IFMT),
   (OP_LB, IFMT), (OP_LH, IFMT), (OP_LWL, IFMT), (OP_LW, IFMT),
   (OP_LBU, IFMT), (OP_LHU, IFMT), (OP_LWR, IFMT), (OP_RES, IFMT),
   (OP_SB, IFMT), (OP_SH, IFMT), (OP_SWL, IFMT), (OP_SW, IFMT),
   (OP_RES, IFMT), (OP_RES, IFMT), (OP_SWR, IFMT), (OP_RES, IFMT),
   (OP_UNIMP, IFMT), (OP_UNIMP, IFMT), (OP_UNIMP, IFMT), (OP_UNIMP, IFMT),
   (OP_RES, IFMT), (OP_RES, IFMT), (OP_RES, IFMT), (OP_RES, IFMT),
   (OP_UNIMP, IFMT), (OP_UNIMP, IFMT), (OP_UNIMP, IFMT), (OP_UNIMP, IFMT),
   (OP_RES, IFMT), (OP_RES, IFMT), (OP_RES, IFMT), (OP_RES, IFMT)]

open OpCode in
/-- `specialTable`: the meaning of the function field of a `SPECIAL` instruction. -/
def specialTable : List OpCode :=
  [OP_SLL, OP_RES, OP_SRL, OP_SRA, OP_SLLV, OP_RES, OP_SRLV, OP_SRAV,
   OP_JR, OP_JALR, OP_RES, OP_RES, OP_SYSCALL, OP_UNIMP, OP_RES, OP_RES,
   OP_MFHI, OP_MTHI, OP_MFLO, OP_MTLO, OP_RES, OP_RES, OP_RES, OP_RES,
   OP_MULT, OP_MULTU, OP_DIV, OP_DIVU, OP_RES, OP_RES, OP_RES, OP_RES,
   OP_ADD, OP_ADDU, OP_SUB, OP_SUBU, OP_AND, OP_OR, OP_XOR, OP_NOR,
   OP_RES, OP_RES, OP_SLT, OP_SLTU, OP_RES, OP_RES, OP_RES, OP_RES,
   OP_RES, OP_RES, OP_RES, OP_RES, OP_RES, OP_RES, OP_RES, OP_RES,
   OP_RES, OP_RES, OP_RES, OP_RES, OP_RES, OP_RES, OP_RES, OP_RES]

/-- `class Instruction`, decoded. -/
structure Instruction where
  opCode : OpCode
  rs : Nat
  rt : Nat
  rd : Nat
  extra : Word
  deriving DecidableEq, Repr

/-- `Instruction::Decode`.  Both tables have 64 entries. -/
def decode (value : Word) : Instruction :=
  let (opCode, format) := opTable.getD ((value >>> 26) &&& 0x3f).toNat (.OP_RES, .IFMT)
  { rs := ((value >>> 21) &&& 0x1f).toNat
    rt := ((value >>> 16) &&& 0x1f).toNat
    rd := ((value >>> 11) &&& 0x1f).toNat
    extra :=
      match format with
      | .IFMT =>
          let extra := value &&& 0xffff
          if extra &&& 0x8000 ≠ 0 then extra ||| 0xffff0000 else extra
      | .RFMT => (value >>> 6) &&& 0x1f
      | .JFMT => value &&& 0x3ffffff
    opCode :=
      match opCode with
      | .SPECIAL => specialTable.getD (value &&& 0x3f).toNat .OP_RES
      | .BCOND =>
          let i := value &&& 0x1f0000
          if i = 0 then .OP_BLTZ
          else if i = 0x10000 then .OP_BGEZ
          else if i = 0x100000 then .OP_BLTZAL
          else if i = 0x110000 then .OP_BGEZAL
          else .OP_UNIMP
      | opCode => opCode }

def SIGN_BIT : Word := 0x80000000

/-- `IndexToAddr`. -/
def indexToAddr (x : Word) : Word := x <<< 2

/-- The loop of `Mult`, with `n` of its 32 rounds to go: `hi` and `lo`. -/
def multLoop : (n : Nat) → (a bLo bHi lo hi : Word) → Word × Word
  | 0, _, _, _, lo, hi => (hi, lo)
  | n + 1, a, bLo, bHi, lo, hi =>
      let odd := a &&& 1 ≠ 0
      let lo' := if odd then lo + bLo else lo
      let hi' := if odd then (if lo' < bLo then hi + 1 else hi) + bHi else hi
      if odd ∧ a &&& 0xfffffffe = 0 then (hi', lo')
      else
        let bHi' := bHi <<< 1
        multLoop n (a.sshiftRight 1) (bLo <<< 1)
          (if bLo &&& 0x80000000 ≠ 0 then bHi' ||| 1 else bHi') lo' hi'

/-- `Mult`: the words for `*hiPtr` and `*loPtr`. -/
def mult (a b : Word) (signedArith : Bool) : Word × Word :=
  if a = 0 ∨ b = 0 then (0, 0)
  else
    let negA := signedArith && a.slt 0
    let negB := signedArith && b.slt 0
    let (hi, lo) := multLoop 32 (if negA then -a else a) (if negB then -b else b) 0 0 0
    if negA ^^ negB then
      let lo' := ~~~lo + 1
      (if lo' = 0 then ~~~hi + 1 else ~~~hi, lo')
    else (hi, lo)

/-- What the `switch` leaves for the end of `OneInstruction`. -/
structure Next where
  nextLoadReg : Word
  nextLoadValue : Word
  pcAfter : Word

/-- `registers[num] = value`, and no load. -/
def assign (num : Nat) (value pcAfter : Word) : Exec Next := do
  writeRegister num value
  pure ⟨0, 0, pcAfter⟩

/-- The cases `OP_LB` and `OP_LBU`. -/
def loadByte (instr : Instruction) (tmp pcAfter : Word) : Exec Next := do
  let value ← readMem tmp 1
  let value := if value &&& 0x80 ≠ 0 ∧ instr.opCode = .OP_LB then value ||| 0xffffff00
    else value &&& 0xff
  pure ⟨BitVec.ofNat 32 instr.rt, value, pcAfter⟩

/-- The cases `OP_LH` and `OP_LHU`. -/
def loadHalf (instr : Instruction) (tmp pcAfter : Word) : Exec Next :=
  if tmp &&& 0x1 ≠ 0 then raiseException .addressErrorException tmp
  else do
    let value ← readMem tmp 2
    let value := if value &&& 0x8000 ≠ 0 ∧ instr.opCode = .OP_LH then value ||| 0xffff0000
      else value &&& 0xffff
    pure ⟨BitVec.ofNat 32 instr.rt, value, pcAfter⟩

/-- The case `OP_LW`. -/
def loadWord (instr : Instruction) (tmp pcAfter : Word) : Exec Next :=
  if tmp &&& 0x3 ≠ 0 then raiseException .addressErrorException tmp
  else do
    let value ← readMem tmp 4
    pure ⟨BitVec.ofNat 32 instr.rt, value, pcAfter⟩

/-- What `OP_LWL` and `OP_LWR` start from: the register, or the load in progress to it. -/
def pendingLoad (instr : Instruction) (m : Machine) : Word :=
  if m.registers LoadReg = BitVec.ofNat 32 instr.rt then m.registers LoadValueReg
  else m.registers instr.rt

/-- The case `OP_LWL`. -/
def loadWordLeft (instr : Instruction) (tmp pcAfter : Word) : Exec Next := do
  Exec.assert (tmp &&& 0x3 = 0)
  let value ← readMem tmp 4
  let m ← Exec.get
  let next := pendingLoad instr m
  let next := match (tmp &&& 0x3).toNat with
    | 0 => value
    | 1 => (next &&& 0xff) ||| (value <<< 8)
    | 2 => (next &&& 0xffff) ||| (value <<< 16)
    | _ => (next &&& 0xffffff) ||| (value <<< 24)
  pure ⟨BitVec.ofNat 32 instr.rt, next, pcAfter⟩

/-- The case `OP_LWR`. -/
def loadWordRight (instr : Instruction) (tmp pcAfter : Word) : Exec Next := do
  Exec.assert (tmp &&& 0x3 = 0)
  let value ← readMem tmp 4
  let m ← Exec.get
  let next := pendingLoad instr m
  let next := match (tmp &&& 0x3).toNat with
    | 0 => (next &&& 0xffffff00) ||| (value.sshiftRight 24 &&& 0xff)
    | 1 => (next &&& 0xffff0000) ||| (value.sshiftRight 16 &&& 0xffff)
    | 2 => (next &&& 0xff000000) ||| (value.sshiftRight 8 &&& 0xffffff)
    | _ => value
  pure ⟨BitVec.ofNat 32 instr.rt, next, pcAfter⟩

/-- The cases `OP_SB`, `OP_SH` and `OP_SW`. -/
def store (size : Nat) (addr value pcAfter : Word) : Exec Next := do
  writeMem addr size value
  pure ⟨0, 0, pcAfter⟩

/-- The case `OP_SWL`. -/
def storeWordLeft (rt tmp pcAfter : Word) : Exec Next := do
  Exec.assert (tmp &&& 0x3 = 0)
  let value ← readMem (tmp &&& ~~~0x3) 4
  let value := match (tmp &&& 0x3).toNat with
    | 0 => rt
    | 1 => (value &&& 0xff000000) ||| (rt.sshiftRight 8 &&& 0xffffff)
    | 2 => (value &&& 0xffff0000) ||| (rt.sshiftRight 16 &&& 0xffff)
    | _ => (value &&& 0xffffff00) ||| (rt.sshiftRight 24 &&& 0xff)
  store 4 (tmp &&& ~~~0x3) value pcAfter

/-- The case `OP_SWR`. -/
def storeWordRight (rt tmp pcAfter : Word) : Exec Next := do
  Exec.assert (tmp &&& 0x3 = 0)
  let value ← readMem (tmp &&& ~~~0x3) 4
  let value := match (tmp &&& 0x3).toNat with
    | 0 => (value &&& 0xffffff) ||| (rt <<< 24)
    | 1 => (value &&& 0xffff) ||| (rt <<< 16)
    | 2 => (value &&& 0xff) ||| (rt <<< 8)
    | _ => rt
  store 4 (tmp &&& ~~~0x3) value pcAfter

/-- `registers[HiReg]` and `registers[LoReg]` of a multiplication or a division. -/
def assignHiLo (hi lo pcAfter : Word) : Exec Next := do
  writeRegister LoReg lo
  assign HiReg hi pcAfter

/-- The case `OP_DIV`. -/
def divide (rs rt pcAfter : Word) : Exec Next :=
  if rt = 0 then assignHiLo 0 0 pcAfter
  else if rs = SIGN_BIT ∧ rt = -1 then Exec.abort
  else assignHiLo (rs.srem rt) (rs.sdiv rt) pcAfter

/-- The cases with a comparison. -/
def flag (c : Bool) : Word := if c then 1 else 0

/-- A branch: `pcAfter` when `c` fails. -/
def branch (c : Prop) [Decidable c] (target pcAfter : Word) : Exec Next :=
  pure ⟨0, 0, if c then target else pcAfter⟩

/-- The `switch` of `Machine::OneInstruction`. -/
def execute (instr : Instruction) : Exec Next := do
  let m ← Exec.get
  let rs := m.registers instr.rs
  let rt := m.registers instr.rt
  let extra := instr.extra
  let nextPC := m.registers NextPCReg
  let pcAfter := nextPC + 4
  let target := nextPC + indexToAddr extra
  match instr.opCode with
  | .OP_ADD =>
      let sum := rs + rt
      if (rs ^^^ rt) &&& SIGN_BIT = 0 ∧ (rs ^^^ sum) &&& SIGN_BIT ≠ 0 then
        raiseException .overflowException 0
      else assign instr.rd sum pcAfter
  | .OP_ADDI =>
      let sum := rs + extra
      if (rs ^^^ extra) &&& SIGN_BIT = 0 ∧ (extra ^^^ sum) &&& SIGN_BIT ≠ 0 then
        raiseException .overflowException 0
      else assign instr.rt sum pcAfter
  | .OP_ADDIU => assign instr.rt (rs + extra) pcAfter
  | .OP_ADDU => assign instr.rd (rs + rt) pcAfter
  | .OP_AND => assign instr.rd (rs &&& rt) pcAfter
  | .OP_ANDI => assign instr.rt (rs &&& (extra &&& 0xffff)) pcAfter
  | .OP_BEQ => branch (rs = rt) target pcAfter
  | .OP_BGEZAL => do
      writeRegister R31 (nextPC + 4)
      let rs ← readRegister instr.rs
      branch (rs &&& SIGN_BIT = 0) target pcAfter
  | .OP_BGEZ => branch (rs &&& SIGN_BIT = 0) target pcAfter
  | .OP_BGTZ => branch (0 < rs.toInt) target pcAfter
  | .OP_BLEZ => branch (rs.toInt ≤ 0) target pcAfter
  | .OP_BLTZAL => do
      writeRegister R31 (nextPC + 4)
      let rs ← readRegister instr.rs
      branch (rs &&& SIGN_BIT ≠ 0) target pcAfter
  | .OP_BLTZ => branch (rs &&& SIGN_BIT ≠ 0) target pcAfter
  | .OP_BNE => branch (rs ≠ rt) target pcAfter
  | .OP_DIV => divide rs rt pcAfter
  | .OP_DIVU =>
      if rt = 0 then assignHiLo 0 0 pcAfter else assignHiLo (rs.umod rt) (rs.udiv rt) pcAfter
  | .OP_JAL => assign R31 (nextPC + 4) ((pcAfter &&& 0xf0000000) ||| indexToAddr extra)
  | .OP_J => pure ⟨0, 0, (pcAfter &&& 0xf0000000) ||| indexToAddr extra⟩
  | .OP_JALR => do
      writeRegister instr.rd (nextPC + 4)
      let rs ← readRegister instr.rs
      pure ⟨0, 0, rs⟩
  | .OP_JR => pure ⟨0, 0, rs⟩
  | .OP_LB | .OP_LBU => loadByte instr (rs + extra) pcAfter
  | .OP_LH | .OP_LHU => loadHalf instr (rs + extra) pcAfter
  | .OP_LUI => assign instr.rt (extra <<< 16) pcAfter
  | .OP_LW => loadWord instr (rs + extra) pcAfter
  | .OP_LWL => loadWordLeft instr (rs + extra) pcAfter
  | .OP_LWR => loadWordRight instr (rs + extra) pcAfter
  | .OP_MFHI => assign instr.rd (m.registers HiReg) pcAfter
  | .OP_MFLO => assign instr.rd (m.registers LoReg) pcAfter
  | .OP_MTHI => assign HiReg rs pcAfter
  | .OP_MTLO => assign LoReg rs pcAfter
  | .OP_MULT => let (hi, lo) := mult rs rt true; assignHiLo hi lo pcAfter
  | .OP_MULTU => let (hi, lo) := mult rs rt false; assignHiLo hi lo pcAfter
  | .OP_NOR => assign instr.rd (~~~(rs ||| rt)) pcAfter
  | .OP_OR => assign instr.rd (rs ||| rs) pcAfter
  | .OP_ORI => assign instr.rt (rs ||| (extra &&& 0xffff)) pcAfter
  | .OP_SB => store 1 (rs + extra) rt pcAfter
  | .OP_SH => store 2 (rs + extra) rt pcAfter
  | .OP_SLL => assign instr.rd (rt <<< extra.toNat) pcAfter
  | .OP_SLLV => assign instr.rd (rt <<< (rs &&& 0x1f).toNat) pcAfter
  | .OP_SLT => assign instr.rd (flag (rs.slt rt)) pcAfter
  | .OP_SLTI => assign instr.rt (flag (rs.slt extra)) pcAfter
  | .OP_SLTIU => assign instr.rt (flag (rs.ult extra)) pcAfter
  | .OP_SLTU => assign instr.rd (flag (rs.ult rt)) pcAfter
  | .OP_SRA => assign instr.rd (rt.sshiftRight extra.toNat) pcAfter
  | .OP_SRAV => assign instr.rd (rt.sshiftRight (rs &&& 0x1f).toNat) pcAfter
  | .OP_SRL => assign instr.rd (rt.sshiftRight extra.toNat) pcAfter
  | .OP_SRLV => assign instr.rd (rt.sshiftRight (rs &&& 0x1f).toNat) pcAfter
  | .OP_SUB =>
      let diff := rs - rt
      if (rs ^^^ rt) &&& SIGN_BIT ≠ 0 ∧ (rs ^^^ diff) &&& SIGN_BIT ≠ 0 then
        raiseException .overflowException 0
      else assign instr.rd diff pcAfter
  | .OP_SUBU => assign instr.rd (rs - rt) pcAfter
  | .OP_SW => store 4 (rs + extra) rt pcAfter
  | .OP_SWL => storeWordLeft rt (rs + extra) pcAfter
  | .OP_SWR => storeWordRight rt (rs + extra) pcAfter
  | .OP_SYSCALL => raiseException .syscallException 0
  | .OP_XOR => assign instr.rd (rs ^^^ rt) pcAfter
  | .OP_XORI => assign instr.rt (rs ^^^ (extra &&& 0xffff)) pcAfter
  | .OP_RES | .OP_UNIMP => raiseException .illegalInstrException 0
  | .OP_RFE | .SPECIAL | .BCOND => Exec.abort

/-- The end of `OneInstruction`: the delayed load, and the program counters. -/
def advance (next : Next) (m : Machine) : Machine :=
  let m := m.delayedLoad next.nextLoadReg next.nextLoadValue
  let m := m.setRegister PrevPCReg (m.registers PCReg)
  let m := m.setRegister PCReg (m.registers NextPCReg)
  m.setRegister NextPCReg next.pcAfter

/-- `Machine::OneInstruction`. -/
def oneInstruction : Exec Unit := do
  let pc ← readRegister PCReg
  let raw ← readMem pc 4
  let next ← execute (decode raw)
  Exec.modify (advance next)

/-! ### Decoding -/

/-- The opcodes that are left of a look at the tables. -/
def OpCode.decoded : OpCode → Bool
  | OP_RFE | SPECIAL | BCOND => false
  | _ => true

theorem opTable_decoded (op : OpCode × Format) (h : op ∈ opTable) :
    op.1.decoded = true ∨ op.1 = .SPECIAL ∨ op.1 = .BCOND := by
  revert op
  decide

theorem specialTable_decoded (op : OpCode) (h : op ∈ specialTable) : op.decoded = true := by
  revert op
  decide

theorem getD_mem {α : Type} {l : List α} {i : Nat} {a : α} (h : i < l.length) : l.getD i a ∈ l := by
  rw [List.getD_eq_getElem?_getD, List.getElem?_eq_getElem h]
  exact List.getElem_mem h

theorem and_toNat_lt (x : Word) {n : Nat} (h : n < 2 ^ 32) :
    (x &&& BitVec.ofNat 32 n).toNat ≤ n := by
  rw [BitVec.toNat_and, BitVec.toNat_ofNat, Nat.mod_eq_of_lt h]
  exact Nat.and_le_right

/-- `Decode` leaves an opcode with a case of its own. -/
theorem decode_decoded (raw : Word) : (decode raw).opCode.decoded = true := by
  have hop := opTable_decoded _ (getD_mem (l := opTable) (a := (.OP_RES, .IFMT))
    (i := ((raw >>> 26) &&& 0x3f).toNat)
    (Nat.lt_of_le_of_lt (and_toNat_lt (n := 0x3f) _ (by decide)) (by decide)))
  have hsp := specialTable_decoded _ (getD_mem (l := specialTable) (a := .OP_RES)
    (i := (raw &&& 0x3f).toNat)
    (Nat.lt_of_le_of_lt (and_toNat_lt (n := 0x3f) _ (by decide)) (by decide)))
  unfold decode
  dsimp only
  split
  · exact hsp
  · split
    · rfl
    split
    · rfl
    split
    · rfl
    split <;> rfl
  · rename_i h₁ h₂
    rcases hop with h | h | h
    · exact h
    · exact absurd h h₁
    · exact absurd h h₂

/-- The register fields of an instruction. -/
def Instruction.InRange (instr : Instruction) : Prop :=
  instr.rs < NumGPRegs ∧ instr.rt < NumGPRegs ∧ instr.rd < NumGPRegs

theorem decode_inRange (raw : Word) : (decode raw).InRange :=
  ⟨Nat.lt_succ_of_le (and_toNat_lt (n := 0x1f) _ (by decide)),
    Nat.lt_succ_of_le (and_toNat_lt (n := 0x1f) _ (by decide)),
    Nat.lt_succ_of_le (and_toNat_lt (n := 0x1f) _ (by decide))⟩

/-! ### The delayed load -/

/-- No load is left in progress. -/
theorem noLoad : (0 : Word).toNat < NumGPRegs := by decide

/-- What a delayed load leaves in the registers, with the load in progress in range. -/
structure Delayed (m : Machine) (nextReg nextValue : Word) (m' : Machine) : Prop where
  zero : m'.registers 0 = 0
  load : m'.registers LoadReg = nextReg
  loadValue : m'.registers LoadValueReg = nextValue
  others : ∀ i, NumGPRegs ≤ i → i ≠ LoadReg → i ≠ LoadValueReg → m'.registers i = m.registers i

theorem delayedLoad_spec {m : Machine} (h : (m.registers LoadReg).toNat < NumGPRegs)
    (nextReg nextValue : Word) : Delayed m nextReg nextValue (m.delayedLoad nextReg nextValue) := by
  have e : (m.delayedLoad nextReg nextValue).registers = Function.update (Function.update
      (Function.update (Function.update m.registers (m.registers LoadReg).toNat
        (m.registers LoadValueReg)) LoadReg nextReg) LoadValueReg nextValue) 0 0 := rfl
  refine ⟨by rw [e]; rfl, by rw [e]; rfl, by rw [e]; rfl, fun i hi h₁ h₂ => ?_⟩
  have h₀ : i ≠ 0 := by unfold NumGPRegs at hi; omega
  have h₃ : i ≠ (m.registers LoadReg).toNat := by omega
  rw [e, Function.update_of_ne h₀, Function.update_of_ne h₂, Function.update_of_ne h₁,
    Function.update_of_ne h₃]

/-- The general registers after a delayed load: the one of the load in progress has its value. -/
theorem delayedLoad_general (m : Machine) (nextReg nextValue : Word) {i : Nat} (hi : i < NumGPRegs)
    (h0 : i ≠ 0) : (m.delayedLoad nextReg nextValue).registers i =
      if i = (m.registers LoadReg).toNat then m.registers LoadValueReg else m.registers i := by
  unfold NumGPRegs at hi
  show Function.update (Function.update (Function.update (Function.update m.registers _ _) LoadReg _)
    LoadValueReg _) 0 0 i = _
  rw [Function.update_of_ne h0, Function.update_of_ne (by unfold LoadValueReg; omega),
    Function.update_of_ne (by unfold LoadReg; omega), Function.update_apply]

section
variable (next : Next) (m : Machine)

/-- The general registers at the end of `OneInstruction`. -/
theorem advance_general {i : Nat} (hi : i < NumGPRegs) (h0 : i ≠ 0) :
    (advance next m).registers i =
      if i = (m.registers LoadReg).toNat then m.registers LoadValueReg else m.registers i := by
  rw [← delayedLoad_general m next.nextLoadReg next.nextLoadValue hi h0]
  unfold NumGPRegs at hi
  show Function.update (Function.update (Function.update _ PrevPCReg _) PCReg _) NextPCReg _ i = _
  rw [Function.update_of_ne (by unfold NextPCReg; omega),
    Function.update_of_ne (by unfold PCReg; omega),
    Function.update_of_ne (by unfold PrevPCReg; omega)]

/-- The program counters at the end of `OneInstruction`. -/
theorem advance_counters (hl : (m.registers LoadReg).toNat < NumGPRegs) :
    (advance next m).registers PCReg = m.registers NextPCReg ∧
    (advance next m).registers NextPCReg = next.pcAfter :=
  ⟨(delayedLoad_spec hl next.nextLoadReg next.nextLoadValue).others NextPCReg (by decide)
    (by decide) (by decide), rfl⟩

end

/-! ### What an instruction leaves alone -/

theorem keeps_assign (num : Nat) (value pcAfter : Word) : Keeps (assign num value pcAfter) :=
  keeps_bind (keeps_writeRegister _ _) fun _ => keeps_pure _

theorem keeps_assignHiLo (hi lo pcAfter : Word) : Keeps (assignHiLo hi lo pcAfter) :=
  keeps_bind (keeps_writeRegister _ _) fun _ => keeps_assign _ _ _

theorem keeps_branch (c : Prop) [Decidable c] (target pcAfter : Word) :
    Keeps (branch c target pcAfter) := keeps_pure _

theorem keeps_divide (rs rt pcAfter : Word) : Keeps (divide rs rt pcAfter) :=
  keeps_ite (keeps_assignHiLo _ _ _) (keeps_ite keeps_abort (keeps_assignHiLo _ _ _))

theorem keeps_store (size : Nat) (addr value pcAfter : Word) :
    Keeps (store size addr value pcAfter) :=
  keeps_bind (keeps_writeMem _ _ _) fun _ => keeps_pure _

section
variable (instr : Instruction) (tmp pcAfter : Word)

theorem keeps_loadByte : Keeps (loadByte instr tmp pcAfter) :=
  keeps_bind (keeps_readMem _ _) fun _ => keeps_pure _

theorem keeps_loadHalf : Keeps (loadHalf instr tmp pcAfter) :=
  keeps_ite (keeps_raiseException _ _) (keeps_bind (keeps_readMem _ _) fun _ => keeps_pure _)

theorem keeps_loadWord : Keeps (loadWord instr tmp pcAfter) :=
  keeps_ite (keeps_raiseException _ _) (keeps_bind (keeps_readMem _ _) fun _ => keeps_pure _)

theorem keeps_loadWordLeft : Keeps (loadWordLeft instr tmp pcAfter) :=
  keeps_bind (keeps_assert _) fun _ => keeps_bind (keeps_readMem _ _) fun _ =>
    keeps_bind keeps_get fun _ => keeps_pure _

theorem keeps_loadWordRight : Keeps (loadWordRight instr tmp pcAfter) :=
  keeps_bind (keeps_assert _) fun _ => keeps_bind (keeps_readMem _ _) fun _ =>
    keeps_bind keeps_get fun _ => keeps_pure _

theorem keeps_storeWordLeft (rt : Word) : Keeps (storeWordLeft rt tmp pcAfter) :=
  keeps_bind (keeps_assert _) fun _ => keeps_bind (keeps_readMem _ _) fun _ => keeps_store _ _ _ _

theorem keeps_storeWordRight (rt : Word) : Keeps (storeWordRight rt tmp pcAfter) :=
  keeps_bind (keeps_assert _) fun _ => keeps_bind (keeps_readMem _ _) fun _ => keeps_store _ _ _ _

/-- A case that links before it looks at a register. -/
theorem keeps_link (num num' : Nat) (value : Word) {f : Word → Exec Next} (hf : ∀ v, (f v).Keeps) :
    Keeps (do writeRegister num value; let rs ← readRegister num'; f rs) :=
  keeps_bind (keeps_writeRegister _ _) fun _ => keeps_bind (keeps_readRegister _) hf

theorem keeps_execute : Keeps (execute instr) := by
  refine keeps_bind keeps_get fun m => ?_
  dsimp only
  cases instr.opCode with
  | OP_ADD | OP_ADDI | OP_SUB => exact keeps_ite (keeps_raiseException _ _) (keeps_assign _ _ _)
  | OP_BEQ | OP_BGEZ | OP_BGTZ | OP_BLEZ | OP_BLTZ | OP_BNE => exact keeps_branch _ _ _
  | OP_BGEZAL | OP_BLTZAL => exact keeps_link _ _ _ fun _ => keeps_branch _ _ _
  | OP_JALR => exact keeps_link _ _ _ fun _ => keeps_pure _
  | OP_J | OP_JR => exact keeps_pure _
  | OP_DIV => exact keeps_divide _ _ _
  | OP_DIVU => exact keeps_ite (keeps_assignHiLo _ _ _) (keeps_assignHiLo _ _ _)
  | OP_MULT | OP_MULTU => exact keeps_assignHiLo _ _ _
  | OP_LB | OP_LBU => exact keeps_loadByte _ _ _
  | OP_LH | OP_LHU => exact keeps_loadHalf _ _ _
  | OP_LW => exact keeps_loadWord _ _ _
  | OP_LWL => exact keeps_loadWordLeft _ _ _
  | OP_LWR => exact keeps_loadWordRight _ _ _
  | OP_SB | OP_SH | OP_SW => exact keeps_store _ _ _ _
  | OP_SWL => exact keeps_storeWordLeft _ _ _
  | OP_SWR => exact keeps_storeWordRight _ _ _
  | OP_SYSCALL | OP_RES | OP_UNIMP => exact keeps_raiseException _ _
  | OP_RFE | SPECIAL | BCOND => exact keeps_abort
  | _ => exact keeps_assign _ _ _

end

theorem keeps_advance (next : Next) : Keeps (Exec.modify (advance next)) := fun m =>
  (Frame.delayedLoad m next.nextLoadReg next.nextLoadValue).trans
    (((Frame.setRegister _ _ _).trans (Frame.setRegister _ _ _)).trans (Frame.setRegister _ _ _))

/-- **A user instruction changes memory only inside the frames of the page table.** -/
theorem keeps_oneInstruction : Keeps oneInstruction :=
  keeps_bind (keeps_readRegister _) fun _ => keeps_bind (keeps_readMem _ _) fun _ =>
    keeps_bind (keeps_execute _) fun _ => keeps_advance _

end Nachos.Machine
