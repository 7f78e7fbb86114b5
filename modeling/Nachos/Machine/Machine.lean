import Mathlib.Data.List.Basic
import Mathlib.Logic.Function.Basic

/-!
# Machine — Machine

The simulated hardware (machine/machine.cc, machine/translate.cc): 40 registers, `mainMemory`, and
a linear page table (the build defines no `USE_TLB`, so `tlb` is `NULL` throughout).  The host is
little endian, so `WordToHost` and its companions are the identity.

A routine is an `Exec`: from a machine, a value and the next machine; or an exception raised on the
way, with the machine `RaiseException` hands to the kernel; or an abort, where an `ASSERT` fails or
the host traps.
-/

namespace Nachos

def PageSize : Nat := 128
def NumPhysPages : Nat := 128
def MemorySize : Nat := NumPhysPages * PageSize

def NumGPRegs : Nat := 32

def StackReg : Nat := 29
def R31 : Nat := 31
def HiReg : Nat := 32
def LoReg : Nat := 33
def PCReg : Nat := 34
def NextPCReg : Nat := 35
def PrevPCReg : Nat := 36
def LoadReg : Nat := 37
def LoadValueReg : Nat := 38
def BadVAddrReg : Nat := 39
def NumTotalRegs : Nat := 40

abbrev Byte := BitVec 8
abbrev Word := BitVec 32

/-- `class TranslationEntry`. -/
structure TranslationEntry where
  virtualPage : Nat
  physicalPage : Nat
  valid : Bool
  readOnly : Bool
  use : Bool
  dirty : Bool
  deriving DecidableEq, Repr

/-- `enum ExceptionType`. -/
inductive ExceptionType where
  | noException | syscallException | pageFaultException | readOnlyException
  | busErrorException | addressErrorException | overflowException | illegalInstrException
  deriving DecidableEq, Repr

/-- `class Machine`.  `pageTable` is the table the pointer refers to, `none` when it is `NULL`. -/
structure Machine where
  registers : Nat → Word
  mainMemory : Nat → Byte
  pageTable : Option (List TranslationEntry)
  pageTableSize : Nat

/-- How a routine of the machine ends. -/
inductive Result (α : Type) where
  | ok (a : α) (m : Machine)
  | raised (which : ExceptionType) (m : Machine)
  | aborted

/-- A routine of the machine. -/
def Exec (α : Type) : Type := Machine → Result α

namespace Exec

protected def pure {α : Type} (a : α) : Exec α := fun m => .ok a m

protected def bind {α β : Type} (x : Exec α) (f : α → Exec β) : Exec β := fun m =>
  match x m with
  | .ok a m' => f a m'
  | .raised which m' => .raised which m'
  | .aborted => .aborted

instance : Monad Exec where
  pure := Exec.pure
  bind := Exec.bind

def get : Exec Machine := fun m => .ok m m

def modify (f : Machine → Machine) : Exec Unit := fun m => .ok () (f m)

/-- A failing `ASSERT`, or a host trap. -/
def abort {α : Type} : Exec α := fun _ => .aborted

/-- `ASSERT`. -/
def assert (c : Bool) : Exec Unit := if c then pure () else abort

end Exec

namespace Machine

/-- `Machine::ReadRegister`. -/
def readRegister (num : Nat) : Exec Word := fun m => .ok (m.registers num) m

/-- A write to `registers[num]`. -/
def setRegister (m : Machine) (num : Nat) (value : Word) : Machine :=
  { m with registers := Function.update m.registers num value }

/-- `Machine::WriteRegister`. -/
def writeRegister (num : Nat) (value : Word) : Exec Unit :=
  Exec.modify fun m => m.setRegister num value

/-- `Machine::DelayedLoad`: finish the load in progress, and note the next one. -/
def delayedLoad (nextReg nextValue : Word) (m : Machine) : Machine :=
  let m := m.setRegister (m.registers LoadReg).toNat (m.registers LoadValueReg)
  let m := m.setRegister LoadReg nextReg
  let m := m.setRegister LoadValueReg nextValue
  m.setRegister 0 0

/-- `Machine::RaiseException`, up to the call of the kernel's handler. -/
def raiseException {α : Type} (which : ExceptionType) (badVAddr : Word) : Exec α := fun m =>
  .raised which ((m.setRegister BadVAddrReg badVAddr).delayedLoad 0 0)

/-- `Machine::AdjustPCRegs`. -/
def adjustPCRegs (m : Machine) : Machine :=
  let m := m.setRegister PrevPCReg (m.registers PCReg)
  let pc := m.registers NextPCReg
  let m := m.setRegister PCReg pc
  m.setRegister NextPCReg (pc + 4)

/-! ### Translation and access -/

/-- `Machine::Translate`: the physical address, or the exception to raise.  Only the use and dirty
bits of the entry are written. -/
def translate (virtAddr : Word) (size : Nat) (writing : Bool) :
    Exec (Except ExceptionType Nat) := fun m =>
  if (size = 4 ∧ virtAddr &&& 3 ≠ 0) ∨ (size = 2 ∧ virtAddr &&& 1 ≠ 0) then
    .ok (.error .addressErrorException) m
  else
    match m.pageTable with
    | none => .aborted
    | some pageTable =>
      let vpn := virtAddr.toNat / PageSize
      let offset := virtAddr.toNat % PageSize
      if m.pageTableSize ≤ vpn then .ok (.error .addressErrorException) m
      else
        match pageTable[vpn]? with
        | none => .aborted
        | some entry =>
          if entry.valid = false then .ok (.error .pageFaultException) m
          else if entry.readOnly && writing then .ok (.error .readOnlyException) m
          else if NumPhysPages ≤ entry.physicalPage then .ok (.error .busErrorException) m
          else
            let physAddr := entry.physicalPage * PageSize + offset
            let entry := { entry with use := true, dirty := entry.dirty || writing }
            if physAddr + size ≤ MemorySize then
              .ok (.ok physAddr) { m with pageTable := some (pageTable.set vpn entry) }
            else .aborted

/-- The `n` bytes of memory from `a` on, the first one least significant. -/
def loadLE (mem : Nat → Byte) (a : Nat) : (n : Nat) → Nat
  | 0 => 0
  | n + 1 => (mem a).toNat + 256 * loadLE mem (a + 1) n

/-- `value` stored in the `n` bytes of memory from `a` on, the least significant byte first. -/
def storeLE (mem : Nat → Byte) (a : Nat) : (n : Nat) → (value : Nat) → (Nat → Byte)
  | 0, _ => mem
  | n + 1, value =>
      storeLE (Function.update mem a (BitVec.ofNat 8 value)) (a + 1) n (value / 256)

/-- `Machine::ReadMem`.  `mainMemory` is an array of (signed) `char`, so a byte is sign extended. -/
def readMem (addr : Word) (size : Nat) : Exec Word := do
  match ← translate addr size false with
  | .error exception => raiseException exception addr
  | .ok physicalAddress =>
      let m ← Exec.get
      match size with
      | 1 => pure ((m.mainMemory physicalAddress).signExtend 32)
      | 2 => pure (BitVec.ofNat 32 (loadLE m.mainMemory physicalAddress 2))
      | 4 => pure (BitVec.ofNat 32 (loadLE m.mainMemory physicalAddress 4))
      | _ => Exec.abort

/-- `Machine::WriteMem`. -/
def writeMem (addr : Word) (size : Nat) (value : Word) : Exec Unit := do
  match ← translate addr size true with
  | .error exception => raiseException exception addr
  | .ok physicalAddress =>
      if size = 1 ∨ size = 2 ∨ size = 4 then
        Exec.modify fun m =>
          { m with mainMemory := storeLE m.mainMemory physicalAddress size value.toNat }
      else Exec.abort

/-- The loop of `Machine::User2System`: at most `limit` more bytes from `virtAddr + i` on, up to
and with the first zero. -/
def user2SystemLoop (virtAddr : Word) : (limit i : Nat) → Exec (List Byte)
  | 0, _ => pure []
  | limit + 1, i => do
      let oneChar ← readMem (virtAddr + BitVec.ofNat 32 i) 1
      if oneChar = 0 then pure [oneChar.truncate 8]
      else
        let rest ← user2SystemLoop virtAddr limit (i + 1)
        pure (oneChar.truncate 8 :: rest)

/-- `Machine::User2System`: a kernel buffer of `limit + 1` bytes, zero behind what was copied. -/
def user2System (virtAddr : Word) (limit : Nat) : Exec (List Byte) := do
  let copied ← user2SystemLoop virtAddr limit 0
  pure (copied ++ List.replicate (limit + 1 - copied.length) 0)

/-- The loop of `Machine::System2User`, with `rest + 1` bytes to go. -/
def system2UserLoop (virtAddr : Word) (buffer : Nat → Byte) : (rest i : Nat) → Exec Nat
  | rest, i => do
      let oneChar := buffer i
      writeMem (virtAddr + BitVec.ofNat 32 i) 1 (oneChar.signExtend 32)
      match rest with
      | 0 => pure (i + 1)
      | rest + 1 =>
          if oneChar = 0 then pure (i + 1) else system2UserLoop virtAddr buffer rest (i + 1)

/-- `Machine::System2User`. -/
def system2User (virtAddr : Word) (len : Int) (buffer : Nat → Byte) : Exec Int :=
  if len < 0 then pure (-1)
  else if len = 0 then pure len
  else do
    let i ← system2UserLoop virtAddr buffer (len.toNat - 1) 0
    pure i

end Machine

/-! ### What a routine leaves alone -/

/-- A table entry without the two bits the hardware writes. -/
def TranslationEntry.mapping (e : TranslationEntry) : TranslationEntry :=
  { e with use := false, dirty := false }

namespace Machine

/-- The page table of `m` maps the frame `f`. -/
def Maps (m : Machine) (f : Nat) : Prop :=
  ∃ pageTable, m.pageTable = some pageTable ∧ ∃ e ∈ pageTable, e.physicalPage = f

/-- `m'` differs from `m` at most in the registers, the use and dirty bits, and in memory inside
frames the page table of `m` maps. -/
structure Frame (m m' : Machine) : Prop where
  size : m'.pageTableSize = m.pageTableSize
  table : m'.pageTable.map (List.map TranslationEntry.mapping) =
    m.pageTable.map (List.map TranslationEntry.mapping)
  memory : ∀ x, ¬ m.Maps (x / PageSize) → m'.mainMemory x = m.mainMemory x

theorem Frame.refl (m : Machine) : Frame m m := ⟨rfl, rfl, fun _ _ => rfl⟩

/-- The frames a table maps can be read off its mapping. -/
theorem maps_iff {m : Machine} {f : Nat} : m.Maps f ↔
    ∃ t, m.pageTable.map (List.map TranslationEntry.mapping) = some t ∧
      ∃ e ∈ t, e.physicalPage = f := by
  constructor
  · rintro ⟨t, ht, e, he, rfl⟩
    exact ⟨_, by rw [ht]; rfl, _, List.mem_map_of_mem he, rfl⟩
  · rintro ⟨t, ht, e, he, rfl⟩
    obtain ⟨t', ht', rfl⟩ := Option.map_eq_some_iff.mp ht
    obtain ⟨e', he', rfl⟩ := List.mem_map.mp he
    exact ⟨t', ht', e', he', rfl⟩

theorem Frame.maps {m m' : Machine} (h : Frame m m') {f : Nat} : m'.Maps f ↔ m.Maps f := by
  rw [maps_iff, maps_iff, h.table]

theorem Frame.trans {m₁ m₂ m₃ : Machine} (h₁ : Frame m₁ m₂) (h₂ : Frame m₂ m₃) :
    Frame m₁ m₃ := by
  refine ⟨h₂.size.trans h₁.size, h₂.table.trans h₁.table, fun x hx => ?_⟩
  rw [h₂.memory x (fun hm => hx (h₁.maps.mp hm)), h₁.memory x hx]

theorem Frame.setRegister (m : Machine) (num : Nat) (value : Word) :
    Frame m (m.setRegister num value) := ⟨rfl, rfl, fun _ _ => rfl⟩

theorem Frame.delayedLoad (m : Machine) (r v : Word) : Frame m (m.delayedLoad r v) :=
  ⟨rfl, rfl, fun _ _ => rfl⟩

end Machine

namespace Exec
open Machine

/-- Whatever way `x` ends, the machine it leaves is framed by the one it started on. -/
def Keeps {α : Type} (x : Exec α) : Prop := ∀ m,
  match x m with
  | .ok _ m' | .raised _ m' => Frame m m'
  | .aborted => True

theorem Keeps.ok {α : Type} {x : Exec α} (h : x.Keeps) {m m' : Machine} {a : α}
    (e : x m = .ok a m') : Frame m m' := by
  have := h m
  rw [e] at this
  exact this

theorem Keeps.raised {α : Type} {x : Exec α} (h : x.Keeps) {m m' : Machine} {w : ExceptionType}
    (e : x m = .raised w m') : Frame m m' := by
  have := h m
  rw [e] at this
  exact this

theorem keeps_pure {α : Type} (a : α) : Keeps (pure a : Exec α) := fun m => Frame.refl m

theorem keeps_abort {α : Type} : Keeps (abort : Exec α) := fun _ => trivial

theorem keeps_get : Keeps get := fun m => Frame.refl m

theorem keeps_bind {α β : Type} {x : Exec α} {f : α → Exec β} (hx : x.Keeps)
    (hf : ∀ a, (f a).Keeps) : Keeps (x >>= f) := by
  intro m
  show match Exec.bind x f m with
    | .ok _ m' | .raised _ m' => Frame m m'
    | .aborted => True
  unfold Exec.bind
  cases e : x m with
  | ok a m₁ =>
      have h₁ := hx.ok e
      have h₂ := hf a m₁
      show match f a m₁ with
        | .ok _ m' | .raised _ m' => Frame m m'
        | .aborted => True
      cases e₂ : f a m₁ with
      | ok b m₂ => rw [e₂] at h₂; exact h₁.trans h₂
      | raised w m₂ => rw [e₂] at h₂; exact h₁.trans h₂
      | aborted => trivial
  | raised w m₁ => exact hx.raised e
  | aborted => trivial

theorem keeps_assert (c : Bool) : Keeps (assert c) := by
  cases c
  · exact keeps_abort
  · exact keeps_pure ()

theorem keeps_ite {α : Type} {c : Prop} [Decidable c] {x y : Exec α} (hx : x.Keeps)
    (hy : y.Keeps) : Keeps (if c then x else y) := by
  split
  · exact hx
  · exact hy

theorem keeps_readRegister (num : Nat) : Keeps (readRegister num) := fun m => Frame.refl m

theorem keeps_writeRegister (num : Nat) (v : Word) : Keeps (writeRegister num v) :=
  fun m => Frame.setRegister m num v

theorem keeps_raiseException {α : Type} (which : ExceptionType) (a : Word) :
    Keeps (raiseException which a : Exec α) :=
  fun m => (Frame.setRegister m BadVAddrReg a).trans (Frame.delayedLoad _ _ _)

end Exec

end Nachos
