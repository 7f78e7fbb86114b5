import Nachos.Userprog.Transfer

/-!
# Userprog — PrintString

`SyscallPrintString` (userprog/exception.cc) on every address.  Its blocks are larger than the memory
of a process, so the first one comes to the end of the string, or to the end of the memory.
-/

namespace Nachos.Syscall
open Lib Machine

section
variable {other : Call → World → Effect} {pageTable : List TranslationEntry} {m : Machine} {w : World}
  {v : Word} {s r : List Byte} {limit i : Nat}

/-- A copy that does not come to a zero runs out of the memory. -/
theorem user2SystemLoop_raised (h : Runs pageTable m) (hi : v.toNat + i < 2 ^ 32)
    (hnul : 0 ∉ (flat pageTable m).drop (v.toNat + i))
    (hlimit : pageTable.length * PageSize < v.toNat + i + limit) (hpos : 0 < limit) :
    ∃ m', user2SystemLoop v limit i m = .raised .addressErrorException m' := by
  induction limit generalizing i m with
  | zero => exact absurd hpos (Nat.lt_irrefl 0)
  | succ limit ih =>
      have hN := h.size_le
      have hlen : (flat pageTable m).length = pageTable.length * PageSize := length_flat
      have haddr := toNat_add_ofNat (v := v) (i := i) hi
      by_cases hlt : v.toNat + i < (flat pageTable m).length
      · have hb := List.getElem?_eq_getElem hlt
        have hne : (flat pageTable m)[v.toNat + i] ≠ 0 := fun h0 => hnul (by
          rw [List.drop_eq_getElem_cons hlt, h0]
          exact List.mem_cons_self)
        obtain ⟨m₁, e₁, hr₁, -, hflat₁⟩ := readMem_byte h (v := v + BitVec.ofNat 32 i)
          (by rw [haddr]; exact hb)
        obtain ⟨m₂, e₂⟩ := ih hr₁ (i := i + 1) (by omega)
          (by
            rw [hflat₁]
            intro hmem
            exact hnul (by rw [List.drop_eq_getElem_cons hlt]; exact List.mem_cons_of_mem _ hmem))
          (by omega) (by omega)
        refine ⟨m₂, ?_⟩
        rw [user2SystemLoop, bind_ok e₁, if_neg (mt signExtend_eq_zero.mp hne)]
        exact bind_raised e₂
      · rcases readMem_eq h (v + BitVec.ofNat 32 i) .byte with ⟨-, e⟩ | ⟨hf, -⟩
        · exact ⟨_, bind_raised e⟩
        · have := hf.2
          rw [Access.addr, haddr] at this
          omega

/-- The string at an address of user memory. -/
def StringAt (pageTable : List TranslationEntry) (m : Machine) (v : Word) (s : List Byte) : Prop :=
  0 ∉ s ∧ ∃ r, (flat pageTable m).drop v.toNat = s ++ 0 :: r

variable (other) in
/-- **`PrintString` of a string** sends it as it is, and leaves the memory. -/
theorem run_printString (h : Runs pageTable w.machine) (hr4 : w.machine.registers 4 = v) (hv : v ≠ 0)
    (hs : StringAt pageTable w.machine v s) :
    ∃ fuel m', run other fuel SyscallPrintString w =
        .returned ({ w with machine := m', sent := w.sent ++ s }.resume 0) ∧
      Runs pageTable m' ∧ flat pageTable m' = flat pageTable w.machine := by
  obtain ⟨hnul, r, hdrop⟩ := hs
  have hN := h.size_le
  have hlen : s.length < 2 ^ 14 := by
    have hle := congrArg List.length hdrop
    rw [List.length_drop, length_flat, List.length_append, List.length_cons] at hle
    omega
  have haddr : v + BitVec.ofNat 32 (0 * BLOCK_SIZE) = v := by
    rw [Nat.zero_mul]
    exact BitVec.add_zero v
  obtain ⟨m', hruns, -, hflat, e, -⟩ := user2System_eq h BLOCK_SIZE (v := v)
    (.inr (by rw [hdrop]; exact List.mem_append_right _ List.mem_cons_self))
  have hbuf : kernelBuf pageTable w.machine v BLOCK_SIZE =
      s ++ ([0] ++ List.replicate (BLOCK_SIZE + 1 - (s ++ [0]).length) 0) := by
    have hcopy : toCopy pageTable w.machine v BLOCK_SIZE 0 = s ++ [0] := by
      rw [toCopy, Nat.add_zero, List.take_of_length_le, hdrop, through_string hnul]
      rw [List.length_drop, length_flat]
      exact Nat.le_trans (Nat.sub_le _ _) (Nat.le_trans hN (by decide))
    rw [kernelBuf, hcopy, List.append_assoc]
  have hcnt : (((kernelBuf pageTable w.machine v BLOCK_SIZE).take BLOCK_SIZE).takeWhile (· ≠ 0)) =
      s := by
    obtain ⟨k, hk⟩ : ∃ k, BLOCK_SIZE - s.length = k + 1 :=
      ⟨BLOCK_SIZE - s.length - 1, by unfold BLOCK_SIZE; omega⟩
    rw [hbuf, List.take_append, List.take_of_length_le (by unfold BLOCK_SIZE; omega), hk,
      List.singleton_append, List.take_succ_cons]
    exact takeWhile_string hnul _
  have hexec : exec other (printString v 0) w =
      .returned ({ w with machine := m', sent := w.sent ++ s }.resume 0) := by
    rw [printString, if_pos (by decide), haddr, exec, e]
    dsimp only [Outcome.ofResult]
    rw [hcnt, exec_call (call_write (by rw [hbuf, List.length_append]; omega)),
      if_pos (by unfold BLOCK_SIZE; omega), exec_returns, hbuf, Int.toNat_natCast, List.take_left]
  refine ⟨1, m', ?_, hruns, hflat⟩
  rw [run_jump (by rw [SyscallPrintString, exec, hr4, if_neg hv, exec])]
  exact hexec

variable (other) in
/-- Without a zero the kernel comes to the end of the memory, and nothing is sent. -/
theorem run_printString_raised (h : Runs pageTable w.machine) (hr4 : w.machine.registers 4 = v)
    (hv : v ≠ 0) (hnul : 0 ∉ (flat pageTable w.machine).drop v.toNat) :
    ∃ fuel m', run other fuel SyscallPrintString w =
      .raised .addressErrorException { w with machine := m' } := by
  have hN := h.size_le
  obtain ⟨m', e⟩ := user2SystemLoop_raised (i := 0) h v.isLt hnul
    (show _ < v.toNat + 0 + BLOCK_SIZE by unfold BLOCK_SIZE; omega) (by decide)
  refine ⟨1, m', ?_⟩
  rw [run_jump (by rw [SyscallPrintString, exec, hr4, if_neg hv, exec])]
  show exec other (printString v 0) w = _
  have haddr : v + BitVec.ofNat 32 (0 * BLOCK_SIZE) = v := by
    rw [Nat.zero_mul]
    exact BitVec.add_zero v
  rw [printString, if_pos (by decide), haddr, exec, user2System, bind_raised e]
  rfl

/-- **`PrintString`** prints the string at an address, whatever is behind it; where there is none, up
to the end of the memory, the kernel stops before anything is printed; and it refuses the address 0. -/
theorem printString_prints (other : Call → World → Effect) (h : Runs pageTable w.machine)
    (hr4 : w.machine.registers 4 = v) :
    (v = 0 → ∀ fuel, run other fuel SyscallPrintString w = .returned (w.resume (-1))) ∧
    (v ≠ 0 → ∀ s, StringAt pageTable w.machine v s →
      ∃ fuel m', run other fuel SyscallPrintString w =
          .returned ({ w with machine := m', sent := w.sent ++ s }.resume 0) ∧
        flat pageTable m' = flat pageTable w.machine) ∧
    (v ≠ 0 → (¬ ∃ s, StringAt pageTable w.machine v s) →
      ∃ fuel m', run other fuel SyscallPrintString w =
        .raised .addressErrorException { w with machine := m' }) := by
  refine ⟨fun hv fuel => ?_, fun hv s hs => ?_, fun hv hnone => ?_⟩
  · exact run_returned (by rw [SyscallPrintString, exec, hr4, if_pos hv, exec_returns]) fuel
  · obtain ⟨fuel, m', e, -, hflat⟩ := run_printString other h hr4 hv hs
    exact ⟨fuel, m', e, hflat⟩
  · refine run_printString_raised other h hr4 hv fun hmem => hnone ?_
    obtain ⟨s, r, hdrop, hnul⟩ := List.eq_append_cons_of_mem hmem
    exact ⟨s, hnul, r, hdrop⟩

/-- `A` and a zero at the address 16. -/
theorem printString_prints_one : ∃ fuel m', run noOther fuel SyscallPrintString (writesZero 0 0) =
    .returned ({ writesZero 0 0 with machine := m', sent := [0x41] }.resume 0) := by
  have hs : StringAt twoPages (writesZero 0 0).machine 16 [0x41] :=
    ⟨by decide, (flat twoPages (writesZero 0 0).machine).drop 18, by decide +kernel⟩
  obtain ⟨fuel, m', e, -⟩ := (printString_prints noOther (writesZero_args 0 0).runs
    (writesZero_args 0 0).r4).2.1 (by decide) [0x41] hs
  exact ⟨fuel, m', e⟩

end

end Nachos.Syscall
