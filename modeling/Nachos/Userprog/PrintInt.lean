import Nachos.Userprog.ReadInt

/-!
# Userprog — PrintInt

`SyscallPrintInt` (userprog/exception.cc): it makes the numeral in a buffer of 13 bytes, from the last
digit on, with the division of C, which goes towards 0, and turns it around (`printInt`).  The numeral
is `decimal`, in at most 11 bytes, and `SyscallReadInt` reads it (`read_undoes_print`).
-/

namespace Nachos.Syscall
open Lib SynchConsole

/-- `#define ABS(x)`. -/
def ABS (x : Int) : Int := if x < 0 then -x else x

theorem natAbs_tdiv_ten (x : Int) : (x.tdiv 10).natAbs = x.natAbs / 10 := Int.natAbs_tdiv x 10

theorem natAbs_tdiv_lt {x : Int} (h : x.tdiv 10 ≠ 0) : (x.tdiv 10).natAbs < x.natAbs := by
  have := natAbs_tdiv_ten x
  omega

/-- The first loop: the digits of `tmp_number`, from `str[len]` on. -/
def printDigits (str : List Byte) (len : Nat) (tmp_number : Int) : List Byte × Nat :=
  if h : tmp_number.tdiv 10 = 0 then
    (str.set len (BitVec.ofInt 8 (ABS (tmp_number.tmod 10) + 0x30)), len + 1)
  else
    printDigits (str.set len (BitVec.ofInt 8 (ABS (tmp_number.tmod 10) + 0x30))) (len + 1)
      (tmp_number.tdiv 10)
termination_by tmp_number.natAbs
decreasing_by exact natAbs_tdiv_lt h

/-- `-` behind the digits of a negative number. -/
def printSign (number : Int) (p : List Byte × Nat) : List Byte × Nat :=
  if number < 0 then (p.1.set p.2 0x2d, p.2 + 1) else p

/-- The buffer of `SyscallPrintInt`, and how much of it is written; `heap` is what was there before. -/
def printInt (heap : Fin 13 → Byte) (number : Int) : List Byte × Nat :=
  let (str, len) := printSign number (printDigits (List.ofFn heap) 0 number)
  (reverseRounds 0 len (len / 2) str, len)

/-! ### The numeral -/

/-- The digits of a number, as characters. -/
def digits (n : Nat) : List Byte := (Nat.toDigits 10 n).map fun ch => BitVec.ofNat 8 ch.toNat

section
variable {n : Nat} {number : Int} {str : List Byte} {len : Nat}

theorem digitChar_byte : ∀ d < 10,
    BitVec.ofNat 8 (Nat.digitChar d).toNat = BitVec.ofNat 8 (0x30 + d) := by
  decide

/-- The last digit comes behind the others. -/
theorem digits_eq (n : Nat) : digits n =
    (if n / 10 = 0 then [] else digits (n / 10)) ++ [BitVec.ofNat 8 (0x30 + n % 10)] := by
  have hmod : n % 10 < 10 := Nat.mod_lt _ (by decide)
  unfold digits
  rw [Nat.toDigits_eq_if (by decide)]
  by_cases h : n < 10
  · rw [if_pos h, if_pos (by omega), List.map_singleton, List.nil_append, digitChar_byte n h,
      Nat.mod_eq_of_lt h]
  · rw [if_neg h, if_neg (by omega), List.map_append, List.map_singleton, digitChar_byte _ hmod]

theorem decimal_eq (number : Int) : decimal number = sign (decide (number < 0)) ++ digits number.natAbs := by
  unfold decimal sign
  simp only [decide_eq_true_eq]
  rfl

theorem length_digits_le (h : n ≤ 2 ^ 31) : (digits n).length ≤ 10 := by
  rw [digits, List.length_map]
  exact (Nat.length_toDigits_le_iff (by decide) (by decide)).mpr (by omega)

theorem digits_ne_nil : digits n ≠ [] := by
  rw [digits_eq]
  simp

theorem toNat_digitByte {d : Nat} (h : d < 10) : (BitVec.ofNat 8 (0x30 + d) : Byte).toNat = 0x30 + d := by
  rw [BitVec.toNat_ofNat]
  omega

theorem isDigit_digitByte {d : Nat} (h : d < 10) : isDigit (BitVec.ofNat 8 (0x30 + d)) = true := by
  rw [isDigit, toNat_digitByte h]
  simp
  omega

theorem isDigit_digits (n : Nat) : ∀ d ∈ digits n, isDigit d = true := by
  induction n using Nat.strongRecOn with
  | ind n ih =>
      intro d hd
      rw [digits_eq, List.mem_append, List.mem_singleton] at hd
      rcases hd with hd | rfl
      · split at hd
        · cases hd
        · exact ih (n / 10) (by omega) d hd
      · exact isDigit_digitByte (Nat.mod_lt _ (by decide))

/-- The numeral of a number has its value. -/
theorem magnitude_digits (n : Nat) : magnitude (digits n) = n := by
  induction n using Nat.strongRecOn with
  | ind n ih =>
      have hmod : n % 10 < 10 := Nat.mod_lt _ (by decide)
      rw [digits_eq, magnitude, List.map_append, List.map_singleton, ofDigits_snoc,
        toNat_digitByte hmod]
      split
      · rw [List.map_nil, ofDigits, List.foldl_nil]
        omega
      · have hrest : ofDigits 10 ((digits (n / 10)).map fun c => c.toNat - 0x30) = n / 10 :=
          ih (n / 10) (by omega)
        rw [hrest]
        omega

/-- No numeral but that of 0 begins with a 0. -/
theorem head?_digits (n : Nat) (h : (digits n).head? = some 0x30) : n = 0 := by
  induction n using Nat.strongRecOn with
  | ind n ih =>
      rw [digits_eq] at h
      split at h
      · have hmod : n % 10 < 10 := Nat.mod_lt _ (by decide)
        have hbyte := congrArg BitVec.toNat (Option.some.inj h)
        rw [toNat_digitByte hmod, show (0x30 : Byte).toNat = 0x30 from rfl] at hbyte
        omega
      · rw [List.head?_append_of_ne_nil _ digits_ne_nil] at h
        have := ih (n / 10) (by omega) h
        omega

/-! ### The loops -/

/-- The digit of a round. -/
theorem byte_tmod (x : Int) :
    BitVec.ofInt 8 (ABS (x.tmod 10) + 0x30) = BitVec.ofNat 8 (0x30 + x.natAbs % 10) := by
  have habs : ABS (x.tmod 10) = ((x.tmod 10).natAbs : Int) := by
    unfold ABS
    split <;> omega
  rw [habs, Int.natAbs_tmod, show (10 : Int).natAbs = 10 from rfl, Int.add_comm]
  exact BitVec.ofInt_natCast 8 (0x30 + x.natAbs % 10)

/-- What has been written. -/
structure Written (str : List Byte) (len : Nat) (t : List Byte) (p : List Byte × Nat) : Prop where
  count : p.2 = len + t.length
  size : p.1.length = str.length
  bytes : p.1.take p.2 = str.take len ++ t
  others : p.1.drop p.2 = str.drop p.2

theorem Written.one (c : Byte) (h : len < str.length) :
    Written str len [c] (str.set len c, len + 1) where
  count := rfl
  size := List.length_set
  bytes := by
    rw [List.take_add_one, List.take_set_of_le (Nat.le_refl len), List.getElem?_set_self h,
      Option.toList_some]
  others := List.drop_set_of_lt (Nat.lt_succ_self len)

theorem Written.trans {t u : List Byte} {p q : List Byte × Nat} (h₁ : Written str len t p)
    (h₂ : Written p.1 p.2 u q) : Written str len (t ++ u) q where
  count := by rw [h₂.count, h₁.count, List.length_append, Nat.add_assoc]
  size := h₂.size.trans h₁.size
  bytes := by rw [h₂.bytes, h₁.bytes, List.append_assoc]
  others := by
    have hq : q.2 = p.2 + u.length := h₂.count
    rw [h₂.others, hq, ← List.drop_drop, h₁.others, List.drop_drop]

theorem written_printDigits (h : len + (digits number.natAbs).length ≤ str.length) :
    Written str len (digits number.natAbs).reverse (printDigits str len number) := by
  induction str, len, number using printDigits.induct with
  | case1 str len number hend =>
      have hdiv : number.natAbs / 10 = 0 := by
        rw [← natAbs_tdiv_ten, hend]
        rfl
      rw [printDigits, dif_pos hend, byte_tmod]
      rw [digits_eq, if_pos hdiv, List.nil_append] at h ⊢
      exact .one _ h
  | case2 str len number hmore ih =>
      have hnat := natAbs_tdiv_ten number
      have hdiv : number.natAbs / 10 ≠ 0 := by omega
      rw [printDigits, dif_neg hmore, byte_tmod]
      rw [byte_tmod, hnat] at ih
      rw [digits_eq, if_neg hdiv, List.length_append, List.length_singleton] at h
      rw [digits_eq, if_neg hdiv, List.reverse_append, List.reverse_singleton]
      exact (Written.one _ (by omega)).trans (ih (by rw [List.length_set]; omega))

theorem written_printSign {t : List Byte} {p : List Byte × Nat} (h : Written str len t p)
    (hlen : p.2 < str.length) : Written str len (t ++ (sign (decide (number < 0))).reverse)
      (printSign number p) := by
  unfold printSign sign
  by_cases hneg : number < 0
  · rw [if_pos hneg, if_pos (decide_eq_true hneg)]
    exact h.trans (.one _ (by rw [h.size]; exact hlen))
  · rw [if_neg hneg, if_neg (by simpa using hneg), List.reverse_nil, List.append_nil]
    exact h

/-- The numeral of an `int` is short. -/
theorem length_decimal_le (h : number.natAbs ≤ 2 ^ 31) : (decimal number).length ≤ 11 := by
  have hten := length_digits_le h
  have hsign : (sign (decide (number < 0))).length ≤ 1 := by
    unfold sign
    split <;> simp
  rw [decimal_eq, List.length_append]
  omega

theorem written_numeral (heap : Fin 13 → Byte) (h : number.natAbs ≤ 2 ^ 31) :
    Written (List.ofFn heap) 0 (decimal number).reverse
      (printSign number (printDigits (List.ofFn heap) 0 number)) := by
  have hten := length_digits_le h
  have hsize : (List.ofFn heap).length = 13 := List.length_ofFn
  have hdigits : Written (List.ofFn heap) 0 _ (printDigits (List.ofFn heap) 0 number) :=
    written_printDigits (by omega)
  have hcount := hdigits.count
  rw [List.length_reverse] at hcount
  rw [decimal_eq, List.reverse_append]
  exact written_printSign hdigits (by omega)

/-- **The buffer of `SyscallPrintInt`** holds the numeral, and the bytes behind it are those from
before. -/
theorem printInt_eq (heap : Fin 13 → Byte) (h : number.natAbs ≤ 2 ^ 31) :
    (printInt heap number).2 = (decimal number).length ∧
      (printInt heap number).1 =
        decimal number ++ (List.ofFn heap).drop (decimal number).length := by
  have hdec := length_decimal_le h
  have hsize : (List.ofFn heap).length = 13 := List.length_ofFn
  have hall := written_numeral heap h
  have hlen := hall.count
  rw [List.length_reverse, Nat.zero_add] at hlen
  have hstr := hall.size
  have hbytes := hall.bytes
  have hothers := hall.others
  rw [hlen] at hbytes hothers
  unfold printInt
  generalize printSign number (printDigits (List.ofFn heap) 0 number) = p at hlen hstr hbytes hothers ⊢
  obtain ⟨str, len⟩ := p
  dsimp only at hlen hstr hbytes hothers ⊢
  subst hlen
  refine ⟨rfl, ?_⟩
  rw [← List.take_append_drop (decimal number).length (reverseRounds _ _ _ str),
    take_reverseRounds 0 (by omega), drop_reverseRounds 0 (by omega), hbytes, hothers,
    List.take_zero, List.nil_append, List.reverse_reverse]

/-! ### Printed and read -/

theorem ne_eof_of_digit {c : Byte} (h : isDigit c = true) : c ≠ EOF := by
  rintro rfl
  cases h

theorem ne_eof_of_space {c : Byte} (h : isSpace c = true) : c ≠ EOF := by
  rintro rfl
  cases h

/-- The characters of a numeral between blanks come as they are. -/
theorem delivers_numeral {blanks ds rest : List Byte} {t : Byte} {neg : Bool}
    (hb : ∀ b ∈ blanks, isSpace b = true) (hds : ∀ d ∈ ds, isDigit d = true) (ht : isSpace t = true) :
    Delivers rest (blanks ++ ((sign neg ++ ds) ++ t :: rest)) (blanks ++ (sign neg ++ (ds ++ [t]))) := by
  have h := delivers_append (blanks ++ (sign neg ++ (ds ++ [t]))) rest ?_
  · simpa using h
  · simp only [List.mem_append, List.mem_singleton, not_or]
    refine ⟨fun h => ne_eof_of_space (hb _ h) rfl, ?_, fun h => ne_eof_of_digit (hds _ h) rfl,
      (ne_eof_of_space ht).symm⟩
    cases neg <;> decide

/-- **`ReadInt` undoes `PrintInt`.**  For every `int` the numeral is without leading zeros, with a
sign for negative numbers only, in at most 11 bytes of the buffer; it is what is sent; and behind any
blanks and before one blank it is read as the number, with all that follows left. -/
theorem read_undoes_print (heap : Fin 13 → Byte) (other : Call → World → Effect) (n : Word) :
    ∃ neg ds, (neg = true ↔ n.toInt < 0) ∧ numeralValue neg ds = n.toInt ∧ ds ≠ [] ∧
      (∀ d ∈ ds, isDigit d = true) ∧ (ds.head? = some 0x30 → ds = [0x30]) ∧
      (sign neg ++ ds).length ≤ 11 ∧
      printInt heap n.toInt = (sign neg ++ ds ++ (List.ofFn heap).drop (sign neg ++ ds).length,
        (sign neg ++ ds).length) ∧
      (∀ w : World, w.machine.registers 4 = n → exec other SyscallPrintInt w =
        .returned { w with machine := w.machine.adjustPCRegs, sent := w.sent ++ (sign neg ++ ds) }) ∧
      ∀ (w : World) (blanks : List Byte) (t : Byte) (rest : List Byte),
        (∀ b ∈ blanks, isSpace b = true) → isSpace t = true →
        w.stream = blanks ++ ((sign neg ++ ds) ++ t :: rest) →
        ∃ fuel w', run other fuel SyscallReadInt w = .returned w' ∧
          w'.machine.registers 2 = n ∧ w'.stream = rest := by
  have hlt := n.isLt
  have hint := BitVec.toInt_eq_toNat_cond n
  have habs : n.toInt.natAbs ≤ 2 ^ 31 := by
    split at hint <;> omega
  have hvalue : numeralValue (decide (n.toInt < 0)) (digits n.toInt.natAbs) = n.toInt := by
    rw [numeralValue, magnitude_digits, signed]
    by_cases hneg : n.toInt < 0
    · rw [if_pos (decide_eq_true hneg)]
      omega
    · rw [if_neg (by simpa using hneg)]
      omega
  refine ⟨decide (n.toInt < 0), digits n.toInt.natAbs, decide_eq_true_iff, hvalue, digits_ne_nil,
    isDigit_digits _, ?_, ?_, ?_, ?_, ?_⟩
  · intro h
    rw [head?_digits _ h]
    rfl
  · rw [← decimal_eq]
    exact length_decimal_le habs
  · rw [← decimal_eq]
    exact Prod.ext (printInt_eq heap habs).2 (printInt_eq heap habs).1
  · intro w hr4
    rw [← decimal_eq, SyscallPrintInt, exec, hr4]
    dsimp only
    rw [exec_call (call_write (Int.le_refl _)), Int.toNat_natCast, List.take_length]
    rfl
  · intro w blanks t rest hb ht hstream
    have ht' : isDigit t = false := by
      rcases isSpace_iff.mp ht with rfl | rfl | rfl <;> rfl
    obtain ⟨fuel, hrun⟩ := run_readInt_numeral other (w := w) hb (isDigit_digits _)
      (fun _ => digits_ne_nil) ht' (hstream ▸ delivers_numeral hb (isDigit_digits _) ht)
    refine ⟨fuel, _, hrun, ?_, rfl⟩
    rw [resume_r2, accumulated_of_inRange, hvalue, BitVec.ofInt_toInt]
    rw [hvalue]
    split at hint <;> omega

end

end Nachos.Syscall
