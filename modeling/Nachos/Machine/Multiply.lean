import Mathlib.Data.BitVec
import Mathlib.Tactic.Ring
import Nachos.Machine.Mips

/-!
# Machine — Multiply

`Mult` (machine/mipssim.cc): a loop over the bits of `a` that adds `b`, shifted, to a double word,
with carries made by hand.  The double word `hi, lo` is the number `hi ++ lo` of 64 bits; on it the
carry is an addition (`append_add`), the shift of `b` a doubling (`append_double`) and the two's
complement a negation (`append_neg`).  So the loop adds the product of `b` and of the bits of `a` it
still has to look at (`multLoop_eq`).  That `a` is an `int`, which `>>` shifts arithmetically, does
not matter: the bits shifted in are not looked at in 32 rounds.
-/

namespace Nachos.Machine

section
variable {a b hi lo bHi bLo : Word}

theorem append_toNat (hi lo : Word) : (hi ++ lo).toNat = hi.toNat * 2 ^ 32 + lo.toNat := by
  rw [BitVec.toNat_append, Nat.shiftLeft_eq, Nat.mul_comm,
    ← Nat.two_pow_add_eq_or_of_lt lo.isLt, Nat.mul_comm]

/-- An addition of double words, with the carry out of the low word. -/
theorem append_add (hi lo bHi bLo : Word) :
    (if lo + bLo < bLo then hi + 1 else hi) + bHi ++ (lo + bLo) = (hi ++ lo) + (bHi ++ bLo) := by
  apply BitVec.eq_of_toNat_eq
  have h₁ := lo.isLt
  have h₂ := bLo.isLt
  have hcarry : (lo + bLo < bLo) ↔ 2 ^ 32 ≤ lo.toNat + bLo.toNat := by
    rw [BitVec.lt_def, BitVec.toNat_add]
    omega
  rw [BitVec.toNat_add, append_toNat, append_toNat, append_toNat, BitVec.toNat_add, BitVec.toNat_add]
  by_cases hc : lo + bLo < bLo
  · have := hcarry.mp hc
    rw [if_pos hc, BitVec.toNat_add, show (1 : Word).toNat = 1 from rfl]
    omega
  · have := mt hcarry.mpr hc
    rw [if_neg hc]
    omega

/-- The sign bit of a word. -/
theorem and_signBit (x : Word) : x &&& SIGN_BIT = 0 ↔ x.toNat < 2 ^ 31 := by
  have hbit : x.getLsbD 31 = decide (2 ^ 31 ≤ x.toNat) := BitVec.msb_eq_decide x
  rw [show SIGN_BIT = BitVec.twoPow 32 31 from rfl, BitVec.and_twoPow, hbit]
  by_cases h : 2 ^ 31 ≤ x.toNat
  · rw [decide_eq_true h, if_pos rfl]
    exact iff_of_false (by decide) (Nat.not_lt.mpr h)
  · rw [decide_eq_false h, if_neg Bool.false_ne_true]
    exact iff_of_true rfl (Nat.not_le.mp h)

theorem shiftLeft_or_one (x : Word) : (x <<< 1 ||| 1).toNat = (x <<< 1).toNat + 1 := by
  have he : (x <<< 1).toNat = 2 ^ 1 * (x.toNat % 2 ^ 31) := by
    rw [BitVec.toNat_shiftLeft, Nat.shiftLeft_eq]
    omega
  rw [BitVec.toNat_or, he, show (1 : Word).toNat = 1 from rfl,
    ← Nat.two_pow_add_eq_or_of_lt (by decide)]

/-- The shift of a double word to the left. -/
theorem append_double (bHi bLo : Word) :
    (if bLo &&& 0x80000000 ≠ 0 then bHi <<< 1 ||| 1 else bHi <<< 1) ++ (bLo <<< 1) =
      (bHi ++ bLo) + (bHi ++ bLo) := by
  apply BitVec.eq_of_toNat_eq
  have h₁ := bLo.isLt
  have h₂ := bHi.isLt
  have hsign : bLo &&& 0x80000000 = 0 ↔ bLo.toNat < 2 ^ 31 := and_signBit bLo
  have hlo : (bLo <<< 1).toNat = bLo.toNat * 2 % 2 ^ 32 := by
    rw [BitVec.toNat_shiftLeft, Nat.shiftLeft_eq]
  have hhi : (bHi <<< 1).toNat = bHi.toNat * 2 % 2 ^ 32 := by
    rw [BitVec.toNat_shiftLeft, Nat.shiftLeft_eq]
  rw [BitVec.toNat_add, append_toNat, append_toNat, hlo]
  by_cases hc : bLo &&& 0x80000000 = 0
  · have := hsign.mp hc
    rw [if_neg (not_not.mpr hc), hhi]
    omega
  · have := mt hsign.mpr hc
    rw [if_pos hc, shiftLeft_or_one, hhi]
    omega

/-- The two's complement of a double word. -/
theorem append_neg (hi lo : Word) :
    (if ~~~lo + 1 = 0 then ~~~hi + 1 else ~~~hi) ++ (~~~lo + 1) = -(hi ++ lo) := by
  apply BitVec.eq_of_toNat_eq
  have h₁ := lo.isLt
  have h₂ := hi.isLt
  have hlo : (~~~lo + 1).toNat = (2 ^ 32 - lo.toNat) % 2 ^ 32 := by
    rw [BitVec.toNat_add, BitVec.toNat_not, show (1 : Word).toNat = 1 from rfl]
    omega
  have hzero : ~~~lo + 1 = 0 ↔ lo.toNat = 0 := by
    rw [← BitVec.toNat_inj, hlo, show (0 : Word).toNat = 0 from rfl]
    omega
  rw [BitVec.toNat_neg, append_toNat, append_toNat, hlo]
  by_cases hc : ~~~lo + 1 = 0
  · have := hzero.mp hc
    rw [if_pos hc, BitVec.toNat_add, BitVec.toNat_not, show (1 : Word).toNat = 1 from rfl]
    omega
  · have := mt hzero.mpr hc
    rw [if_neg hc, BitVec.toNat_not]
    omega

/-! ### The loop -/

theorem and_one (a : Word) : a &&& 1 ≠ 0 ↔ a.toNat % 2 = 1 := by
  rw [← BitVec.toNat_inj.ne, BitVec.toNat_and, show (1 : Word).toNat = 1 from rfl, Nat.and_one_is_mod,
    show (0 : Word).toNat = 0 from rfl]
  omega

/-- Nothing is left of `a` but its last bit. -/
theorem eq_one_of_and (ha : a &&& 1 ≠ 0) (h : a &&& 0xfffffffe = 0) : a = 1 := by
  have hsplit : a = a &&& 1 := by
    calc a = a &&& (1 ||| 0xfffffffe) := (BitVec.and_allOnes).symm
      _ = (a &&& 1) ||| (a &&& 0xfffffffe) := BitVec.and_or_distrib_left
      _ = a &&& 1 := by rw [h]; exact BitVec.or_zero
  have hodd := (and_one a).mp ha
  apply BitVec.eq_of_toNat_eq
  rw [hsplit, BitVec.toNat_and, show (1 : Word).toNat = 1 from rfl, Nat.and_one_is_mod]
  exact hodd

/-- The bits a shift leaves, up to the last but one. -/
theorem sshiftRight_one_mod (a : Word) {n : Nat} (hn : n ≤ 31) :
    (a.sshiftRight 1).toNat % 2 ^ n = a.toNat / 2 % 2 ^ n := by
  apply Nat.eq_of_testBit_eq
  intro j
  rw [Nat.testBit_mod_two_pow, Nat.testBit_mod_two_pow, Nat.testBit_div_two]
  by_cases hj : j < n
  · have hbit := BitVec.getLsbD_sshiftRight a 1 j
    rw [decide_eq_false (by omega : ¬ 32 ≤ j), if_pos (by omega : 1 + j < 32), Nat.add_comm] at hbit
    exact congrArg (decide (j < n) && ·) hbit
  · rw [decide_eq_false hj, Bool.false_and, Bool.false_and]

/-- The next bit of `a`, and the ones behind it. -/
theorem mod_succ (a : Word) {n : Nat} (hn : n ≤ 31) :
    a.toNat % 2 ^ (n + 1) = a.toNat % 2 + 2 * ((a.sshiftRight 1).toNat % 2 ^ n) := by
  rw [sshiftRight_one_mod a hn, pow_succ', Nat.mod_mul]

/-- What a bit of `a` and the ones behind it contribute. -/
theorem ofNat_bits_mul (bit x : Nat) (B : BitVec (32 + 32)) :
    BitVec.ofNat (32 + 32) (bit + 2 * x) * B =
      BitVec.ofNat (32 + 32) bit * B + BitVec.ofNat (32 + 32) x * (B + B) := by
  rw [BitVec.ofNat_add, BitVec.ofNat_mul, show BitVec.ofNat (32 + 32) 2 = 2 from rfl]
  ring

/-- **The loop adds the product of `b` and of the next `n` bits of `a`.** -/
theorem multLoop_eq {n : Nat} (hn : n ≤ 32) (a bLo bHi lo hi : Word) :
    (multLoop n a bLo bHi lo hi).1 ++ (multLoop n a bLo bHi lo hi).2 =
      (hi ++ lo) + BitVec.ofNat (32 + 32) (a.toNat % 2 ^ n) * (bHi ++ bLo) := by
  induction n generalizing a bLo bHi lo hi with
  | zero => simp [multLoop, Nat.mod_one]
  | succ n ih =>
      have hmod := mod_succ a (n := n) (by omega)
      unfold multLoop
      dsimp only
      by_cases hodd : a &&& 1 ≠ 0
      · rw [if_pos hodd, if_pos hodd]
        have hbit := (and_one a).mp hodd
        by_cases hend : a &&& 0xfffffffe = 0
        · -- the other bits are zero, so they need not be looked at
          have hone : (1 : Word).toNat % 2 ^ (n + 1) = 1 := 
            Nat.mod_eq_of_lt (Nat.one_lt_two_pow n.succ_ne_zero)
          rw [if_pos ⟨hodd, hend⟩, eq_one_of_and hodd hend, append_add, hone]
          exact congrArg _ (BitVec.one_mul _).symm
        · rw [if_neg fun h => hend h.2, ih (by omega), append_add, append_double, hmod, hbit,
            ofNat_bits_mul, BitVec.add_assoc]
          exact congrArg _ (congrArg (· + _) (BitVec.one_mul _).symm)
      · have hbit : a.toNat % 2 = 0 := by
          have := mt (and_one a).mpr hodd
          omega
        rw [if_neg hodd, if_neg hodd, if_neg fun h => hodd h.1, ih (by omega), append_double, hmod,
          hbit, ofNat_bits_mul]
        exact congrArg _ (by rw [BitVec.zero_mul, BitVec.zero_add])

/-- The whole loop. -/
theorem multLoop_product (a b : Word) : (multLoop 32 a b 0 0 0).1 ++ (multLoop 32 a b 0 0 0).2 =
    BitVec.ofNat (32 + 32) (a.toNat * b.toNat) := by
  have hb : (0 : Word) ++ b = BitVec.ofNat (32 + 32) b.toNat := by
    apply BitVec.eq_of_toNat_eq
    rw [append_toNat, BitVec.toNat_ofNat, Nat.mod_eq_of_lt (by omega),
      show (0 : Word).toNat = 0 from rfl, Nat.zero_mul, Nat.zero_add]
  rw [multLoop_eq (Nat.le_refl 32), hb, Nat.mod_eq_of_lt a.isLt, BitVec.ofNat_mul]
  exact BitVec.zero_add _

/-! ### Signs -/

/-- What `Mult` makes of an operand before the loop. -/
theorem toNat_magnitude (a : Word) : (if a.slt 0 then -a else a).toNat = a.toInt.natAbs := by
  have ha := a.isLt
  have hslt : a.slt 0 = decide (a.toInt < 0) := rfl
  have hint := BitVec.toInt_eq_toNat_cond a
  rw [hslt]
  split at hint
  · rw [if_neg (by simp only [decide_eq_true_eq]; omega)]
    omega
  · rw [if_pos (by simp only [decide_eq_true_eq]; omega), BitVec.toNat_neg]
    omega

theorem natAbs_le (a : Word) : a.toInt.natAbs ≤ 2 ^ 31 := by
  have ha := a.isLt
  have hint := BitVec.toInt_eq_toNat_cond a
  split at hint <;> omega

/-- A product of magnitudes, read with a sign. -/
theorem toInt_product {p : Nat} (hp : p ≤ 2 ^ 31 * 2 ^ 31) :
    (BitVec.ofNat (32 + 32) p).toInt = p ∧ (-BitVec.ofNat (32 + 32) p).toInt = -p := by
  have hnat : (BitVec.ofNat (32 + 32) p).toNat = p := by
    rw [BitVec.toNat_ofNat, Nat.mod_eq_of_lt (by omega)]
  have h : (BitVec.ofNat (32 + 32) p).toInt = p := by
    rw [BitVec.toInt_eq_toNat_of_lt (by omega), hnat]
  refine ⟨h, ?_⟩
  rw [BitVec.toInt_neg, h]
  exact Int.bmod_eq_of_le (by omega) (by omega)

/-- The product of two numbers, by their magnitudes and signs. -/
theorem mul_eq_natAbs (x y : Int) : x * y =
    if (decide (x < 0) ^^ decide (y < 0)) then -((x.natAbs * y.natAbs : Nat) : Int)
    else ((x.natAbs * y.natAbs : Nat) : Int) := by
  rw [Int.natCast_mul]
  by_cases hx : x < 0 <;> by_cases hy : y < 0 <;> simp only [hx, hy, decide_true, decide_false]
  · rw [Int.ofNat_natAbs_of_nonpos hx.le, Int.ofNat_natAbs_of_nonpos hy.le, Int.neg_mul_neg]
    rfl
  · rw [Int.ofNat_natAbs_of_nonpos hx.le, Int.natAbs_of_nonneg (not_lt.mp hy), Int.neg_mul,
      Int.neg_neg]
    rfl
  · rw [Int.natAbs_of_nonneg (not_lt.mp hx), Int.ofNat_natAbs_of_nonpos hy.le, Int.mul_neg,
      Int.neg_neg]
    rfl
  · rw [Int.natAbs_of_nonneg (not_lt.mp hx), Int.natAbs_of_nonneg (not_lt.mp hy)]
    rfl

/-- What `Mult` answers, as one double word. -/
theorem mult_append (a b : Word) (signedArith : Bool) (h0 : ¬ (a = 0 ∨ b = 0)) :
    (mult a b signedArith).1 ++ (mult a b signedArith).2 =
      if (signedArith && a.slt 0) ^^ (signedArith && b.slt 0) then
        -BitVec.ofNat (32 + 32) ((if signedArith && a.slt 0 then -a else a).toNat *
          (if signedArith && b.slt 0 then -b else b).toNat)
      else
        BitVec.ofNat (32 + 32) ((if signedArith && a.slt 0 then -a else a).toNat *
          (if signedArith && b.slt 0 then -b else b).toNat) := by
  rw [mult, if_neg h0]
  dsimp only
  split
  · rw [append_neg, multLoop_product]
  · exact multLoop_product _ _

/-- **`Mult` computes the full product**, of signed as of unsigned words. -/
theorem mult_exact (a b : Word) :
    ((mult a b true).1 ++ (mult a b true).2).toInt = a.toInt * b.toInt ∧
    ((mult a b false).1 ++ (mult a b false).2).toNat = a.toNat * b.toNat := by
  by_cases h0 : a = 0 ∨ b = 0
  · have hz : ∀ signedArith, mult a b signedArith = (0, 0) := fun _ => if_pos h0
    rw [hz, hz]
    rcases h0 with rfl | rfl
    · exact ⟨(Int.zero_mul _).symm, (Nat.zero_mul _).symm⟩
    · exact ⟨(Int.mul_zero _).symm, (Nat.mul_zero _).symm⟩
  rw [mult_append a b true h0, mult_append a b false h0]
  constructor
  · have hp := toInt_product (Nat.mul_le_mul (natAbs_le a) (natAbs_le b))
    simp only [Bool.true_and]
    rw [toNat_magnitude, toNat_magnitude, apply_ite BitVec.toInt, hp.1, hp.2, mul_eq_natAbs]
    rfl
  · have hp : a.toNat * b.toNat < 2 ^ 32 * 2 ^ 32 := Nat.mul_lt_mul'' a.isLt b.isLt
    simp only [Bool.false_and, Bool.xor_false, Bool.false_eq_true, if_false]
    rw [BitVec.toNat_ofNat]
    exact Nat.mod_eq_of_lt hp

end

end Nachos.Machine
