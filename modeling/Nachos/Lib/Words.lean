import Mathlib.Algebra.Ring.Nat

/-!
# Lib — Words

Words of 32 bits in an array of bytes, the least significant byte first.  `wordAt` reads one and
`byteOf` gives its bytes; `wordAt_eq` says that a word is read back from its bytes, and `toInt_ofNat`
that a number below 2³¹ is read back from its word.
-/

namespace Lib

theorem toInt_ofNat {n : Nat} (h : n < 2 ^ 31) : (BitVec.ofNat 32 n).toInt = n := by
  have hn : (BitVec.ofNat 32 n).toNat = n := by
    rw [BitVec.toNat_ofNat, Nat.mod_eq_of_lt (by omega)]
  rw [BitVec.toInt_eq_toNat_of_lt (by omega), hn]

/-- The word at `a`. -/
def wordAt (f : Nat → BitVec 8) (a : Nat) : BitVec 32 := f (a + 3) ++ f (a + 2) ++ f (a + 1) ++ f a

/-- Byte `i` of a word. -/
def byteOf (w : BitVec 32) (i : Nat) : BitVec 8 := w.extractLsb' (8 * i) 8

theorem getLsbD_byteOf (w : BitVec 32) (i : Nat) {k : Nat} (hk : k < 8) :
    (byteOf w i).getLsbD k = w.getLsbD (8 * i + k) := by
  unfold byteOf
  simp [hk]

theorem wordAt_congr {f g : Nat → BitVec 8} {a : Nat} (h : ∀ i < 4, f (a + i) = g (a + i)) :
    wordAt f a = wordAt g a := by
  have h₀ := h 0 (by omega)
  rw [Nat.add_zero] at h₀
  unfold wordAt
  rw [h 3 (by omega), h 2 (by omega), h 1 (by omega), h₀]

/-- **A word is read back from its bytes.** -/
theorem wordAt_eq {f : Nat → BitVec 8} {a : Nat} {w : BitVec 32}
    (h : ∀ i < 4, f (a + i) = byteOf w i) : wordAt f a = w := by
  have h₀ := h 0 (by omega)
  rw [Nat.add_zero] at h₀
  unfold wordAt
  rw [h 3 (by omega), h 2 (by omega), h 1 (by omega), h₀]
  apply BitVec.eq_of_getLsbD_eq
  intro k hk
  simp only [BitVec.getLsbD_append]
  split
  · rw [getLsbD_byteOf w 0 (by omega)]
    congr 1
    omega
  split
  · rw [getLsbD_byteOf w 1 (by omega)]
    congr 1
    omega
  split
  · rw [getLsbD_byteOf w 2 (by omega)]
    congr 1
    omega
  · rw [getLsbD_byteOf w 3 (by omega)]
    congr 1
    omega

end Lib
