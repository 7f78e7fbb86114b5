import Mathlib.Data.Fintype.Card
import Mathlib.Data.List.FinRange
import Mathlib.Logic.Function.Basic

/-!
# Userprog — BitMap

`class BitMap` (userprog/bitmap.cc): `numBits` bits in an array of 32-bit words.  The index of a
bit has type `Fin numBits`, so the `ASSERT`s on it hold by typing, and the index of its word is
below `numWords`.

`test_mark`, `test_clear` and `test_new` say that a bitmap is a set of indices; `find_spec` and
`numClear_eq` read `Find` and `NumClear` over that set.
-/

namespace Nachos

/-- `divRoundUp` (threads/utility.h). -/
def divRoundUp (n s : Nat) : Nat := n / s + if n % s > 0 then 1 else 0

def BitsInWord : Nat := 32

theorem div_lt_divRoundUp {n s i : Nat} (hi : i < n) (hs : 0 < s) : i / s < divRoundUp n s := by
  unfold divRoundUp
  rw [Nat.div_lt_iff_lt_mul hs]
  have := Nat.div_add_mod n s
  have hm := Nat.mod_lt n hs
  split
  · rw [Nat.add_mul, Nat.mul_comm]; omega
  · rw [Nat.add_zero, Nat.mul_comm]; omega

/-- `class BitMap`: the words of the array `map`. -/
structure BitMap (numBits : Nat) where
  map : Fin (divRoundUp numBits BitsInWord) → BitVec 32

namespace BitMap
variable {n : Nat}

/-- `which / BitsInWord`, the word of a bit. -/
def word (which : Fin n) : Fin (divRoundUp n BitsInWord) :=
  ⟨which / BitsInWord, div_lt_divRoundUp which.isLt (by decide)⟩

/-- `1 << (which % BitsInWord)`. -/
def bit (which : Fin n) : BitVec 32 := 1#32 <<< (which.val % BitsInWord)

/-- `BitMap::Mark`. -/
def mark (b : BitMap n) (which : Fin n) : BitMap n :=
  ⟨Function.update b.map (word which) (b.map (word which) ||| bit which)⟩

/-- `BitMap::Clear`. -/
def clear (b : BitMap n) (which : Fin n) : BitMap n :=
  ⟨Function.update b.map (word which) (b.map (word which) &&& ~~~bit which)⟩

/-- `BitMap::Test`. -/
def test (b : BitMap n) (which : Fin n) : Bool := (b.map (word which) &&& bit which) != 0#32

/-- `BitMap::BitMap`: the words of a new array are arbitrary, and every bit is cleared. -/
def new (words : Fin (divRoundUp n BitsInWord) → BitVec 32) : BitMap n :=
  (List.finRange n).foldl clear ⟨words⟩

/-- `BitMap::Find`: the first clear bit, now marked; `none` is the source's `-1`. -/
def find (b : BitMap n) : Option (Fin n) × BitMap n :=
  match (List.finRange n).find? (fun i => !b.test i) with
  | some i => (some i, b.mark i)
  | none => (none, b)

/-- `BitMap::NumClear`. -/
def numClear (b : BitMap n) : Nat := (List.finRange n).countP (fun i => !b.test i)

/-! ### A bitmap is a set of indices -/

theorem mark_map (b : BitMap n) (i : Fin n) :
    (b.mark i).map = Function.update b.map (word i) (b.map (word i) ||| bit i) := rfl

theorem clear_map (b : BitMap n) (i : Fin n) :
    (b.clear i).map = Function.update b.map (word i) (b.map (word i) &&& ~~~bit i) := rfl

theorem and_shift_ne_zero (x : BitVec 32) {k : Nat} (hk : k < 32) :
    ((x &&& (1#32 <<< k)) != 0#32) = x.getLsbD k := by
  have h1 : (x &&& (1#32 <<< k)).getLsbD k = x.getLsbD k := by simp [hk]
  cases hx : x.getLsbD k with
  | true =>
      rw [bne_iff_ne]
      intro h0
      rw [h0, hx] at h1
      simp at h1
  | false =>
      have : x &&& (1#32 <<< k) = 0#32 := by
        apply BitVec.eq_of_getLsbD_eq
        intro i hi
        by_cases e : i = k
        · subst e; rw [h1, hx]; simp
        · have hik : ¬ (i < k) → i - k ≠ 0 := by omega
          simp only [BitVec.getLsbD_and, BitVec.getLsbD_shiftLeft, BitVec.getLsbD_one,
            BitVec.getLsbD_zero]
          by_cases hlt : i < k
          · simp [hlt]
          · simp [hik hlt]
      rw [this]
      rfl

theorem test_eq (b : BitMap n) (i : Fin n) :
    b.test i = (b.map (word i)).getLsbD (i.val % BitsInWord) :=
  and_shift_ne_zero _ (Nat.mod_lt _ (by decide))

theorem getLsbD_bit (i : Fin n) {k : Nat} (hk : k < 32) :
    (bit i).getLsbD k = decide (k = i.val % BitsInWord) := by
  have hi : i.val % BitsInWord < 32 := Nat.mod_lt _ (by decide)
  simp only [bit, BitVec.getLsbD_shiftLeft, BitVec.getLsbD_one]
  by_cases e : k = i.val % BitsInWord
  · simp [← e, hk]
  · by_cases hlt : k < i.val % BitsInWord
    · simp [hlt, e]
    · have : k - i.val % BitsInWord ≠ 0 := by omega
      simp [this, e]

/-- Two indices with the same word and the same bit are equal. -/
theorem eq_of_word_of_mod {i j : Fin n} (hw : word i = word j)
    (hm : i.val % BitsInWord = j.val % BitsInWord) : i = j := by
  have hd : i.val / BitsInWord = j.val / BitsInWord := congrArg Fin.val hw
  apply Fin.ext
  rw [← Nat.div_add_mod i.val BitsInWord, hd, hm, Nat.div_add_mod]

@[simp] theorem test_mark (b : BitMap n) (i j : Fin n) :
    (b.mark i).test j = (decide (j = i) || b.test j) := by
  have hj : j.val % BitsInWord < 32 := Nat.mod_lt _ (by decide)
  rw [test_eq, test_eq, mark_map]
  by_cases hw : word j = word i
  · rw [hw, Function.update_self, BitVec.getLsbD_or, getLsbD_bit i hj, Bool.or_comm]
    by_cases e : j = i
    · simp [e]
    · have : j.val % BitsInWord ≠ i.val % BitsInWord := fun hm => e (eq_of_word_of_mod hw hm)
      simp [e, this]
  · have e : j ≠ i := fun e => hw (e ▸ rfl)
    rw [Function.update_of_ne hw]
    simp [e]

@[simp] theorem test_clear (b : BitMap n) (i j : Fin n) :
    (b.clear i).test j = (!decide (j = i) && b.test j) := by
  have hj : j.val % BitsInWord < 32 := Nat.mod_lt _ (by decide)
  rw [test_eq, test_eq, clear_map]
  by_cases hw : word j = word i
  · rw [hw, Function.update_self, BitVec.getLsbD_and, BitVec.getLsbD_not, getLsbD_bit i hj,
      Bool.and_comm]
    by_cases e : j = i
    · simp [e]
    · have : j.val % BitsInWord ≠ i.val % BitsInWord := fun hm => e (eq_of_word_of_mod hw hm)
      simp [e, this, hj]
  · have e : j ≠ i := fun e => hw (e ▸ rfl)
    rw [Function.update_of_ne hw]
    simp [e]

theorem test_foldl_clear (l : List (Fin n)) (b : BitMap n) (j : Fin n) :
    (l.foldl clear b).test j = (!decide (j ∈ l) && b.test j) := by
  induction l generalizing b with
  | nil => simp
  | cons i l ih =>
      rw [List.foldl_cons, ih, test_clear]
      by_cases e : j = i <;> simp [e]

/-- A new bitmap is empty, whatever the words were. -/
@[simp] theorem test_new (words : Fin (divRoundUp n BitsInWord) → BitVec 32) (j : Fin n) :
    (new words).test j = false := by
  simp [new, test_foldl_clear, List.mem_finRange]

/-- The clear indices. -/
def clears (b : BitMap n) : Finset (Fin n) := Finset.univ.filter fun i => b.test i = false

theorem numClear_eq (b : BitMap n) : b.numClear = b.clears.card := by
  have h : b.clears = ((List.finRange n).filter fun i => !b.test i).toFinset := by
    ext i; simp [clears]
  rw [h, List.toFinset_card_of_nodup ((List.nodup_finRange n).filter _), numClear,
    List.countP_eq_length_filter]

theorem numClear_eq_all_iff (b : BitMap n) : b.numClear = n ↔ ∀ i, b.test i = false := by
  rw [numClear_eq]
  constructor
  · intro h i
    have hu : b.clears = Finset.univ :=
      Finset.eq_univ_of_card _ (by rw [h, Fintype.card_fin])
    have hi : i ∈ b.clears := hu ▸ Finset.mem_univ i
    exact (Finset.mem_filter.mp hi).2
  · intro h
    have hu : b.clears = Finset.univ := Finset.filter_true_of_mem fun i _ => h i
    rw [hu, Finset.card_univ, Fintype.card_fin]

theorem numClear_mark {b : BitMap n} {f : Fin n} (h : b.test f = false) :
    (b.mark f).numClear + 1 = b.numClear := by
  have hf : f ∈ b.clears := Finset.mem_filter.mpr ⟨Finset.mem_univ f, h⟩
  have he : (b.mark f).clears = b.clears.erase f := by
    ext i
    simp [clears]
  rw [numClear_eq, numClear_eq, he, Finset.card_erase_add_one hf]

theorem numClear_le (b : BitMap n) : b.numClear ≤ n := by
  rw [numClear_eq]
  exact (Finset.card_le_univ _).trans (Fintype.card_fin n).le

/-- `Find` returns the least clear index and marks it; it fails, changing nothing, only when every
bit is set. -/
theorem find_spec (b : BitMap n) :
    (∃ i, b.find = (some i, b.mark i) ∧ b.test i = false ∧ ∀ j < i, b.test j = true) ∨
    (b.find = (none, b) ∧ ∀ i, b.test i = true) := by
  unfold find
  split
  · rename_i i hi
    have hs := List.find?_eq_some_iff_append.mp hi
    obtain ⟨hc, as, bs, hl, has⟩ := hs
    refine .inl ⟨i, rfl, by simpa using hc, fun j hj => ?_⟩
    have hsort : (as ++ i :: bs).Pairwise (· < ·) := hl ▸ List.pairwise_lt_finRange n
    have hmem : j ∈ as ++ i :: bs := hl ▸ List.mem_finRange j
    rcases List.mem_append.mp hmem with h | h
    · simpa using has j h
    · have hlt := (List.pairwise_cons.mp (List.pairwise_append.mp hsort).2.1).1
      rcases List.mem_cons.mp h with rfl | h
      · exact absurd hj (lt_irrefl _)
      · exact absurd (hlt j h) (lt_asymm hj)
  · rename_i hi
    exact .inr ⟨rfl, fun i => by simpa using List.find?_eq_none.mp hi i (List.mem_finRange i)⟩

/-- The form in which callers use `find_spec`. -/
theorem find_some {b b' : BitMap n} {i : Fin n} (h : b.find = (some i, b')) :
    b' = b.mark i ∧ b.test i = false := by
  rcases find_spec b with ⟨j, hj, hc, -⟩ | ⟨hn, -⟩
  · rw [h] at hj; cases hj; exact ⟨rfl, hc⟩
  · rw [h] at hn; cases hn

end BitMap

end Nachos
