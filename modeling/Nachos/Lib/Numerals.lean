import Mathlib.Algebra.Ring.Nat
import Mathlib.Data.List.Induction

/-!
# Lib — numerals

The number a list of digits stands for, and a loop that computes it in machine words: it stops to
accumulate once the word is above a limit, which it takes for an overflow (`foldl_wrapStep`).  A
numeral that is made from its last digit on is turned around in its buffer by exchanges from both
ends (`take_reverseRounds`).
-/

namespace Lib

/-- The number with the digits `ds`, the first one first. -/
def ofDigits (b : Nat) (ds : List Nat) : Nat := ds.foldl (fun x d => x * b + d) 0

/-- One digit more, modulo `M`, up to the limit `T`. -/
def wrapStep (M T b : Nat) (x d : Nat) : Nat := if x ≤ T then (x * b + d) % M else x

section
variable {M T b : Nat}

theorem ofDigits_snoc (ds : List Nat) (d : Nat) : ofDigits b (ds ++ [d]) = ofDigits b ds * b + d := by
  rw [ofDigits, List.foldl_append]
  rfl

theorem ofDigits_le_append (hb : 0 < b) (ds es : List Nat) : ofDigits b ds ≤ ofDigits b (ds ++ es) := by
  induction es using List.reverseRecOn with
  | nil => rw [List.append_nil]
  | append_singleton es e ih =>
      rw [← List.append_assoc, ofDigits_snoc]
      have := Nat.le_mul_of_pos_right (ofDigits b (ds ++ es)) hb
      omega

/-- The loop has seen an overflow, in the digits up to some place; or it has the number modulo `M`. -/
theorem foldl_wrapStep (ds : List Nat) :
    ((∃ ps, ps <+: ds ∧ T < ofDigits b ps % M) ∧ T < ds.foldl (wrapStep M T b) 0) ∨
      ((∀ ps, ps <+: ds → ofDigits b ps % M ≤ T) ∧
        ds.foldl (wrapStep M T b) 0 = ofDigits b ds % M) := by
  induction ds using List.reverseRecOn with
  | nil =>
      refine .inr ⟨fun ps hps => ?_, (Nat.zero_mod M).symm⟩
      rw [List.prefix_nil.mp hps, ofDigits, List.foldl_nil, Nat.zero_mod]
      exact Nat.zero_le T
  | append_singleton ds d ih =>
      rw [List.foldl_append, List.foldl_cons, List.foldl_nil]
      rcases ih with ⟨⟨ps, hps, hover⟩, hlt⟩ | ⟨hall, heq⟩
      · rw [wrapStep, if_neg (Nat.not_le.mpr hlt)]
        exact .inl ⟨⟨ps, hps.trans (List.prefix_append ..), hover⟩, hlt⟩
      · have hstep : wrapStep M T b (ds.foldl (wrapStep M T b) 0) d =
            ofDigits b (ds ++ [d]) % M := by
          rw [wrapStep, heq, if_pos (hall ds (List.prefix_refl ds)), ofDigits_snoc, Nat.add_mod,
            Nat.mod_mul_mod, ← Nat.add_mod]
        rw [hstep]
        by_cases hlast : ofDigits b (ds ++ [d]) % M ≤ T
        · refine .inr ⟨fun ps hps => ?_, rfl⟩
          rcases List.prefix_concat_iff.mp hps with rfl | hps
          · exact hlast
          · exact hall ps hps
        · exact .inl ⟨⟨_, List.prefix_refl _, Nat.not_le.mp hlast⟩, Nat.not_le.mp hlast⟩

end

/-! ### Turned around in place -/

section
variable {α : Type} (d : α)

/-- The elements at `i` and `j` exchanged. -/
def swapAt (l : List α) (i j : Nat) : List α := (l.set i (l.getD j d)).set j (l.getD i d)

/-- The first `k` exchanges that turn the first `len` elements around. -/
def reverseRounds (len : Nat) : (k : Nat) → List α → List α
  | 0, l => l
  | k + 1, l => swapAt d (reverseRounds len k l) k (len - k - 1)

variable {l : List α} {len k x i j : Nat}

theorem length_reverseRounds : (reverseRounds d len k l).length = l.length := by
  induction k with
  | zero => rfl
  | succ k ih => rw [reverseRounds, swapAt, List.length_set, List.length_set, ih]

theorem getElem?_swapAt (hi : i < l.length) (hj : j < l.length) : (swapAt d l i j)[x]? =
    if x = j then l[i]? else if x = i then l[j]? else l[x]? := by
  rw [swapAt, List.getElem?_set, List.getElem?_set, List.length_set,
    List.getD_eq_getElem?_getD, List.getD_eq_getElem?_getD, List.getElem?_eq_getElem hi,
    List.getElem?_eq_getElem hj]
  simp only [eq_comm (a := x), if_pos hi, if_pos hj, Option.getD_some]

/-- After `k` exchanges the first and the last `k` elements are where they belong. -/
theorem getElem?_reverseRounds (hlen : len ≤ l.length) (hk : 2 * k ≤ len) (hx : x < len) :
    (reverseRounds d len k l)[x]? =
      if x < k ∨ len - k ≤ x then l[len - 1 - x]? else l[x]? := by
  induction k generalizing x with
  | zero => rw [if_neg (by omega), reverseRounds]
  | succ k ih =>
      have hround : ∀ y, k ≤ y → y < len - k → (reverseRounds d len k l)[y]? = l[y]? := by
        intro y hy hy'
        rw [ih (by omega) (by omega), if_neg (by omega)]
      rw [reverseRounds, getElem?_swapAt d (by rw [length_reverseRounds]; omega)
        (by rw [length_reverseRounds]; omega), hround k (by omega) (by omega),
        hround (len - k - 1) (by omega) (by omega), ih (by omega) hx]
      by_cases hj : x = len - k - 1
      · rw [if_pos hj, if_pos (by omega), show len - 1 - x = k by omega]
      · rw [if_neg hj]
        by_cases hi : x = k
        · rw [if_pos hi, if_pos (by omega), show len - 1 - x = len - k - 1 by omega]
        · rw [if_neg hi]
          exact if_congr (by omega) rfl rfl

/-- What lies behind them stays. -/
theorem drop_reverseRounds (hk : 2 * k ≤ len) :
    (reverseRounds d len k l).drop len = l.drop len := by
  induction k with
  | zero => rfl
  | succ k ih =>
      rw [reverseRounds, swapAt, List.drop_set_of_lt (by omega), List.drop_set_of_lt (by omega),
        ih (by omega)]

/-- **Half as many exchanges turn them around.** -/
theorem take_reverseRounds (hlen : len ≤ l.length) :
    (reverseRounds d len (len / 2) l).take len = (l.take len).reverse := by
  apply List.ext_getElem?
  intro x
  by_cases hx : x < len
  · have htake : (l.take len).length = len := List.length_take_of_le hlen
    rw [List.getElem?_take_of_lt hx, getElem?_reverseRounds d hlen (by omega) hx,
      List.getElem?_reverse (by omega), htake, List.getElem?_take_of_lt (by omega)]
    split
    · rfl
    · rw [show len - 1 - x = x by omega]
  · rw [List.getElem?_eq_none (by rw [List.length_take]; omega),
      List.getElem?_eq_none (by rw [List.length_reverse, List.length_take]; omega)]

end

end Lib
