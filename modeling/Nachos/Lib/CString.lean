import Mathlib.Data.List.TakeWhile

/-!
# Lib — strings of C

A `char *` is the list of the bytes it points to; what is behind the end of the list is read as the
terminator.  `strn n s` is what the bounded functions see of `s`: its bytes before the first zero,
and of these at most `n`.  `strncmp` tells two strings apart by it (`strncmp_eq_zero_iff`), and
`strncpy` keeps it (`strn_strncpy`), also where the array it fills has no room for a terminator.
-/

namespace Lib.CString

/-- The first `n` bytes of a C string. -/
def strn (n : Nat) (s : List (BitVec 8)) : List (BitVec 8) := (s.takeWhile (· ≠ 0#8)).take n

/-- `strncmp(a, b, n)`. -/
def strncmp : (n : Nat) → (a b : List (BitVec 8)) → Int
  | 0, _, _ => 0
  | n + 1, a, b =>
      let x := a.headD 0#8
      let y := b.headD 0#8
      if x ≠ y then (x.toNat : Int) - y.toNat
      else if x = 0#8 then 0
      else strncmp n a.tail b.tail

/-- What `strncpy(dst, src, n)` leaves in the `n` bytes of `dst`. -/
def strncpy (n : Nat) (src : List (BitVec 8)) : List (BitVec 8) :=
  strn n src ++ List.replicate (n - (strn n src).length) 0#8

theorem strn_succ (n : Nat) (s : List (BitVec 8)) :
    strn (n + 1) s = if s.headD 0#8 = 0#8 then [] else s.headD 0#8 :: strn n s.tail := by
  cases s with
  | nil => rfl
  | cons x s => by_cases hx : x = 0#8 <;> simp [strn, hx]

theorem strncmp_eq_zero_iff (n : Nat) (a b : List (BitVec 8)) :
    strncmp n a b = 0 ↔ strn n a = strn n b := by
  induction n generalizing a b with
  | zero => simp [strncmp, strn]
  | succ n ih =>
      rw [strn_succ, strn_succ, strncmp]
      generalize a.headD 0#8 = x
      generalize b.headD 0#8 = y
      by_cases hxy : x = y
      · subst hxy
        by_cases hx : x = 0#8 <;> simp [hx, ih]
      · -- the first bytes differ, and at most one of them is the terminator
        have hne : (x.toNat : Int) - y.toNat ≠ 0 := fun h =>
          hxy (BitVec.eq_of_toNat_eq (by omega))
        rw [if_pos hxy]
        refine iff_of_false hne fun h => ?_
        split at h <;> split at h
        · simp_all
        · cases h
        · cases h
        · exact hxy (List.cons.inj h).1

theorem length_strn_le (n : Nat) (s : List (BitVec 8)) : (strn n s).length ≤ n := by
  rw [strn, List.length_take]
  exact Nat.min_le_left ..

theorem strn_ne_zero {n : Nat} {s : List (BitVec 8)} {x : BitVec 8} (h : x ∈ strn n s) : x ≠ 0#8 := by
  have := List.mem_takeWhile_imp (List.mem_of_mem_take h)
  simpa using this

/-- A copy that is cut off is still the same string to the bounded functions. -/
theorem strn_strncpy (n : Nat) (src : List (BitVec 8)) : strn n (strncpy n src) = strn n src := by
  have htake : (strn n src).takeWhile (· ≠ 0#8) = strn n src := by
    rw [List.takeWhile_eq_self_iff]
    intro x hx
    simpa using strn_ne_zero hx
  have happ : (strncpy n src).takeWhile (· ≠ 0#8) = strn n src := by
    rw [strncpy, List.takeWhile_append, htake]
    simp
  rw [strn, happ, List.take_of_length_le (length_strn_le n src)]

theorem length_strncpy (n : Nat) (src : List (BitVec 8)) : (strncpy n src).length = n := by
  have := length_strn_le n src
  rw [strncpy, List.length_append, List.length_replicate]
  omega

/-- The bounded functions see no more of an array than its first `n` bytes. -/
theorem strn_append {n : Nat} {s : List (BitVec 8)} (hs : s.length = n) (t : List (BitVec 8)) :
    strn n (s ++ t) = strn n s := by
  induction s generalizing n with
  | nil => subst hs; simp [strn]
  | cons x s ih =>
      subst hs
      rw [List.length_cons, List.cons_append, strn_succ, strn_succ, List.headD_cons, List.headD_cons,
        List.tail_cons, List.tail_cons, ih rfl]

end Lib.CString
