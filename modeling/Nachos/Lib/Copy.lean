import Mathlib.Data.List.Basic

/-!
# Lib — copies that stop

A loop that copies element by element and stops behind the first one that meets a condition copies
`through p l` of the `l` it was given.  What it leaves at the offset `off` of the target is an
`overlay`: the elements copied, and around them what was there.
-/

namespace Lib

variable {α : Type}

/-- The elements of `l` up to and with the first that meets `p`. -/
def through (p : α → Bool) : (l : List α) → List α
  | [] => []
  | a :: l => if p a then [a] else a :: through p l

/-- The target `l` after a copy of `bs` to the offset `off`. -/
def overlay (l : List α) (off : Nat) (bs : List α) : List α :=
  l.mapIdx fun x a => if off ≤ x then bs.getD (x - off) a else a

section
variable {p : α → Bool} {l bs : List α} {off x i n : Nat} {a : α}

/-! ### `through` -/

theorem through_cons_pos (h : p a = true) : through p (a :: l) = [a] := if_pos h

theorem through_cons_neg (h : p a = false) : through p (a :: l) = a :: through p l :=
  if_neg (by rw [h]; exact Bool.false_ne_true)

theorem through_append {as : List α} (h : ∀ a ∈ as, p a = false) :
    through p (as ++ l) = as ++ through p l := by
  induction as with
  | nil => rfl
  | cons b as ih =>
      rw [List.cons_append, through_cons_neg (h b List.mem_cons_self),
        ih fun a ha => h a (List.mem_cons_of_mem b ha)]
      rfl

theorem length_through_le : (through p l).length ≤ l.length := by
  induction l with
  | nil => exact Nat.le_refl _
  | cons a l ih =>
      cases h : p a with
      | true =>
          rw [through_cons_pos h]
          exact Nat.succ_le_succ (Nat.zero_le _)
      | false =>
          rw [through_cons_neg h]
          exact Nat.succ_le_succ ih

/-- A copy of a copy stops where the first one did, whatever stands behind it. -/
theorem through_take_through (r : List α) :
    through p ((through p l ++ r).take l.length) = through p l := by
  induction l with
  | nil => rfl
  | cons a l ih =>
      cases h : p a with
      | true =>
          rw [through_cons_pos h]
          exact through_cons_pos h
      | false =>
          rw [through_cons_neg h, List.cons_append, List.length_cons, List.take_succ_cons,
            through_cons_neg h, ih]

/-- What is copied is what was there. -/
theorem getElem?_through (h : i < (through p l).length) : (through p l)[i]? = l[i]? := by
  induction l generalizing i with
  | nil => rfl
  | cons a l ih =>
      cases hp : p a with
      | true =>
          rw [through_cons_pos hp] at h ⊢
          rw [Nat.lt_one_iff.mp h]
          rfl
      | false =>
          rw [through_cons_neg hp] at h ⊢
          cases i with
          | zero => rfl
          | succ i => exact ih (Nat.lt_of_succ_lt_succ h)

/-- **An element is copied when none before it meets the condition.** -/
theorem lt_length_through_iff : i < (through p l).length ↔
    i < l.length ∧ ∀ j a, j < i → l[j]? = some a → p a = false := by
  induction l generalizing i with
  | nil => exact ⟨fun h => absurd h (Nat.not_lt_zero _), fun h => absurd h.1 (Nat.not_lt_zero _)⟩
  | cons b l ih =>
      cases hp : p b with
      | true =>
          rw [through_cons_pos hp]
          constructor
          · intro h
            rw [Nat.lt_one_iff.mp h]
            exact ⟨Nat.succ_pos _, fun j a hj => absurd hj (Nat.not_lt_zero _)⟩
          · rintro ⟨-, h⟩
            by_contra hi
            have := h 0 b (by rw [List.length_singleton] at hi; omega) rfl
            rw [hp] at this
            cases this
      | false =>
          rw [through_cons_neg hp]
          cases i with
          | zero =>
              exact iff_of_true (Nat.succ_pos _)
                ⟨Nat.succ_pos _, fun j a hj => absurd hj (Nat.not_lt_zero _)⟩
          | succ i =>
              rw [List.length_cons, List.length_cons, Nat.succ_lt_succ_iff, Nat.succ_lt_succ_iff, ih]
              refine and_congr_right fun _ => ⟨fun h j a hj hl => ?_, fun h j a hj hl => ?_⟩
              · cases j with
                | zero => cases hl; exact hp
                | succ j => exact h j a (Nat.lt_of_succ_lt_succ hj) hl
              · exact h (j + 1) a (Nat.succ_lt_succ hj) hl

/-- Nothing stops the copy before its end. -/
theorem through_eq_self (h : ∀ j a, j + 1 < l.length → l[j]? = some a → p a = false) :
    through p l = l := by
  induction l with
  | nil => rfl
  | cons b l ih =>
      cases l with
      | nil => rw [through]; split <;> rfl
      | cons c l =>
          have hb : p b = false := h 0 b (by simp) rfl
          rw [through_cons_neg hb, ih fun j a hj hl => h (j + 1) a (by simpa using hj) hl]

/-! ### `overlay` -/

@[simp] theorem length_overlay : (overlay l off bs).length = l.length := List.length_mapIdx

theorem getElem?_overlay : (overlay l off bs)[x]? =
    if off ≤ x ∧ x < off + bs.length ∧ x < l.length then bs[x - off]? else l[x]? := by
  rw [overlay, List.getElem?_mapIdx]
  by_cases hx : x < l.length
  · rw [List.getElem?_eq_getElem hx, Option.map_some]
    by_cases hoff : off ≤ x
    · rw [if_pos hoff]
      by_cases hb : x < off + bs.length
      · rw [if_pos ⟨hoff, hb, hx⟩, List.getD_eq_getElem?_getD,
          List.getElem?_eq_getElem (by omega : x - off < bs.length)]
        rfl
      · rw [if_neg fun h => hb h.2.1, List.getD_eq_getElem?_getD,
          List.getElem?_eq_none (by omega : bs.length ≤ x - off)]
        rfl
    · rw [if_neg hoff, if_neg fun h => hoff h.1]
  · rw [if_neg fun h => hx h.2.2, List.getElem?_eq_none (Nat.not_lt.mp hx)]
    rfl

theorem overlay_nil : overlay l off [] = l := by
  apply List.ext_getElem?
  intro x
  rw [getElem?_overlay, if_neg (by rw [List.length_nil]; omega)]

/-- One copy behind the other. -/
theorem overlay_append {as : List α} :
    overlay (overlay l off as) (off + as.length) bs = overlay l off (as ++ bs) := by
  apply List.ext_getElem?
  intro x
  simp only [getElem?_overlay, length_overlay, List.length_append]
  by_cases hx : off + as.length ≤ x ∧ x < off + as.length + bs.length ∧ x < l.length
  · rw [if_pos hx, if_pos (by omega), List.getElem?_append_right (by omega), Nat.sub_sub]
  · rw [if_neg hx]
    by_cases hx' : off ≤ x ∧ x < off + as.length ∧ x < l.length
    · rw [if_pos hx', if_pos (by omega), List.getElem?_append_left (by omega)]
    · rw [if_neg hx', if_neg (by omega)]

/-- One element, and then the others. -/
theorem overlay_cons : overlay (overlay l off [a]) (off + 1) bs = overlay l off (a :: bs) :=
  show overlay (overlay l off [a]) (off + [a].length) bs = _ from overlay_append

/-- The whole target is copied over. -/
theorem overlay_all (h : l.length = bs.length) : overlay l 0 bs = bs := by
  apply List.ext_getElem?
  intro x
  rw [getElem?_overlay, Nat.sub_zero]
  by_cases hx : x < l.length
  · rw [if_pos ⟨Nat.zero_le x, by omega, hx⟩]
  · rw [if_neg fun h => hx h.2.2, List.getElem?_eq_none (by omega),
      List.getElem?_eq_none (by omega)]

/-- The target from the copy on. -/
theorem drop_overlay (h : off + bs.length ≤ l.length) :
    (overlay l off bs).drop off = bs ++ l.drop (off + bs.length) := by
  apply List.ext_getElem?
  intro x
  rw [List.getElem?_drop, getElem?_overlay, List.getElem?_append, List.getElem?_drop]
  by_cases hx : x < bs.length
  · rw [if_pos (by omega), if_pos hx, Nat.add_sub_cancel_left]
  · rw [if_neg (by omega), if_neg hx, show off + bs.length + (x - bs.length) = off + x by omega]

/-- **What a copy that stops leaves.**  The target holds all of `l`, which the copy was to begin
with, exactly when it held the rest of it before, from behind where the copy stops. -/
theorem overlay_through_iff {mem t : List α} (hfit : off + (through p (l ++ t)).length ≤ mem.length) :
    (∀ i < l.length, (overlay mem off (through p (l ++ t)))[off + i]? = l[i]?) ↔
      ∀ i j a, j < i → i < l.length → l[j]? = some a → p a = true → mem[off + i]? = l[i]? := by
  have happ : ∀ {j}, j < l.length → (l ++ t)[j]? = l[j]? := fun hj => List.getElem?_append_left hj
  constructor
  · intro h i j a hj hi hl hp
    have hnot : ¬ i < (through p (l ++ t)).length := fun hlt => by
      have := (lt_length_through_iff.mp hlt).2 j a hj (by rw [happ (by omega), hl])
      rw [hp] at this
      cases this
    rw [← h i hi, getElem?_overlay, if_neg (by omega)]
  · intro h i hi
    rw [getElem?_overlay, Nat.add_sub_cancel_left]
    by_cases hlt : i < (through p (l ++ t)).length
    · rw [if_pos (by omega), getElem?_through hlt, happ hi]
    · rw [if_neg (by omega)]
      have hstop := mt lt_length_through_iff.mpr hlt
      push Not at hstop
      obtain ⟨j, a, hj, hl, hp⟩ := hstop (by rw [List.length_append]; omega)
      exact h i j a hj hi (by rw [← happ (by omega), hl]) (by simpa using hp)

/-- A copy that stops, filled up with `b` to its length. -/
theorem through_replicate_iff {b : α} (hb : ∀ a, p a = true ↔ a = b) :
    through p l ++ List.replicate (l.length - (through p l).length) b = l ↔
      ∀ i j, j < i → i < l.length → l[j]? = some b → l[i]? = some b := by
  have hle := length_through_le (p := p) (l := l)
  have hget : ∀ i < l.length,
      (through p l ++ List.replicate (l.length - (through p l).length) b)[i]? =
        if i < (through p l).length then l[i]? else some b := by
    intro i hi
    rw [List.getElem?_append]
    by_cases hlt : i < (through p l).length
    · rw [if_pos hlt, if_pos hlt, getElem?_through hlt]
    · rw [if_neg hlt, if_neg hlt, List.getElem?_replicate, if_pos (by omega)]
  constructor
  · intro h i j hj hi hl
    have hnot : ¬ i < (through p l).length := fun hlt => by
      have := (lt_length_through_iff.mp hlt).2 j b hj hl
      rw [(hb b).mpr rfl] at this
      cases this
    have := hget i hi
    rwa [h, if_neg hnot] at this
  · intro h
    apply List.ext_getElem?
    intro i
    by_cases hi : i < l.length
    · rw [hget i hi]
      by_cases hlt : i < (through p l).length
      · rw [if_pos hlt]
      · rw [if_neg hlt]
        have hstop := mt lt_length_through_iff.mpr hlt
        push Not at hstop
        obtain ⟨j, a, hj, hl, hp⟩ := hstop hi
        obtain rfl := (hb a).mp (by simpa using hp)
        exact (h i j hj hi hl).symm
    · have hlen : (through p l ++ List.replicate (l.length - (through p l).length) b).length ≤ i := by
        rw [List.length_append, List.length_replicate]
        omega
      rw [List.getElem?_eq_none hlen, List.getElem?_eq_none (Nat.not_lt.mp hi)]

/-- The array a list stands for. -/
theorem map_getD_range (h : n ≤ l.length) :
    (List.range' 0 n).map (fun i => l.getD i a) = l.take n := by
  apply List.ext_getElem?
  intro x
  rw [List.getElem?_map]
  by_cases hx : x < n
  · rw [List.getElem?_range' hx, List.getElem?_take_of_lt hx, Option.map_some, Nat.zero_add,
      Nat.one_mul, List.getD_eq_getElem?_getD, List.getElem?_eq_getElem (Nat.lt_of_lt_of_le hx h)]
    rfl
  · rw [List.getElem?_eq_none (by rw [List.length_range']; omega),
      List.getElem?_eq_none (by rw [List.length_take]; omega)]
    rfl

end

end Lib
