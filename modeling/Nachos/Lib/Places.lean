import Mathlib.Data.List.Basic
import Mathlib.Logic.Function.Basic

/-!
# Lib — Places

A family of lists `l : ι → List α` in which an element is on no list at all (`Nowhere`), or on one
list, once, and on no other (`OnlyAt`).  Elements are appended to a list and taken off its front;
what one element does says nothing of the others.
-/

namespace Lib

variable {ι α : Type*}

/-- `a` is on none of the lists. -/
def Nowhere (l : ι → List α) (a : α) : Prop := ∀ i, a ∉ l i

/-- `a` is on the list `i`, once, and on no other. -/
def OnlyAt [DecidableEq α] (l : ι → List α) (i : ι) (a : α) : Prop :=
  (l i).count a = 1 ∧ ∀ j, j ≠ i → a ∉ l j

section
variable {l : ι → List α} {i j : ι} {a b : α} {rest : List α}

section
variable [DecidableEq ι]

theorem Nowhere.append_ne (h : Nowhere l b) (hne : b ≠ a) (i : ι) :
    Nowhere (Function.update l i (l i ++ [a])) b := by
  intro j
  by_cases e : j = i
  · subst e
    rw [Function.update_self]
    simp [h j, hne]
  · rw [Function.update_of_ne e]
    exact h j

theorem Nowhere.remove (h : Nowhere l b) (e : l i = a :: rest) :
    Nowhere (Function.update l i rest) b := by
  intro j
  by_cases hj : j = i
  · subst hj
    have := h j
    rw [e] at this
    rw [Function.update_self]
    exact fun hb => this (List.mem_cons_of_mem _ hb)
  · rw [Function.update_of_ne hj]
    exact h j

end

section
variable [DecidableEq α]

/-- An element is on one list only. -/
theorem OnlyAt.unique (h : OnlyAt l i a) (hj : a ∈ l j) : j = i := by
  by_contra hne
  exact h.2 j hne hj

end

variable [DecidableEq ι] [DecidableEq α]

theorem Nowhere.append (h : Nowhere l a) (i : ι) :
    OnlyAt (Function.update l i (l i ++ [a])) i a := by
  refine ⟨?_, fun j hj => ?_⟩
  · rw [Function.update_self, List.count_append, List.count_eq_zero.mpr (h i)]
    simp
  · rw [Function.update_of_ne hj]
    exact h j

theorem OnlyAt.append_ne (h : OnlyAt l j b) (hne : b ≠ a) (i : ι) :
    OnlyAt (Function.update l i (l i ++ [a])) j b := by
  refine ⟨?_, fun k hk => ?_⟩
  · by_cases e : j = i
    · subst e
      rw [Function.update_self, List.count_append, h.1, List.count_eq_zero.mpr (by simp [hne])]
    · rw [Function.update_of_ne e]
      exact h.1
  · by_cases e : k = i
    · subst e
      rw [Function.update_self]
      simp [h.2 k hk, hne]
    · rw [Function.update_of_ne e]
      exact h.2 k hk

theorem OnlyAt.remove (h : OnlyAt l i a) (e : l i = a :: rest) :
    Nowhere (Function.update l i rest) a := by
  intro j
  by_cases hj : j = i
  · subst hj
    have hc := h.1
    rw [e, List.count_cons_self] at hc
    rw [Function.update_self]
    exact List.count_eq_zero.mp (by omega)
  · rw [Function.update_of_ne hj]
    exact h.2 j hj

theorem OnlyAt.remove_ne (h : OnlyAt l j b) (e : l i = a :: rest) (hne : b ≠ a) :
    OnlyAt (Function.update l i rest) j b := by
  refine ⟨?_, fun k hk => ?_⟩
  · by_cases hj : j = i
    · subst hj
      have hc := h.1
      rw [e, List.count_cons_of_ne (Ne.symm hne)] at hc
      rw [Function.update_self]
      exact hc
    · rw [Function.update_of_ne hj]
      exact h.1
  · by_cases hki : k = i
    · subst hki
      have := h.2 k hk
      rw [e] at this
      rw [Function.update_self]
      exact fun hb => this (List.mem_cons_of_mem _ hb)
    · rw [Function.update_of_ne hki]
      exact h.2 k hk

end

end Lib
