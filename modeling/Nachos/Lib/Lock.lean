import Mathlib.Logic.Basic
import Mathlib.Tactic.ByContra

/-!
# Lib — Lock

A counter of value 1 or 0 used as a lock: `Lock inside v` says that it is 1 when nobody is inside
and 0 when exactly one is.  Who is inside is a predicate on the threads `ι`; the lemmas say how it
may change.
-/

namespace Lib

variable {ι : Type*} {inside inside' : ι → Prop} {v : Int} {t u : ι}

/-- At most one thread is inside, and the counter says whether. -/
inductive Lock (inside : ι → Prop) : Int → Prop where
  | free : (∀ t, ¬ inside t) → Lock inside 1
  | held (t : ι) : inside t → (∀ u, inside u → u = t) → Lock inside 0

namespace Lock

theorem unique (h : Lock inside v) (ht : inside t) (hu : inside u) : u = t := by
  cases h with
  | free hn => exact absurd ht (hn t)
  | held x _ hx => rw [hx t ht, hx u hu]

theorem value_of_inside (h : Lock inside v) (ht : inside t) : v = 0 := by
  cases h with
  | free hn => exact absurd ht (hn t)
  | held => rfl

theorem value_of_empty (h : Lock inside v) (hn : ∀ t, ¬ inside t) : v = 1 := by
  cases h with
  | free => rfl
  | held x hx => exact absurd hx (hn x)

theorem empty_of_value (h : Lock inside v) (hv : v ≠ 0) : v = 1 ∧ ∀ t, ¬ inside t := by
  cases h with
  | free hn => exact ⟨rfl, hn⟩
  | held => exact absurd rfl hv

/-- Nobody goes in or out. -/
theorem congr (h : Lock inside v) (hi : ∀ u, inside' u ↔ inside u) : Lock inside' v := by
  have : inside' = inside := funext fun u => propext (hi u)
  rw [this]
  exact h

/-- The counter is taken down, and `t` goes in. -/
theorem enter (h : Lock inside v) (hv : v ≠ 0) (ht : inside' t)
    (hi : ∀ u, u ≠ t → inside' u → inside u) : Lock inside' (v - 1) := by
  obtain ⟨rfl, hn⟩ := h.empty_of_value hv
  refine .held t ht fun u hu => ?_
  by_contra hne
  exact hn u (hi u hne hu)

/-- `t` goes out, and the counter is taken up. -/
theorem leave (h : Lock inside v) (ht : inside t) (ht' : ¬ inside' t)
    (hi : ∀ u, u ≠ t → inside' u → inside u) : Lock inside' (v + 1) := by
  obtain rfl := h.value_of_inside ht
  refine .free fun u hu => ?_
  by_cases hne : u = t
  · exact ht' (hne ▸ hu)
  · exact hne (h.unique ht (hi u hne hu))

end Lock

end Lib
