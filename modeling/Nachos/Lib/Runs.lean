import Mathlib.Logic.Relation

/-!
# Lib — Runs

A system is a partial step function `step : σ → α → Except ε σ`: from a state and an action, the
next state, or the reason why there is none.  `Steps step C s s'` says that `s'` is reached from
`s` by steps whose state and action meet `C`; a run without a condition is `Steps` at `always`.

Nothing here is about one system: `Steps.inv` is the invariant rule, and `Steps.of_run` turns an
evaluated list of actions into a run.
-/

namespace Lib

variable {σ α ε : Type*}

/-- The condition every step meets. -/
def always (_ : σ) (_ : α) : Prop := True

/-- `s'` is reached from `s` by steps that meet `C`. -/
inductive Steps (step : σ → α → Except ε σ) (C : σ → α → Prop) (s : σ) : σ → Prop where
  | refl : Steps step C s s
  | tail {s₁ s₂ : σ} {a : α} : Steps step C s s₁ → C s₁ a → step s₁ a = .ok s₂ →
      Steps step C s s₂

instance (s : σ) (a : α) : Decidable (always s a) := inferInstanceAs (Decidable True)

/-- The actions of a list, one after the other, where each meets `C`. -/
def run (step : σ → α → Except ε σ) (C : σ → α → Prop) [∀ s a, Decidable (C s a)] :
    σ → List α → Option σ
  | s, [] => some s
  | s, a :: as =>
      if C s a then
        match step s a with
        | .ok s' => run step C s' as
        | .error _ => none
      else none

section
variable {step : σ → α → Except ε σ} {C D : σ → α → Prop} {s s₁ s₂ : σ}

theorem Steps.trans (h₁ : Steps step C s s₁) (h₂ : Steps step C s₁ s₂) : Steps step C s s₂ := by
  induction h₂ with
  | refl => exact h₁
  | tail _ hc hs ih => exact .tail ih hc hs

theorem Steps.one {a : α} (hc : C s a) (h : step s a = .ok s₁) : Steps step C s s₁ :=
  .tail .refl hc h

theorem Steps.mono (hCD : ∀ s a, C s a → D s a) (h : Steps step C s s₁) : Steps step D s s₁ := by
  induction h with
  | refl => exact .refl
  | tail _ hc hs ih => exact .tail ih (hCD _ _ hc) hs

/-- Dropping the condition. -/
theorem Steps.any (h : Steps step C s s₁) : Steps step always s s₁ :=
  h.mono fun _ _ _ => trivial

/-- **The invariant rule.**  What holds at the start and is kept by every step that meets the
condition holds wherever such steps lead. -/
theorem Steps.inv {I : σ → Prop} (h : Steps step C s s₁) (h₀ : I s)
    (hI : ∀ s a s', I s → C s a → step s a = .ok s' → I s') : I s₁ := by
  induction h with
  | refl => exact h₀
  | tail _ hc hs ih => exact hI _ _ _ ih hc hs

/-- The first action of an evaluated list. -/
theorem run_cons [∀ s a, Decidable (C s a)] {a : α} {as : List α}
    (h : run step C s (a :: as) = some s₂) :
    ∃ s₁, C s a ∧ step s a = .ok s₁ ∧ run step C s₁ as = some s₂ := by
  simp only [run] at h
  split at h
  · rename_i hc
    split at h
    · rename_i s₁ h₁
      exact ⟨s₁, hc, h₁, h⟩
    · cases h
  · cases h

/-- An evaluated list of actions is a run. -/
theorem Steps.of_run [∀ s a, Decidable (C s a)] : ∀ {as : List α} {s s' : σ},
    run step C s as = some s' → Steps step C s s'
  | [], s, s', h => by
      simp only [run, Option.some.injEq] at h
      exact h ▸ .refl
  | a :: as, s, s', h => by
      obtain ⟨s₁, hc, h₁, h⟩ := run_cons h
      exact (Steps.one hc h₁).trans (Steps.of_run h)

theorem toOption_some {x : Except ε σ} {a : σ} (h : x.toOption = some a) : x = .ok a := by
  cases x with
  | error e => cases h
  | ok b => cases h; rfl

/-- A result that has been mapped. -/
theorem map_ok {τ : Type*} {f : σ → τ} {x : Except ε σ} {b : τ} (h : x.map f = .ok b) :
    ∃ a, x = .ok a ∧ b = f a := by
  cases x with
  | error e => cases h
  | ok a => cases h; exact ⟨a, rfl, rfl⟩

end

end Lib
