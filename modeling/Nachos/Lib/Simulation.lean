import Nachos.Lib.Traces

/-!
# Lib — specifications that leave choices open

A specification of a component is a relation `spec t a r t'`: in the state `t` the call `a` may be
answered by `r`, which leads to `t'`.  `Obeys spec t l t'` says that the calls of `l` may get the
answers beside them.

`Trace.obeys` is forward simulation: a component each of whose steps is one that the specification
allows has only traces that it allows.  The calls of the two may be different types, and those of the
component may be restricted by a condition.
-/

namespace Lib

variable {σ τ α β ω ε : Type*}

/-- The calls of a list, with the answers it says, are allowed and lead from `t` to a state. -/
inductive Obeys (spec : τ → β → ω → τ → Prop) (t : τ) : List (β × ω) → τ → Prop where
  | nil : Obeys spec t [] t
  | snoc {l : List (β × ω)} {t₁ t₂ : τ} {b : β} {r : ω} : Obeys spec t l t₁ → spec t₁ b r t₂ →
      Obeys spec t (l ++ [(b, r)]) t₂

section
variable {step : σ → α → Except ε (ω × σ)} {spec : τ → β → ω → τ → Prop} {f : α → β}
  {R : σ → τ → Prop} {C : α → Prop} {s s₁ : σ} {t : τ}

/-- **Forward simulation**, by calls that meet `C`. -/
theorem Trace.obeys {l : List (α × ω)} (h : Trace step s l s₁) (hC : ∀ c ∈ l, C c.1) (hR : R s t)
    (hsim : ∀ s t a r s', C a → R s t → step s a = .ok (r, s') →
      ∃ t', spec t (f a) r t' ∧ R s' t') :
    ∃ t', Obeys spec t (l.map (Prod.map f id)) t' ∧ R s₁ t' := by
  induction h with
  | nil => exact ⟨t, .nil, hR⟩
  | snoc _ hs ih =>
      obtain ⟨t₁, ho, hR₁⟩ := ih fun c hc => hC c (List.mem_append_left _ hc)
      obtain ⟨t₂, hst, hR₂⟩ := hsim _ _ _ _ _
        (hC _ (List.mem_append_right _ (List.mem_singleton_self _))) hR₁ hs
      rw [List.map_append]
      exact ⟨t₂, .snoc ho hst, hR₂⟩

end

end Lib
