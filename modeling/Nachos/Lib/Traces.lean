import Mathlib.Logic.Relation

/-!
# Lib — Traces

A component that answers its callers is a partial function
`step : σ → α → Except ε (ω × σ)`: from a state and a call, the answer and the next state, or the
reason why there is none.  `Trace step s l s'` says that the calls of `l`, each with the answer
beside it, lead from `s` to `s'`.

`Trace.inv` is the invariant rule, for invariants that speak of the calls made so far; by
`Trace.refines` a component whose steps are simulated by those of another has traces of the other
only, and by `Trace.total` a component that answers every call it may get has a trace for every
list of such calls.  `lastWrite` is what the last of the calls that wrote a place has written
there, and `Since P Q` that a call met `P` and none after it `Q`.
-/

namespace Lib

variable {σ τ α ω ε δ : Type*}

/-- The calls of a list, with the answers it says, lead from `s` to a state. -/
inductive Trace (step : σ → α → Except ε (ω × σ)) (s : σ) : List (α × ω) → σ → Prop where
  | nil : Trace step s [] s
  | snoc {l : List (α × ω)} {s₁ s₂ : σ} {a : α} {r : ω} : Trace step s l s₁ →
      step s₁ a = .ok (r, s₂) → Trace step s (l ++ [(a, r)]) s₂

/-- The calls of a list, one after the other, with their answers. -/
def trace (step : σ → α → Except ε (ω × σ)) : σ → List α → Option (List (α × ω) × σ)
  | s, [] => some ([], s)
  | s, a :: as =>
      match step s a with
      | .ok (r, s₁) => (trace step s₁ as).map fun x => ((a, r) :: x.1, x.2)
      | .error _ => none

section
variable {step : σ → α → Except ε (ω × σ)} {s s₁ s₂ : σ} {l l₁ l₂ : List (α × ω)}

theorem Trace.append (h₁ : Trace step s l₁ s₁) (h₂ : Trace step s₁ l₂ s₂) :
    Trace step s (l₁ ++ l₂) s₂ := by
  induction h₂ with
  | nil => rw [List.append_nil]; exact h₁
  | snoc _ hs ih => rw [← List.append_assoc]; exact .snoc ih hs

/-- **The invariant rule.**  What holds before the first call and is kept by every call holds of
the calls made and the state they lead to. -/
theorem Trace.inv {I : List (α × ω) → σ → Prop} (h : Trace step s l s₁) (h₀ : I [] s)
    (hI : ∀ l s a r s', I l s → step s a = .ok (r, s') → I (l ++ [(a, r)]) s') : I l s₁ := by
  induction h with
  | nil => exact h₀
  | snoc _ hs ih => exact hI _ _ _ _ _ ih hs

/-- **Refinement.**  When each step is simulated by a step of `step'` with the same answer, so is
each trace. -/
theorem Trace.refines {step' : τ → α → Except δ (ω × τ)} {R : σ → τ → Prop} {t : τ}
    (h : Trace step s l s₁) (hR : R s t)
    (hsim : ∀ s t a r s', R s t → step s a = .ok (r, s') →
      ∃ t', step' t a = .ok (r, t') ∧ R s' t') : ∃ t', Trace step' t l t' ∧ R s₁ t' := by
  induction h with
  | nil => exact ⟨t, .nil, hR⟩
  | snoc _ hs ih =>
      obtain ⟨t₁, htr, hR₁⟩ := ih
      obtain ⟨t₂, hst, hR₂⟩ := hsim _ _ _ _ _ hR₁ hs
      exact ⟨t₂, .snoc htr hst, hR₂⟩

/-- **Totality.**  Where an invariant makes every permitted call succeed, every list of permitted
calls has a trace. -/
theorem Trace.total {I : σ → Prop} {P : α → Prop}
    (hI : ∀ s a, I s → P a → ∃ r s', step s a = .ok (r, s') ∧ I s') :
    ∀ (as : List α) {s : σ}, I s → (∀ a ∈ as, P a) →
      ∃ l s', Trace step s l s' ∧ l.map Prod.fst = as ∧ I s'
  | [], s, h₀, _ => ⟨[], s, .nil, rfl, h₀⟩
  | a :: as, s, h₀, hP => by
      obtain ⟨r, s₁, hs, h₁⟩ := hI s a h₀ (hP a (by simp))
      obtain ⟨l, s₂, htr, hl, h₂⟩ := total hI as h₁ fun b hb => hP b (List.mem_cons_of_mem _ hb)
      exact ⟨(a, r) :: l, s₂, (Trace.snoc .nil hs).append htr, by simp [hl], h₂⟩

theorem ok_pair {x : ω × σ} {r : ω} (h : (.ok x : Except ε (ω × σ)) = .ok (r, s)) :
    x.1 = r ∧ x.2 = s := by
  cases h
  exact ⟨rfl, rfl⟩

/-- An evaluated list of calls is a trace. -/
theorem Trace.of_trace {as : List α} (h : trace step s as = some (l, s₁)) : Trace step s l s₁ := by
  induction as generalizing s l with
  | nil =>
      simp only [trace, Option.some.injEq, Prod.mk.injEq] at h
      obtain ⟨rfl, rfl⟩ := h
      exact .nil
  | cons a as ih =>
      simp only [trace] at h
      split at h
      · rename_i r s₂ hs
        obtain ⟨⟨l', s'⟩, ht, he⟩ := Option.map_eq_some_iff.mp h
        cases he
        exact (Trace.snoc .nil hs).append (ih ht)
      · cases h

end

/-! ### The last write -/

section
variable {γ β : Type*}

/-- What the last call of `l` that wrote a place has written there, or `b`. -/
def lastWrite (wrote : γ → Option β) (l : List γ) (b : β) : β := (l.reverse.findSome? wrote).getD b

theorem lastWrite_snoc (wrote : γ → Option β) (l : List γ) (c : γ) (b : β) :
    lastWrite wrote (l ++ [c]) b = (wrote c).getD (lastWrite wrote l b) := by
  unfold lastWrite
  rw [List.reverse_append, List.reverse_singleton, List.singleton_append, List.findSome?_cons]
  cases wrote c <;> rfl

/-- Some call of `l` met `P`, and none after it `Q`. -/
def Since (P Q : γ → Prop) (l : List γ) : Prop :=
  ∃ l₁ e l₂, l = l₁ ++ e :: l₂ ∧ P e ∧ ∀ e' ∈ l₂, ¬ Q e'

theorem not_since_nil {P Q : γ → Prop} : ¬ Since P Q [] := by
  rintro ⟨l₁, e, l₂, h, -, -⟩
  simp at h

theorem since_snoc {P Q : γ → Prop} {l : List γ} {c : γ} :
    Since P Q (l ++ [c]) ↔ P c ∨ (Since P Q l ∧ ¬ Q c) := by
  constructor
  · rintro ⟨l₁, e, l₂, h, he, hl⟩
    rcases List.eq_nil_or_concat l₂ with rfl | ⟨l₂, d, rfl⟩
    · cases List.append_inj_right' h rfl
      exact .inl he
    · rw [List.concat_eq_append, ← List.cons_append, ← List.append_assoc] at h
      obtain ⟨rfl, hd⟩ := List.append_inj' h rfl
      cases hd
      exact .inr ⟨⟨l₁, e, l₂, rfl, he, fun e' h' => hl e' (by simp [h'])⟩, hl c (by simp)⟩
  · rintro (hc | ⟨⟨l₁, e, l₂, rfl, he, hl⟩, hc⟩)
    · exact ⟨l, c, [], rfl, hc, by simp⟩
    · refine ⟨l₁, e, l₂ ++ [c], by simp, he, fun e' h' => ?_⟩
      rcases List.mem_append.mp h' with h' | h'
      · exact hl e' h'
      · exact List.mem_singleton.mp h' ▸ hc

end

end Lib
