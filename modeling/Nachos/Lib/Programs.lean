import Mathlib.Logic.Function.Basic

/-!
# Lib — programs of calls

A `Program` is what a component that runs on another one does: it is over with a value, or makes a
call and goes on with the answer.  What a call does is a relation `sem c s r s'`: called in the state
`s`, it may answer `r` and leave `s'`.

`Triple sem P p Q` says that from every state with `P` the program comes to its end, with a value and
a state that meet `Q`.  Its rules follow the program: `Triple.done`, `Triple.call`, `Triple.bind`,
and `Triple.loop` for a loop that counts.
-/

namespace Lib

/-- A program that makes the calls `κ`, which are answered by `ω`. -/
inductive Program (κ ω α : Type) where
  | done (a : α)
  | call (c : κ) (k : ω → Program κ ω α)

namespace Program

variable {κ ω α β σ : Type}

/-- One program behind the other. -/
def bind : Program κ ω α → (α → Program κ ω β) → Program κ ω β
  | .done a, f => f a
  | .call c k, f => .call c fun r => (k r).bind f

/-- A loop that counts from `i` on, with `rest` rounds to go. -/
def loop (body : Nat → α → Program κ ω α) : (rest i : Nat) → α → Program κ ω α
  | 0, _, a => .done a
  | rest + 1, i, a => (body i a).bind (loop body rest (i + 1))

/-- The program comes to its end. -/
inductive Ends (sem : κ → σ → ω → σ → Prop) : Program κ ω α → σ → α → σ → Prop where
  | done (a : α) (s : σ) : Ends sem (.done a) s a s
  | call {c : κ} {k : ω → Program κ ω α} {s s₁ s₂ : σ} {r : ω} {a : α} (h : sem c s r s₁)
      (hk : Ends sem (k r) s₁ a s₂) : Ends sem (.call c k) s a s₂

theorem Ends.bind {sem : κ → σ → ω → σ → Prop} {p : Program κ ω α} {f : α → Program κ ω β}
    {s s₁ s₂ : σ} {a : α} {b : β} (h : Ends sem p s a s₁) (hf : Ends sem (f a) s₁ b s₂) :
    Ends sem (p.bind f) s b s₂ := by
  induction h with
  | done => exact hf
  | call h _ ih => exact .call h (ih hf)

end Program

open Program

variable {κ ω α β σ : Type} {sem : κ → σ → ω → σ → Prop} {P P' : σ → Prop} {Q Q' : α → σ → Prop}

/-- From every state with `P` the program comes to an end with `Q`. -/
def Triple (sem : κ → σ → ω → σ → Prop) (P : σ → Prop) (p : Program κ ω α) (Q : α → σ → Prop) :
    Prop :=
  ∀ s, P s → ∃ a s', Ends sem p s a s' ∧ Q a s'

theorem Triple.done {a : α} (h : ∀ s, P s → Q a s) : Triple sem P (.done a) Q :=
  fun s hs => ⟨a, s, .done a s, h s hs⟩

/-- A call, and what is behind it; `R` holds between the two. -/
theorem Triple.call {c : κ} {k : ω → Program κ ω α} (R : ω → σ → Prop)
    (hc : ∀ s, P s → ∃ r s', sem c s r s' ∧ R r s') (hk : ∀ r, Triple sem (R r) (k r) Q) :
    Triple sem P (.call c k) Q := by
  intro s hs
  obtain ⟨r, s₁, hsem, hR⟩ := hc s hs
  obtain ⟨a, s₂, hends, hQ⟩ := hk r s₁ hR
  exact ⟨a, s₂, .call hsem hends, hQ⟩

theorem Triple.bind {p : Program κ ω α} {f : α → Program κ ω β} {R : β → σ → Prop}
    (hp : Triple sem P p Q) (hf : ∀ a, Triple sem (Q a) (f a) R) : Triple sem P (p.bind f) R := by
  intro s hs
  obtain ⟨a, s₁, hends, hQ⟩ := hp s hs
  obtain ⟨b, s₂, hends', hR⟩ := hf a s₁ hQ
  exact ⟨b, s₂, hends.bind hends', hR⟩

theorem Triple.mono {p : Program κ ω α} (h : Triple sem P p Q) (hP : ∀ s, P' s → P s)
    (hQ : ∀ a s, Q a s → Q' a s) : Triple sem P' p Q' := by
  intro s hs
  obtain ⟨a, s', hends, hq⟩ := h s (hP s hs)
  exact ⟨a, s', hends, hQ a s' hq⟩

/-- What does not depend on the state may be assumed. -/
theorem Triple.assume {φ : Prop} {p : Program κ ω α} (h : φ → Triple sem P p Q) :
    Triple sem (fun s => φ ∧ P s) p Q :=
  fun s hs => h hs.1 s hs.2

/-- **The rule for a loop**, where `I i` holds before the round `i`. -/
theorem Triple.loop (I : Nat → α → σ → Prop) {body : Nat → α → Program κ ω α} {rest i : Nat} {a : α}
    (h : ∀ j b, i ≤ j → j < i + rest → Triple sem (I j b) (body j b) (I (j + 1))) :
    Triple sem (I i a) (Program.loop body rest i a) (I (i + rest)) := by
  induction rest generalizing i a with
  | zero => exact .done fun _ hs => hs
  | succ rest ih =>
      refine .bind (h i a (Nat.le_refl i) (by omega)) fun b => ?_
      have hrest := ih (i := i + 1) (a := b) fun j c hj hlt => h j c (by omega) (by omega)
      rwa [show i + 1 + rest = i + (rest + 1) by omega] at hrest

end Lib
