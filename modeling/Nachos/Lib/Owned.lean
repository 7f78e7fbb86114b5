import Mathlib.Algebra.BigOperators.Group.Finset.Basic
import Mathlib.Data.List.Basic
import Mathlib.Order.Disjoint

/-!
# Lib — Owned resources

Resources `ρ` are taken and given back in lists, each by a holder `ι` that has at most one list at a
time.  `Owned taken res` says that the resources `taken` are exactly those in the lists `res`, each
once: `take` and `give` are the two ways this changes, and `card_taken` counts.
-/

namespace Lib
open Finset

variable {ι ρ : Type*} {taken taken' : ρ → Prop} {res : ι → Option (List ρ)} {i : ι} {l : List ρ}

/-- A resource is taken iff a holder has it, which has it once and alone. -/
structure Owned (taken : ρ → Prop) (res : ι → Option (List ρ)) : Prop where
  nodup : ∀ i l, res i = some l → l.Nodup
  disjoint : ∀ i j l m, i ≠ j → res i = some l → res j = some m → l.Disjoint m
  taken_iff : ∀ r, taken r ↔ ∃ i l, res i = some l ∧ r ∈ l

namespace Owned

/-- Nobody has anything. -/
theorem empty (ht : ∀ r, ¬ taken r) (hr : ∀ i, res i = none) : Owned taken res := by
  refine ⟨fun i l h => ?_, fun i j l m _ h => ?_, fun r => ⟨fun h => absurd h (ht r), ?_⟩⟩
  · rw [hr i] at h; cases h
  · rw [hr i] at h; cases h
  · rintro ⟨i, l, h, -⟩
    rw [hr i] at h
    cases h

/-- A holder that has nothing takes resources that nobody has. -/
theorem take [DecidableEq ι] (h : Owned taken res) (hi : res i = none) (hl : l.Nodup)
    (hfree : ∀ r ∈ l, ¬ taken r) (ht : ∀ r, taken' r ↔ taken r ∨ r ∈ l) :
    Owned taken' (Function.update res i (some l)) := by
  have hnew : ∀ j m, Function.update res i (some l) j = some m →
      (j = i ∧ m = l) ∨ (j ≠ i ∧ res j = some m) := by
    intro j m hj
    by_cases e : j = i
    · subst e
      rw [Function.update_self, Option.some.injEq] at hj
      exact .inl ⟨rfl, hj.symm⟩
    · rw [Function.update_of_ne e] at hj
      exact .inr ⟨e, hj⟩
  have hold : ∀ j m r, res j = some m → r ∈ m → r ∉ l := fun j m r hj hr hrl =>
    hfree r hrl ((h.taken_iff r).mpr ⟨j, m, hj, hr⟩)
  refine ⟨fun j m hj => ?_, fun j k m n hjk hj hk r hrm hrn => ?_, fun r => ?_⟩
  · rcases hnew j m hj with ⟨-, rfl⟩ | ⟨-, hj⟩
    · exact hl
    · exact h.nodup j m hj
  · rcases hnew j m hj with ⟨rfl, rfl⟩ | ⟨-, hj'⟩ <;>
      rcases hnew k n hk with ⟨rfl, rfl⟩ | ⟨-, hk'⟩
    · exact hjk rfl
    · exact hold k n r hk' hrn hrm
    · exact hold j m r hj' hrm hrn
    · exact h.disjoint j k m n hjk hj' hk' hrm hrn
  · rw [ht, h.taken_iff]
    constructor
    · rintro (⟨j, m, hj, hr⟩ | hr)
      · refine ⟨j, m, ?_, hr⟩
        rw [Function.update_of_ne, hj]
        rintro rfl
        rw [hi] at hj
        cases hj
      · exact ⟨i, l, Function.update_self .., hr⟩
    · rintro ⟨j, m, hj, hr⟩
      rcases hnew j m hj with ⟨-, rfl⟩ | ⟨-, hj⟩
      · exact .inr hr
      · exact .inl ⟨j, m, hj, hr⟩

/-- A holder gives back all it has. -/
theorem give [DecidableEq ι] (h : Owned taken res) (hi : res i = some l)
    (ht : ∀ r, taken' r ↔ taken r ∧ r ∉ l) : Owned taken' (Function.update res i none) := by
  have hnew : ∀ j m, Function.update res i none j = some m → j ≠ i ∧ res j = some m := by
    intro j m hj
    by_cases e : j = i
    · subst e; rw [Function.update_self] at hj; cases hj
    · exact ⟨e, by rwa [Function.update_of_ne e] at hj⟩
  refine ⟨fun j m hj => h.nodup j m (hnew j m hj).2, fun j k m n hjk hj hk =>
    h.disjoint j k m n hjk (hnew j m hj).2 (hnew k n hk).2, fun r => ?_⟩
  rw [ht, h.taken_iff]
  constructor
  · rintro ⟨⟨j, m, hj, hr⟩, hrl⟩
    refine ⟨j, m, ?_, hr⟩
    rw [Function.update_of_ne, hj]
    rintro rfl
    rw [hi] at hj
    cases hj
    exact hrl hr
  · rintro ⟨j, m, hj, hr⟩
    obtain ⟨e, hj⟩ := hnew j m hj
    exact ⟨⟨j, m, hj, hr⟩, fun hrl => h.disjoint j i m l e hj hi hr hrl⟩

/-- The number of taken resources is the sum over any holders that include all that have some. -/
theorem card_taken [DecidableEq ρ] (h : Owned taken res) {S : Finset ι} {T : Finset ρ}
    (hS : ∀ i, res i ≠ none → i ∈ S) (hT : ∀ r, r ∈ T ↔ taken r) :
    T.card = ∑ i ∈ S, ((res i).getD []).length := by
  have hunion : T = S.biUnion fun i => ((res i).getD []).toFinset := by
    ext r
    simp only [hT, h.taken_iff, mem_biUnion, List.mem_toFinset]
    constructor
    · rintro ⟨i, l, hi, hr⟩
      exact ⟨i, hS i (by rw [hi]; simp), by rw [hi]; exact hr⟩
    · rintro ⟨i, -, hr⟩
      cases hi : res i with
      | none => rw [hi] at hr; cases hr
      | some l => exact ⟨i, l, hi, by rw [hi] at hr; exact hr⟩
  rw [hunion, card_biUnion]
  · refine sum_congr rfl fun i _ => List.toFinset_card_of_nodup ?_
    cases hi : res i with
    | none => exact List.nodup_nil
    | some l => exact h.nodup i l hi
  · intro i _ j _ hij
    refine disjoint_left.mpr fun r hr hr' => ?_
    rw [List.mem_toFinset] at hr hr'
    cases hi : res i with
    | none => rw [hi] at hr; cases hr
    | some l =>
        cases hj : res j with
        | none => rw [hj] at hr'; cases hr'
        | some m =>
            rw [hi] at hr
            rw [hj] at hr'
            exact h.disjoint i j l m hij hi hj hr hr'

/-- All the lists, over any holders that include all that have some. -/
theorem flatMap (h : Owned taken res) {S : List ι} (hS : S.Nodup) (hall : ∀ i, res i ≠ none → i ∈ S) :
    (S.flatMap fun i => (res i).getD []).Nodup ∧
      ∀ r, taken r ↔ r ∈ S.flatMap fun i => (res i).getD [] := by
  have hget : ∀ i r, r ∈ (res i).getD [] → ∃ l, res i = some l ∧ r ∈ l := by
    intro i r hr
    cases hi : res i with
    | none => rw [hi] at hr; cases hr
    | some l => rw [hi] at hr; exact ⟨l, rfl, hr⟩
  constructor
  · rw [List.nodup_flatMap]
    constructor
    · intro i _
      cases hi : res i with
      | none => exact List.nodup_nil
      | some l => exact h.nodup i l hi
    · refine hS.imp fun {i j} hij r hr hr' => ?_
      obtain ⟨l, hi, hl⟩ := hget i r hr
      obtain ⟨m, hj, hm⟩ := hget j r hr'
      exact h.disjoint i j l m hij hi hj hl hm
  · intro r
    rw [h.taken_iff, List.mem_flatMap]
    constructor
    · rintro ⟨i, l, hi, hr⟩
      exact ⟨i, hall i (by rw [hi]; exact Option.some_ne_none l), by rw [hi]; exact hr⟩
    · rintro ⟨i, -, hr⟩
      obtain ⟨l, hi, hl⟩ := hget i r hr
      exact ⟨i, l, hi, hl⟩

end Owned

end Lib
