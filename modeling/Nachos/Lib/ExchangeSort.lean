import Mathlib.Data.List.Basic
import Mathlib.Order.Lattice

/-!
# Lib — exchange sort

The two nested loops that exchange `a[i]` and `a[j]` for `i < j` whenever `a[j]` is the smaller one,
over the first `n` entries of a list.  Behind the rounds with `i` the entry at `i` is at most those
behind it (`pass_spec`), and so the `n` entries are sorted in the end.
-/

namespace Lib

variable {α : Type} [LinearOrder α]

/-- One comparison. -/
def exchange (a : List α) (i j : Nat) : List α :=
  match a[i]?, a[j]? with
  | some x, some y => if y < x then (a.set i y).set j x else a
  | _, _ => a

/-- The inner loop, at `j` with `rest` rounds to go. -/
def pass (i : Nat) : (rest j : Nat) → List α → List α
  | 0, _, a => a
  | rest + 1, j, a => pass i rest (j + 1) (exchange a i j)

/-- The outer loop, at `i` with `rest` rounds to go. -/
def exchangeSort (n : Nat) : (rest i : Nat) → List α → List α
  | 0, _, a => a
  | rest + 1, i, a => exchangeSort n rest (i + 1) (pass i (n - (i + 1)) (i + 1) a)

/-- The entries from `lo` up to `hi` are at least `z`. -/
def AtLeast (a : List α) (z : α) (lo hi : Nat) : Prop :=
  ∀ k y, lo ≤ k → k < hi → a[k]? = some y → z ≤ y

section
variable {a : List α} {i j k n rest : Nat} {x y z : α}

theorem exchange_perm (hi : i < a.length) (hj : j < a.length) : (exchange a i j).Perm a := by
  rw [exchange, List.getElem?_eq_getElem hi, List.getElem?_eq_getElem hj]
  dsimp only
  split
  · exact List.set_set_perm hi hj
  · exact List.Perm.refl a

/-- **What one comparison leaves**: the smaller entry at `i`, and the larger one at `j`. -/
theorem getElem?_exchange (hij : i < j) (hx : a[i]? = some x) (hy : a[j]? = some y) (k : Nat) :
    (exchange a i j)[k]? =
      if k = i then some (min x y) else if k = j then some (max x y) else a[k]? := by
  have hi := (List.getElem?_eq_some_iff.mp hx).1
  have hj := (List.getElem?_eq_some_iff.mp hy).1
  rw [exchange, hx, hy]
  dsimp only
  split
  · rename_i hlt
    rw [min_eq_right (le_of_lt hlt), max_eq_left (le_of_lt hlt), List.getElem?_set,
      List.getElem?_set, List.length_set]
    by_cases hkj : j = k
    · subst hkj
      rw [if_pos rfl, if_pos hj, if_neg (by omega), if_pos rfl]
    · rw [if_neg hkj]
      by_cases hki : i = k
      · subst hki
        rw [if_pos rfl, if_pos hi, if_pos rfl]
      · rw [if_neg hki, if_neg (Ne.symm hki), if_neg (Ne.symm hkj)]
  · rename_i hle
    rw [min_eq_left (not_lt.mp hle), max_eq_right (not_lt.mp hle)]
    split
    · rename_i hk
      rw [hk, hx]
    · split
      · rename_i hk
        rw [hk, hy]
      · rfl

/-- **What the rounds with `i` leave.** -/
structure Passed (i n : Nat) (a r : List α) : Prop where
  perm : r.Perm a
  others : ∀ k, k < i ∨ n ≤ k → r[k]? = a[k]?
  least : ∀ x, r[i]? = some x → AtLeast r x (i + 1) n
  bound : ∀ z, AtLeast a z i n → AtLeast r z i n

theorem pass_spec (hij : i < j) (hn : n = j + rest) (hle : n ≤ a.length)
    (hleast : ∀ x, a[i]? = some x → AtLeast a x (i + 1) j) : Passed i n a (pass i rest j a) := by
  induction rest generalizing j a with
  | zero =>
      subst hn
      exact ⟨List.Perm.refl a, fun _ _ => rfl, hleast, fun _ h => h⟩
  | succ rest ih =>
      obtain ⟨x, hx⟩ : ∃ x, a[i]? = some x := ⟨_, List.getElem?_eq_getElem (by omega)⟩
      obtain ⟨y, hy⟩ : ∃ y, a[j]? = some y := ⟨_, List.getElem?_eq_getElem (by omega)⟩
      have hget := getElem?_exchange hij hx hy
      have hperm : (exchange a i j).Perm a := exchange_perm (by omega) (by omega)
      have h := ih (j := j + 1) (a := exchange a i j) (by omega) (by omega)
        (by rw [hperm.length_eq]; exact hle) ?_
      · refine ⟨h.perm.trans hperm, fun k hk => ?_, h.least, fun z hz => h.bound z ?_⟩
        · rw [pass, h.others k hk, hget, if_neg (by omega), if_neg (by omega)]
        · intro k v hlo hhi hv
          have hzx := hz i x (Nat.le_refl i) (by omega) hx
          have hzy := hz j y (by omega) (by omega) hy
          rw [hget] at hv
          split at hv
          · cases hv
            exact le_min hzx hzy
          · split at hv
            · cases hv
              exact le_trans hzx (le_max_left x y)
            · exact hz k v hlo hhi hv
      · intro u hu k v hlo hhi hv
        rw [hget, if_pos rfl] at hu
        cases hu
        rw [hget, if_neg (by omega)] at hv
        split at hv
        · cases hv
          exact le_trans (min_le_left x y) (le_max_left x y)
        · exact le_trans (min_le_left x y) (hleast x hx k v hlo (by omega) hv)

/-- The entries before `i` are in their places. -/
def SortedTo (a : List α) (i n : Nat) : Prop := ∀ p x, p < i → a[p]? = some x → AtLeast a x (p + 1) n

theorem Passed.sortedTo {r : List α} (h : Passed i n a r) (ha : SortedTo a i n) :
    SortedTo r (i + 1) n := by
  intro p x hp hx
  by_cases hpi : p = i
  · subst hpi
    exact h.least x hx
  · have hbefore : p < i := by omega
    rw [h.others p (.inl hbefore)] at hx
    have hafter : AtLeast r x i n := h.bound x fun k y hlo hhi hy =>
      ha p x hbefore hx k y (by omega) hhi hy
    intro k y hlo hhi hy
    by_cases hk : k < i
    · rw [h.others k (.inl hk)] at hy
      exact ha p x hbefore hx k y hlo hhi hy
    · exact hafter k y (by omega) hhi hy

theorem exchangeSort_spec (hn : i + rest + 1 = n) (hle : n ≤ a.length) (ha : SortedTo a i n) :
    (exchangeSort n rest i a).Perm a ∧ SortedTo (exchangeSort n rest i a) (i + rest) n ∧
      ∀ k, n ≤ k → (exchangeSort n rest i a)[k]? = a[k]? := by
  induction rest generalizing i a with
  | zero => exact ⟨List.Perm.refl a, ha, fun _ _ => rfl⟩
  | succ rest ih =>
      have hpass : Passed i n a (pass i (n - (i + 1)) (i + 1) a) :=
        pass_spec (Nat.lt_succ_self i) (by omega) hle fun _ _ k _ hlo hhi => by omega
      obtain ⟨hperm, hsorted, hothers⟩ := ih (i := i + 1) (by omega)
        (by rw [hpass.perm.length_eq]; exact hle) (hpass.sortedTo ha)
      refine ⟨hperm.trans hpass.perm, ?_, fun k hk => ?_⟩
      · rw [show i + (rest + 1) = i + 1 + rest by omega]
        exact hsorted
      · exact (hothers k hk).trans (hpass.others k (.inr hk))

/-- **The loops sort the first `n` entries**, and leave the others. -/
theorem exchangeSort_sorts (hle : n ≤ a.length) :
    ((exchangeSort n (n - 1) 0 a).take n).Perm (a.take n) ∧
      ((exchangeSort n (n - 1) 0 a).take n).Pairwise (· ≤ ·) := by
  by_cases hzero : n = 0
  · subst hzero
    exact ⟨List.Perm.refl _, List.Pairwise.nil⟩
  obtain ⟨hperm, hsorted, hothers⟩ := exchangeSort_spec
    (show 0 + (n - 1) + 1 = n by omega) hle fun p x hp => absurd hp (Nat.not_lt_zero p)
  generalize exchangeSort n (n - 1) 0 a = r at *
  constructor
  · have hdrop : r.drop n = a.drop n := by
      apply List.ext_getElem?
      intro k
      rw [List.getElem?_drop, List.getElem?_drop, hothers _ (Nat.le_add_right n k)]
    rw [← List.perm_append_right_iff (a.drop n), List.take_append_drop, ← hdrop,
      List.take_append_drop]
    exact hperm
  · rw [List.pairwise_iff_getElem]
    intro p k hp hk hpk
    rw [List.length_take] at hp hk
    refine hsorted p _ (by omega) ?_ k _ hpk (by omega) ?_
    · rw [List.getElem_take]
      exact List.getElem?_eq_getElem (by omega)
    · rw [List.getElem_take]
      exact List.getElem?_eq_getElem (by omega)

end

end Lib
