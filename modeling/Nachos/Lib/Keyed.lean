import Mathlib.Data.List.Sort

/-!
# Lib — lists sorted by a key

A list of items with a key each.  `insert` puts an item behind all items whose key is not greater
than its own; it keeps the list sorted and adds exactly the one item.
-/

namespace Lib.Keyed

variable {α : Type*} {l : List (Int × α)} {k : Int} {x : α}

def Sorted (l : List (Int × α)) : Prop := l.Pairwise fun a b => a.1 ≤ b.1

/-- The item goes in front of the first one with a greater key. -/
def insert (k : Int) (x : α) (l : List (Int × α)) : List (Int × α) :=
  l.orderedInsert (fun a b => a.1 < b.1) (k, x)

theorem perm_insert (k : Int) (x : α) (l : List (Int × α)) : (insert k x l).Perm ((k, x) :: l) :=
  List.perm_orderedInsert _ _ _

@[simp] theorem mem_insert {p : Int × α} : p ∈ insert k x l ↔ p = (k, x) ∨ p ∈ l := by
  rw [(perm_insert k x l).mem_iff, List.mem_cons]

theorem sorted_insert (h : Sorted l) : Sorted (insert k x l) := by
  induction l with
  | nil => exact List.pairwise_singleton ..
  | cons b l ih =>
      obtain ⟨hb, hl⟩ := List.pairwise_cons.mp h
      rw [insert, List.orderedInsert_cons]
      split
      · rename_i hlt
        refine List.pairwise_cons.mpr ⟨fun p hp => ?_, h⟩
        rcases List.mem_cons.mp hp with rfl | hp
        · exact le_of_lt hlt
        · exact le_trans (le_of_lt hlt) (hb p hp)
      · rename_i hge
        refine List.pairwise_cons.mpr ⟨fun p hp => ?_, ih hl⟩
        rcases mem_insert.mp hp with rfl | hp
        · exact not_lt.mp hge
        · exact hb p hp

/-- Into a sorted list: the items stay in their order, the new one behind those with a key up to its
own and before the rest. -/
theorem Sorted.insert_eq (h : Sorted l) (k : Int) (x : α) : ∃ l₁ l₂, l = l₁ ++ l₂ ∧
    insert k x l = l₁ ++ (k, x) :: l₂ ∧ (∀ p ∈ l₁, p.1 ≤ k) ∧ ∀ p ∈ l₂, k < p.1 := by
  induction l with
  | nil => exact ⟨[], [], rfl, rfl, by simp, by simp⟩
  | cons b l ih =>
      obtain ⟨hb, hl⟩ := List.pairwise_cons.mp h
      rw [insert, List.orderedInsert_cons]
      split
      · rename_i hlt
        refine ⟨[], b :: l, rfl, rfl, by simp, fun p hp => ?_⟩
        rcases List.mem_cons.mp hp with rfl | hp
        · exact hlt
        · exact lt_of_lt_of_le hlt (hb p hp)
      · rename_i hge
        obtain ⟨l₁, l₂, rfl, hins, h₁, h₂⟩ := ih hl
        refine ⟨b :: l₁, l₂, rfl, congrArg (b :: ·) hins, fun p hp => ?_, h₂⟩
        rcases List.mem_cons.mp hp with rfl | hp
        · exact not_lt.mp hge
        · exact h₁ p hp

theorem countP_insert (p : Int × α → Bool) :
    (insert k x l).countP p = l.countP p + if p (k, x) then 1 else 0 := by
  rw [(perm_insert k x l).countP_eq, List.countP_cons]

/-- The first item has the least key. -/
theorem Sorted.head_le (h : Sorted ((k, x) :: l)) : ∀ p ∈ l, k ≤ p.1 :=
  (List.pairwise_cons.mp h).1

theorem Sorted.tail (h : Sorted ((k, x) :: l)) : Sorted l := (List.pairwise_cons.mp h).2

end Lib.Keyed
