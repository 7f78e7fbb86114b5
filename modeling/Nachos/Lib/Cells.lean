import Mathlib.Data.Fintype.Card
import Mathlib.Data.List.Nodup

/-!
# Lib — Cells

A finite store of cells that point to each other.  An address is a number, a pointer an address or
nothing, and an address may be free; a cell put at a free address may take one that another cell
had before.

`Segment next val h p l q`: following `next` from the pointer `p` leads through the cells of `l`,
addresses and values in order, to the pointer `q`.  A segment depends on its own cells only
(`Segment.congr`), splits where its list does (`segment_append`), and takes a new cell behind any
of its cells (`Segment.insert`).
-/

namespace Lib

/-- A store of cells; the address of a cell is its place in the list. -/
structure Cells (γ : Type*) where
  cells : List (Option γ)
  deriving DecidableEq, Repr

namespace Cells
variable {γ β : Type*}

/-- The cell at an address. -/
def get (h : Cells γ) (a : Nat) : Option γ := h.cells[a]?.join

/-- A store that has the address `a`. -/
def grow (h : Cells γ) (a : Nat) : Cells γ :=
  ⟨h.cells ++ List.replicate (a + 1 - h.cells.length) none⟩

/-- The store with `c` at `a`. -/
def put (h : Cells γ) (a : Nat) (c : γ) : Cells γ := ⟨(h.grow a).cells.set a (some c)⟩

/-- The store with `a` free. -/
def free (h : Cells γ) (a : Nat) : Cells γ := ⟨h.cells.set a none⟩

/-- How many addresses the store has. -/
def size (h : Cells γ) : Nat := h.cells.length

theorem get_grow (h : Cells γ) (a b : Nat) : (h.grow a).get b = h.get b := by
  unfold get grow
  by_cases hb : b < h.cells.length
  · rw [List.getElem?_append_left hb]
  · have hb' : h.cells.length ≤ b := by omega
    rw [List.getElem?_append_right hb', List.getElem?_eq_none hb', List.getElem?_replicate]
    split <;> rfl

theorem lt_size_grow (h : Cells γ) (a : Nat) : a < (h.grow a).cells.length := by
  simp only [grow, List.length_append, List.length_replicate]
  omega

@[simp] theorem get_put_self (h : Cells γ) (a : Nat) (c : γ) : (h.put a c).get a = some c := by
  simp [get, put, List.getElem?_set_self (h.lt_size_grow a)]

theorem get_put_of_ne (h : Cells γ) {a b : Nat} (c : γ) (hab : b ≠ a) :
    (h.put a c).get b = h.get b := by
  rw [← h.get_grow a b]
  unfold get put
  rw [List.getElem?_set_ne hab.symm]

@[simp] theorem get_free_self (h : Cells γ) (a : Nat) : (h.free a).get a = none := by
  unfold get free
  rw [List.getElem?_set]
  split
  · split <;> rfl
  · contradiction

theorem get_free_of_ne (h : Cells γ) {a b : Nat} (hab : b ≠ a) : (h.free a).get b = h.get b := by
  unfold get free
  rw [List.getElem?_set_ne hab.symm]

/-- What is at an address is within the store. -/
theorem lt_size {h : Cells γ} {a : Nat} {c : γ} (hc : h.get a = some c) : a < h.size := by
  by_contra hlt
  rw [get, List.getElem?_eq_none (by unfold size at hlt; omega)] at hc
  cases hc

end Cells

/-! ### Segments -/

section
variable {γ β : Type*} (next : γ → Option Nat) (val : γ → β)

/-- From `p` the cells of `l`, one after the other, lead to `q`. -/
def Segment (h : Cells γ) : Option Nat → List (Nat × β) → Option Nat → Prop
  | p, [], q => p = q
  | p, (a, b) :: l, q => p = some a ∧ ∃ c, h.get a = some c ∧ val c = b ∧ Segment h (next c) l q

variable {next val} {h h' : Cells γ} {p q : Option Nat} {l l' : List (Nat × β)} {a : Nat} {b : β}

@[simp] theorem segment_nil : Segment next val h p [] q ↔ p = q := Iff.rfl

theorem segment_cons : Segment next val h p ((a, b) :: l) q ↔
    p = some a ∧ ∃ c, h.get a = some c ∧ val c = b ∧ Segment next val h (next c) l q := Iff.rfl

theorem segment_append :
    Segment next val h p (l ++ l') q ↔
      ∃ r, Segment next val h p l r ∧ Segment next val h r l' q := by
  induction l generalizing p with
  | nil => simp
  | cons e l ih =>
      obtain ⟨a, b⟩ := e
      simp only [List.cons_append, segment_cons, ih]
      constructor
      · rintro ⟨hp, c, hc, hv, r, h₁, h₂⟩
        exact ⟨r, ⟨hp, c, hc, hv, h₁⟩, h₂⟩
      · rintro ⟨r, ⟨hp, c, hc, hv, h₁⟩, h₂⟩
        exact ⟨hp, c, hc, hv, r, h₁, h₂⟩

/-- A segment depends on its own cells only. -/
theorem Segment.congr (hs : Segment next val h p l q)
    (hh : ∀ a ∈ l.map Prod.fst, h'.get a = h.get a) : Segment next val h' p l q := by
  induction l generalizing p with
  | nil => exact hs
  | cons e l ih =>
      obtain ⟨hp, c, hc, hv, hs⟩ := hs
      refine ⟨hp, c, (hh e.1 (by simp)).trans hc, hv, ih hs fun a ha => hh a ?_⟩
      exact List.mem_cons_of_mem _ ha

/-- There is a cell at every address of a segment. -/
theorem Segment.get (hs : Segment next val h p l q) (ha : a ∈ l.map Prod.fst) :
    ∃ c, h.get a = some c := by
  induction l generalizing p with
  | nil => simp at ha
  | cons e l ih =>
      obtain ⟨-, c, hc, -, hs⟩ := hs
      rcases List.mem_cons.mp ha with rfl | ha
      · exact ⟨c, hc⟩
      · exact ih hs ha

/-- **Insertion.**  The cell of `a` now leads where that of `z` did, the one of `z` to `a`, and the
other cells are what they were: the segment has `a` right behind `z`. -/
theorem Segment.insert {z : Nat} {y x : β} {c c' : γ}
    (hs : Segment next val h p (l ++ (z, y) :: l') q) (hnd : ((l ++ (z, y) :: l').map Prod.fst).Nodup)
    (ha : a ∉ (l ++ (z, y) :: l').map Prod.fst) (hz : h.get z = some c)
    (ha' : ∃ d, h'.get a = some d ∧ next d = next c ∧ val d = x)
    (hz' : h'.get z = some c') (hn : next c' = some a) (hv : val c' = y)
    (hother : ∀ b, b ≠ a → b ≠ z → h'.get b = h.get b) :
    Segment next val h' p (l ++ (z, y) :: (a, x) :: l') q := by
  obtain ⟨d, hd, hdn, hdv⟩ := ha'
  obtain ⟨r, h₁, rfl, c₁, hc₁, -, h₂⟩ := segment_append.mp hs
  obtain rfl : c₁ = c := by rw [hz] at hc₁; exact (Option.some.inj hc₁).symm
  simp only [List.map_append, List.map_cons, List.nodup_append, List.nodup_cons] at hnd
  simp only [List.map_append, List.map_cons, List.mem_append, List.mem_cons, not_or] at ha
  have hl : ∀ b ∈ l.map Prod.fst, h'.get b = h.get b := fun b hb =>
    hother b (fun e => ha.1 (e ▸ hb)) (hnd.2.2 b hb z (by simp))
  have hl' : ∀ b ∈ l'.map Prod.fst, h'.get b = h.get b := fun b hb =>
    hother b (fun e => ha.2.2 (e ▸ hb)) fun e => hnd.2.1.1 (e ▸ hb)
  refine segment_append.mpr ⟨some z, h₁.congr hl, rfl, c', hz', hv, hn, d, hd, hdv, ?_⟩
  rw [hdn]
  exact h₂.congr hl'

/-- A segment of distinct cells has no more of them than the store has addresses. -/
theorem Segment.length_le (hs : Segment next val h p l q) (hnd : (l.map Prod.fst).Nodup) :
    l.length ≤ h.size := by
  have hlt : ∀ a ∈ l.map Prod.fst, a < h.size := fun a ha => by
    obtain ⟨c, hc⟩ := hs.get ha
    exact Cells.lt_size hc
  have hsub : (l.map Prod.fst).toFinset ⊆ Finset.range h.size := fun a ha =>
    Finset.mem_range.mpr (hlt a (List.mem_toFinset.mp ha))
  have hcard := Finset.card_le_card hsub
  rwa [List.toFinset_card_of_nodup hnd, List.length_map, Finset.card_range] at hcard

end

end Lib
