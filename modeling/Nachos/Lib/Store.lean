import Mathlib.Algebra.BigOperators.Group.Finset.Basic
import Mathlib.Data.List.Forall2
import Nachos.Lib.Copy

/-!
# Lib — a store of named arrays

What a simple file system is for, over any names `κ` and elements `β`: a finite set of arrays, each
under its name and of the length it was made with, and a list of the names that have been opened.
An array is read and written at any position through an index of that list.

`Capacity` is how much there is room for, and `Store.Step` the specification: the elements of a new
array are left open, and everything else is determined, whether there is room included.  Nothing here
is about one system.
-/

namespace Lib

variable {κ β : Type}

/-- How many arrays there may be, how many blocks there are, and how many an array of each length
takes. -/
structure Capacity where
  slots : Nat
  blocks : Nat
  cost : Nat → Nat

structure Store (κ β : Type) where
  names : Finset κ
  content : κ → List β
  opened : List κ

namespace Store

inductive Call (κ β : Type) where
  | create (k : κ) (n : Nat)
  | openFile (k : κ)
  | close (i : Nat)
  | remove (k : κ)
  | length (i : Nat)
  | readAt (i : Nat) (n pos : Nat)
  | writeAt (i : Nat) (from' : Nat → β) (n pos : Nat)
  | restart

/-- What a call returns, and the elements it delivers. -/
inductive Answer (β : Type) where
  | done (ok : Bool)
  | bytes (n : Int) (l : List β)
  | count (n : Int)
  deriving DecidableEq

def empty : Store κ β := ⟨∅, fun _ => [], []⟩

/-- The blocks that are taken. -/
def used (g : Capacity) (s : Store κ β) : Nat := ∑ k ∈ s.names, g.cost (s.content k).length

/-- An array is there as before, of the same length, with the same element at `x`. -/
structure Same (s s' : Store κ β) (k : κ) (x : Nat) : Prop where
  names : k ∈ s'.names ↔ k ∈ s.names
  length : (s'.content k).length = (s.content k).length
  getElem? : (s'.content k)[x]? = (s.content k)[x]?

theorem Same.refl (s : Store κ β) (k : κ) (x : Nat) : Same s s k x := ⟨Iff.rfl, rfl, rfl⟩

theorem Same.trans {s s₁ s₂ : Store κ β} {k : κ} {x : Nat} (h₁ : Same s s₁ k x)
    (h₂ : Same s₁ s₂ k x) : Same s s₂ k x :=
  ⟨h₂.names.trans h₁.names, h₂.length.trans h₁.length, h₂.getElem?.trans h₁.getElem?⟩

section

/-- There is room for a new array. -/
def Fits (g : Capacity) (s : Store κ β) (k : κ) (n : Nat) : Prop :=
  k ∉ s.names ∧ s.names.card < g.slots ∧ s.used g + g.cost n ≤ g.blocks

/-- An empty store has room for what the capacity is enough for. -/
theorem empty_fits {g : Capacity} (hslots : 0 < g.slots) {n : Nat} (hn : g.cost n ≤ g.blocks) (k : κ) :
    (empty : Store κ β).Fits g k n := by
  refine ⟨Finset.notMem_empty k, hslots, ?_⟩
  rwa [used, empty, Finset.sum_empty, Nat.zero_add]

variable [DecidableEq κ]

/-- A new array. -/
def put (s : Store κ β) (k : κ) (bs : List β) : Store κ β :=
  { s with names := insert k s.names, content := Function.update s.content k bs }

@[simp] theorem mem_put {s : Store κ β} {k j : κ} {bs : List β} :
    j ∈ (s.put k bs).names ↔ j = k ∨ j ∈ s.names := Finset.mem_insert

@[simp] theorem content_put_self (s : Store κ β) (k : κ) (bs : List β) :
    (s.put k bs).content k = bs := Function.update_self ..

theorem content_put_of_ne (s : Store κ β) {k j : κ} (h : j ≠ k) (bs : List β) :
    (s.put k bs).content j = s.content j := Function.update_of_ne h _ _

/-- An array is gone, and its name is no longer open. -/
def drop (s : Store κ β) (k : κ) : Store κ β :=
  { s with names := s.names.erase k, opened := s.opened.filter (· ≠ k) }

@[simp] theorem mem_drop {s : Store κ β} {k j : κ} : j ∈ (s.drop k).names ↔ j ≠ k ∧ j ∈ s.names :=
  Finset.mem_erase

/-- The elements of a request that lie in an array of that length. -/
def inside (len n pos : Nat) : Nat := min n (len - pos)

/-- Elements are put into an array. -/
def write (s : Store κ β) (k : κ) (pos : Nat) (bs : List β) : Store κ β :=
  { s with content := Function.update s.content k (overlay (s.content k) pos bs) }

@[simp] theorem content_write_self (s : Store κ β) (k : κ) (pos : Nat) (bs : List β) :
    (s.write k pos bs).content k = overlay (s.content k) pos bs := Function.update_self ..

theorem content_write_of_ne (s : Store κ β) {k j : κ} (h : j ≠ k) (pos : Nat) (bs : List β) :
    (s.write k pos bs).content j = s.content j := Function.update_of_ne h _ _

/-- What a call may be answered. -/
inductive Step (g : Capacity) : Store κ β → Call κ β → Answer β → Store κ β → Prop where
  | create {s : Store κ β} {k : κ} {n : Nat} {bs : List β} (hfit : s.Fits g k n)
      (hlen : bs.length = n) : Step g s (.create k n) (.done true) (s.put k bs)
  | refused {s : Store κ β} {k : κ} {n : Nat} (hfit : ¬ s.Fits g k n) :
      Step g s (.create k n) (.done false) s
  | openFile {s : Store κ β} {k : κ} (hk : k ∈ s.names) :
      Step g s (.openFile k) (.done true) { s with opened := s.opened ++ [k] }
  | notFound {s : Store κ β} {k : κ} (hk : k ∉ s.names) : Step g s (.openFile k) (.done false) s
  | close {s : Store κ β} {i : Nat} :
      Step g s (.close i) (.done true) { s with opened := s.opened.eraseIdx i }
  | remove {s : Store κ β} {k : κ} (hk : k ∈ s.names) :
      Step g s (.remove k) (.done true) (s.drop k)
  | notRemoved {s : Store κ β} {k : κ} (hk : k ∉ s.names) : Step g s (.remove k) (.done false) s
  | length {s : Store κ β} {i : Nat} {k : κ} (hi : s.opened[i]? = some k) :
      Step g s (.length i) (.count (s.content k).length) s
  | readAt {s : Store κ β} {i n pos : Nat} {k : κ} (hi : s.opened[i]? = some k) :
      Step g s (.readAt i n pos) (.bytes (inside (s.content k).length n pos)
        (((s.content k).drop pos).take n)) s
  | writeAt {s : Store κ β} {i n pos : Nat} {from' : Nat → β} {k : κ}
      (hi : s.opened[i]? = some k) :
      Step g s (.writeAt i from' n pos) (.count (inside (s.content k).length n pos))
        (s.write k pos ((List.range (inside (s.content k).length n pos)).map from'))
  | restart {s : Store κ β} : Step g s .restart (.done true) { s with opened := [] }

/-! ### One write behind the other -/

theorem write_write (s : Store κ β) (k : κ) (pos : Nat) (as bs : List β) :
    (s.write k pos as).write k (pos + as.length) bs = s.write k pos (as ++ bs) := by
  simp only [write, Function.update_self, Function.update_idem, overlay_append]

theorem write_nil (s : Store κ β) (k : κ) (pos : Nat) : s.write k pos [] = s := by
  rw [write, overlay_nil, Function.update_eq_self]

/-- A new array is written. -/
theorem write_put (s : Store κ β) (k : κ) {as bs : List β} (h : as.length = bs.length) :
    (s.put k as).write k 0 bs = s.put k bs := by
  simp only [write, put, Function.update_self, Function.update_idem, overlay_all h]

/-! ### What a call does not touch -/

/-- The call does not touch the element `x` of the array `k`. -/
def Spares (s : Store κ β) (k : κ) (x : Nat) : Call κ β → Prop
  | .create k' _ | .remove k' => k' ≠ k
  | .writeAt i _ n pos => s.opened[i]? = some k → ¬ (pos ≤ x ∧ x < pos + n)
  | _ => True

/-- **What a call does not touch stays.** -/
theorem Step.same {g : Capacity} {s s' : Store κ β} {c : Call κ β} {r : Answer β} {k : κ} {x : Nat}
    (h : Step g s c r s') (hc : s.Spares k x c) : Same s s' k x := by
  cases h with
  | @create k' n bs hfit hlen =>
      have hne : k' ≠ k := hc
      refine ⟨?_, ?_, ?_⟩
      · rw [mem_put, or_iff_right hne.symm]
      · rw [content_put_of_ne s hne.symm]
      · rw [content_put_of_ne s hne.symm]
  | @remove k' hk =>
      have hne : k' ≠ k := hc
      refine ⟨?_, rfl, rfl⟩
      rw [mem_drop, and_iff_right hne.symm]
  | @writeAt i n pos from' k' hi =>
      by_cases e : k = k'
      · subst e
        have hout := hc hi
        refine ⟨Iff.rfl, ?_, ?_⟩
        · rw [content_write_self, length_overlay]
        · rw [content_write_self, getElem?_overlay, List.length_map, List.length_range]
          unfold inside
          rw [if_neg (by omega)]
      · refine ⟨Iff.rfl, ?_, ?_⟩ <;> rw [content_write_of_ne s e]
  | refused | openFile | notFound | close | notRemoved | length | readAt | restart =>
      exact ⟨Iff.rfl, rfl, rfl⟩

end

end Store

/-! ### Two lists side by side -/

section
open List
variable {α γ : Type} {R S : α → γ → Prop} {l : List α} {m : List γ}

theorem forall₂_eraseIdx (h : Forall₂ R l m) (i : Nat) :
    Forall₂ R (l.eraseIdx i) (m.eraseIdx i) := by
  induction h generalizing i with
  | nil => exact .nil
  | cons hab hlm ih =>
      cases i with
      | zero => exact hlm
      | succ i => exact .cons hab (ih i)

/-- The pairs that are left by two filters that agree. -/
theorem forall₂_filter {p : α → Bool} {q : γ → Bool} (h : Forall₂ R l m)
    (hpq : ∀ a c, R a c → p a = q c) (hS : ∀ a c, R a c → q c = true → S a c) :
    Forall₂ S (l.filter p) (m.filter q) := by
  induction h with
  | nil => exact .nil
  | @cons a c l m hac _ ih =>
      cases hq : q c with
      | true =>
          rw [filter_cons_of_pos (by rw [hpq a c hac, hq]), filter_cons_of_pos hq]
          exact .cons (hS a c hac hq) ih
      | false =>
          rw [filter_cons_of_neg (by rw [hpq a c hac, hq]; exact Bool.false_ne_true),
            filter_cons_of_neg (by rw [hq]; exact Bool.false_ne_true)]
          exact ih

theorem forall₂_getElem? (h : Forall₂ R l m) {i : Nat} {a : α} (ha : l[i]? = some a) :
    ∃ c, m[i]? = some c ∧ R a c := by
  induction h generalizing i with
  | nil => cases ha
  | @cons b c l m hbc _ ih =>
      cases i with
      | zero =>
          cases ha
          exact ⟨c, rfl, hbc⟩
      | succ i => exact ih ha

end

end Lib
