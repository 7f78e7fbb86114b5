import Mathlib.Data.Set.Card
import Nachos.Lib.Traces
import Nachos.Threads.Semaphore
import Nachos.Userprog.BitMap

/-!
# Userprog — BitMapRuns

`class BitMap` once more, as C++ has it: an index is an `int` that an `ASSERT` checks, a word is
read from and written to an array that may be indexed outside its bounds, and the loops call
`Test`, `Mark` and `Clear`.

* `Stands`: such an array stands for a `BitMap n`.  Each method, called with an index of the
  bitmap, succeeds and does to the one what the method of `BitMap n` does to the other.
* `bitmap_refines_set`: over every sequence of calls, the array is the set of the indices marked
  and not cleared since.
-/

namespace Nachos
open Lib (Trace Since)

/-- `class BitMap`, with its array. -/
structure RawBitMap where
  numBits : Nat
  numWords : Nat
  map : List (BitVec 32)
  deriving DecidableEq, Repr

namespace RawBitMap

/-- `map[i]`. -/
def get (m : RawBitMap) (i : Int) : Except Stop (BitVec 32) :=
  if 0 ≤ i then
    match m.map[i.toNat]? with
    | some w => .ok w
    | none => .error .outOfBounds
  else .error .outOfBounds

/-- `map[i] = w`. -/
def set (m : RawBitMap) (i : Int) (w : BitVec 32) : Except Stop RawBitMap :=
  if 0 ≤ i ∧ i < m.map.length then .ok { m with map := m.map.set i.toNat w }
  else .error .outOfBounds

/-- `1 << (which % BitsInWord)`. -/
def bit (which : Int) : BitVec 32 := 1#32 <<< (which % BitsInWord).toNat

/-- `BitMap::Mark`. -/
def mark (m : RawBitMap) (which : Int) : Except Stop RawBitMap :=
  if which ≥ 0 ∧ which < m.numBits then do
    let w ← m.get (which / BitsInWord)
    m.set (which / BitsInWord) (w ||| bit which)
  else .error .assertFails

/-- `BitMap::Clear`. -/
def clear (m : RawBitMap) (which : Int) : Except Stop RawBitMap :=
  if which ≥ 0 ∧ which < m.numBits then do
    let w ← m.get (which / BitsInWord)
    m.set (which / BitsInWord) (w &&& ~~~bit which)
  else .error .assertFails

/-- `BitMap::Test`. -/
def test (m : RawBitMap) (which : Int) : Except Stop Bool :=
  if which ≥ 0 ∧ which < m.numBits then do
    let w ← m.get (which / BitsInWord)
    .ok ((w &&& bit which) != 0#32)
  else .error .assertFails

/-- The loop of `BitMap::BitMap`, with `left` rounds to go. -/
def clearFrom (m : RawBitMap) : (left i : Nat) → Except Stop RawBitMap
  | 0, _ => .ok m
  | left + 1, i => do (← m.clear i).clearFrom left (i + 1)

/-- `BitMap::BitMap`: what is in the words of the new array is arbitrary. -/
def new (nitems : Nat) (words : Fin (divRoundUp nitems BitsInWord) → BitVec 32) :
    Except Stop RawBitMap :=
  let m : RawBitMap := ⟨nitems, divRoundUp nitems BitsInWord, List.ofFn words⟩
  m.clearFrom m.numBits 0

/-- The loop of `BitMap::Find`. -/
def findFrom (m : RawBitMap) : (left i : Nat) → Except Stop (Int × RawBitMap)
  | 0, _ => .ok (-1, m)
  | left + 1, i => do
      if !(← m.test i) then
        let m ← m.mark i
        .ok (i, m)
      else m.findFrom left (i + 1)

/-- `BitMap::Find`. -/
def find (m : RawBitMap) : Except Stop (Int × RawBitMap) := m.findFrom m.numBits 0

/-- The loop of `BitMap::NumClear`. -/
def countFrom (m : RawBitMap) : (left i : Nat) → (count : Int) → Except Stop Int
  | 0, _, count => .ok count
  | left + 1, i, count => do
      if !(← m.test i) then m.countFrom left (i + 1) (count + 1)
      else m.countFrom left (i + 1) count

/-- `BitMap::NumClear`. -/
def numClear (m : RawBitMap) : Except Stop Int := m.countFrom m.numBits 0 0

/-! ### The array of a bitmap -/

section
variable {n : Nat} {m : RawBitMap} {b : BitMap n}

/-- The array `m` stands for the bitmap `b`. -/
structure Stands (m : RawBitMap) (b : BitMap n) : Prop where
  numBits : m.numBits = n
  numWords : m.numWords = divRoundUp n BitsInWord
  map : m.map = List.ofFn b.map

theorem bit_cast (i : Fin n) : bit (i.val : Int) = BitMap.bit i := rfl

theorem word_cast (i : Fin n) : ((i.val : Int) / BitsInWord).toNat = (BitMap.word i).val := rfl

/-- An index of the bitmap has its word in the array. -/
theorem Stands.get (h : Stands m b) (i : Fin n) :
    m.get ((i.val : Int) / BitsInWord) = .ok (b.map (BitMap.word i)) := by
  have hi : (0 : Int) ≤ (i.val : Int) / BitsInWord := by unfold BitsInWord; omega
  unfold RawBitMap.get
  rw [if_pos hi, word_cast, h.map, List.getElem?_ofFn, dif_pos (BitMap.word i).isLt]

theorem ofFn_set {α : Type*} {k : Nat} (f : Fin k → α) (i : Fin k) (x : α) :
    (List.ofFn f).set i x = List.ofFn (Function.update f i x) := by
  apply List.ext_getElem (by simp)
  intro j h₁ h₂
  rw [List.getElem_set, List.getElem_ofFn, List.getElem_ofFn, Function.update_apply]
  simp only [Fin.ext_iff, eq_comm]

theorem Stands.set (h : Stands m b) (i : Fin n) (w : BitVec 32) :
    ∃ m', m.set ((i.val : Int) / BitsInWord) w = .ok m' ∧
      Stands m' (⟨Function.update b.map (BitMap.word i) w⟩ : BitMap n) := by
  have hl : m.map.length = divRoundUp n BitsInWord := by rw [h.map, List.length_ofFn]
  have hi : (0 : Int) ≤ (i.val : Int) / BitsInWord ∧ (i.val : Int) / BitsInWord < m.map.length := by
    have := (BitMap.word i).isLt
    rw [hl]
    unfold BitMap.word BitsInWord at *
    simp only at this
    omega
  refine ⟨_, if_pos hi, h.numBits, h.numWords, ?_⟩
  change m.map.set _ w = _
  rw [word_cast, h.map, ofFn_set]

theorem Stands.inRange (h : Stands m b) (i : Fin n) :
    (i.val : Int) ≥ 0 ∧ (i.val : Int) < m.numBits := by
  rw [h.numBits]
  exact ⟨by omega, by exact_mod_cast i.isLt⟩

theorem Stands.mark (h : Stands m b) (i : Fin n) :
    ∃ m', m.mark i.val = .ok m' ∧ Stands m' (b.mark i) := by
  obtain ⟨m', hm, hs⟩ := h.set i (b.map (BitMap.word i) ||| BitMap.bit i)
  refine ⟨m', ?_, hs⟩
  rw [RawBitMap.mark, if_pos (h.inRange i), h.get i, bit_cast]
  exact hm

theorem Stands.clear (h : Stands m b) (i : Fin n) :
    ∃ m', m.clear i.val = .ok m' ∧ Stands m' (b.clear i) := by
  obtain ⟨m', hm, hs⟩ := h.set i (b.map (BitMap.word i) &&& ~~~BitMap.bit i)
  refine ⟨m', ?_, hs⟩
  rw [RawBitMap.clear, if_pos (h.inRange i), h.get i, bit_cast]
  exact hm

theorem Stands.test (h : Stands m b) (i : Fin n) : m.test i.val = .ok (b.test i) := by
  rw [RawBitMap.test, if_pos (h.inRange i), h.get i, bit_cast]
  rfl

/-- The constructor's loop clears the indices from `i` on. -/
theorem Stands.clearFrom : ∀ {left i : Nat} {m : RawBitMap} {b : BitMap n}, Stands m b →
    i + left = n → ∃ m' b', m.clearFrom left i = .ok m' ∧ Stands m' b' ∧
      ∀ j : Fin n, b'.test j = (decide (j.val < i) && b.test j)
  | 0, i, m, b, h, hi => by
      refine ⟨m, b, rfl, h, fun j => ?_⟩
      have : j.val < i := by have := j.isLt; omega
      simp [this]
  | left + 1, i, m, b, h, hi => by
      obtain ⟨m₁, hm₁, h₁⟩ := h.clear ⟨i, by omega⟩
      obtain ⟨m', b', hm', h', ht⟩ := Stands.clearFrom h₁ (show i + 1 + left = n by omega)
      refine ⟨m', b', ?_, h', fun j => ?_⟩
      · rw [RawBitMap.clearFrom, hm₁]
        exact hm'
      · rw [ht, BitMap.test_clear]
        by_cases hji : j.val = i
        · simp [Fin.ext_iff, hji]
        · have : j.val < i + 1 ↔ j.val < i := by omega
          simp [Fin.ext_iff, hji, this]

/-- A new array is that of an empty bitmap, whatever its words were. -/
theorem new_stands (n : Nat) (words : Fin (divRoundUp n BitsInWord) → BitVec 32) :
    ∃ m b, new n words = .ok m ∧ Stands m b ∧ ∀ j : Fin n, b.test j = false := by
  have h : Stands ⟨n, divRoundUp n BitsInWord, List.ofFn words⟩ (⟨words⟩ : BitMap n) :=
    ⟨rfl, rfl, rfl⟩
  obtain ⟨m, b, hm, hs, ht⟩ := h.clearFrom (Nat.zero_add n)
  exact ⟨m, b, hm, hs, fun j => by simp [ht j]⟩

/-- The loop of `Find` from `i` on: it stops at the first clear index, or runs out of them. -/
theorem Stands.findFrom (h : Stands m b) : ∀ {left i : Nat}, i + left = n →
    (∃ (k : Fin n) (m' : RawBitMap), m.findFrom left i = .ok (k.val, m') ∧
      Stands m' (b.mark k) ∧ b.test k = false ∧
      ∀ j : Fin n, i ≤ j.val → j < k → b.test j = true) ∨
    (m.findFrom left i = .ok (-1, m) ∧ ∀ j : Fin n, i ≤ j.val → b.test j = true)
  | 0, i, hi => .inr ⟨rfl, fun j hj => by have := j.isLt; omega⟩
  | left + 1, i, hi => by
      have hlt : i < n := by omega
      have ht : m.test (i : Nat) = .ok (b.test ⟨i, hlt⟩) := h.test ⟨i, hlt⟩
      cases hb : b.test ⟨i, hlt⟩ with
      | false =>
          obtain ⟨m', hm, hs⟩ := h.mark ⟨i, hlt⟩
          refine .inl ⟨⟨i, hlt⟩, m', ?_, hs, hb, fun j h₁ h₂ => ?_⟩
          · rw [RawBitMap.findFrom, ht, hb]
            change (do let m ← m.mark (i : Nat); Except.ok ((i : Int), m)) = _
            rw [hm]
            rfl
          · exact absurd (Fin.lt_def.mp h₂) (by simpa using h₁)
      | true =>
          have he : m.findFrom (left + 1) i = m.findFrom left (i + 1) := by
            rw [RawBitMap.findFrom, ht, hb]
            rfl
          have hge : ∀ j : Fin n, i ≤ j.val → j.val = i ∨ i + 1 ≤ j.val := fun j hj => by omega
          rw [he]
          rcases h.findFrom (show i + 1 + left = n by omega) with ⟨k, m', hm, hs, hk, hj⟩ | ⟨hm, hj⟩
          · refine .inl ⟨k, m', hm, hs, hk, fun j h₁ h₂ => ?_⟩
            rcases hge j h₁ with e | e
            · rw [← hb]; congr 1; exact Fin.ext e
            · exact hj j e h₂
          · refine .inr ⟨hm, fun j h₁ => ?_⟩
            rcases hge j h₁ with e | e
            · rw [← hb]; congr 1; exact Fin.ext e
            · exact hj j e

/-- The loop of `NumClear` from `i` on adds the clear indices from there. -/
theorem Stands.countFrom (h : Stands m b) : ∀ {left i : Nat} {count : Int}, i + left = n →
    m.countFrom left i count = .ok (count + (b.clears.filter fun j => i ≤ j.val).card)
  | 0, i, count, hi => by
      have : (b.clears.filter fun j => i ≤ j.val) = ∅ :=
        Finset.filter_false_of_mem fun j _ => by have := j.isLt; omega
      rw [this]
      simp [RawBitMap.countFrom]
  | left + 1, i, count, hi => by
      have hlt : i < n := by omega
      have ht : m.test (i : Nat) = .ok (b.test ⟨i, hlt⟩) := h.test ⟨i, hlt⟩
      have hi' : i + 1 + left = n := by omega
      cases hb : b.test ⟨i, hlt⟩ with
      | false =>
          have hc : (b.clears.filter fun j => i ≤ j.val) =
              insert ⟨i, hlt⟩ (b.clears.filter fun j => i + 1 ≤ j.val) := by
            ext j
            by_cases e : j = ⟨i, hlt⟩
            · subst e; simp [BitMap.clears, hb]
            · have : j.val ≠ i := fun e' => e (Fin.ext e')
              simp only [Finset.mem_filter, Finset.mem_insert, e, false_or]
              exact and_congr_right fun _ => by omega
          have hn : (⟨i, hlt⟩ : Fin n) ∉ b.clears.filter fun j => i + 1 ≤ j.val := by simp
          have he : m.countFrom (left + 1) i count = m.countFrom left (i + 1) (count + 1) := by
            rw [RawBitMap.countFrom, ht, hb]
            rfl
          rw [he, h.countFrom hi', hc, Finset.card_insert_of_notMem hn]
          congr 1
          push_cast
          omega
      | true =>
          have hc : (b.clears.filter fun j => i ≤ j.val) =
              b.clears.filter fun j => i + 1 ≤ j.val := by
            refine Finset.filter_congr fun j hj => ?_
            have : j.val ≠ i := fun e => by
              have hj' : b.test j = false := (Finset.mem_filter.mp hj).2
              rw [show j = ⟨i, hlt⟩ from Fin.ext e, hb] at hj'
              cases hj'
            omega
          have he : m.countFrom (left + 1) i count = m.countFrom left (i + 1) count := by
            rw [RawBitMap.countFrom, ht, hb]
            rfl
          rw [he, h.countFrom hi', hc]

theorem Stands.numClear (h : Stands m b) : m.numClear = .ok b.clears.card := by
  rw [RawBitMap.numClear, h.numBits, h.countFrom (Nat.zero_add n)]
  simp

end

/-! ### The set a bitmap is -/

section
variable {n : Nat} {m : RawBitMap} {b : BitMap n} {s : Set Int}

/-- `Test` answers for the set `s`, at every index of the bitmap. -/
def Tests (n : Nat) (m : RawBitMap) (s : Set Int) : Prop :=
  ∀ i : Int, 0 ≤ i → i < n →
    (i ∈ s → m.test i = .ok true) ∧ (i ∉ s → m.test i = .ok false)

/-- What each method does to a bitmap that is the set `s`: `Mark` and `Clear` add and take away
their index and no other, `Find` adds the least index not in `s` or finds there is none, and
`NumClear` counts those not in `s`. -/
structure IsSet (n : Nat) (m : RawBitMap) (s : Set Int) : Prop where
  test : Tests n m s
  mark : ∀ i : Int, 0 ≤ i → i < n → ∃ m', m.mark i = .ok m' ∧ Tests n m' (insert i s)
  clear : ∀ i : Int, 0 ≤ i → i < n → ∃ m', m.clear i = .ok m' ∧ Tests n m' (s \ {i})
  find : (∃ (i : Int) (m' : RawBitMap), (0 ≤ i ∧ i < n ∧ i ∉ s ∧ ∀ j : Int, 0 ≤ j → j < i → j ∈ s) ∧
      m.find = .ok (i, m') ∧ Tests n m' (insert i s)) ∨
    ((∀ j : Int, 0 ≤ j → j < n → j ∈ s) ∧ m.find = .ok (-1, m))
  numClear : m.numClear = .ok ({i : Int | 0 ≤ i ∧ i < n ∧ i ∉ s}.ncard : Int)

/-- The bits of `b` are the set `s`. -/
def Bits (b : BitMap n) (s : Set Int) : Prop := ∀ i : Fin n, b.test i = true ↔ (i.val : Int) ∈ s

theorem Bits.mark (h : Bits b s) (i : Fin n) : Bits (b.mark i) (insert (i.val : Int) s) := by
  intro j
  have : (j.val : Int) = i.val ↔ j = i := by rw [Fin.ext_iff]; omega
  simp [h j, this]

theorem Bits.clear (h : Bits b s) (i : Fin n) : Bits (b.clear i) (s \ {(i.val : Int)}) := by
  intro j
  have : (j.val : Int) = i.val ↔ j = i := by rw [Fin.ext_iff]; omega
  simp [h j, this, and_comm]

/-- An `int` within the bitmap is one of its indices. -/
theorem eq_index {i : Int} (h₀ : 0 ≤ i) (hn : i < n) : ∃ k : Fin n, i = (k.val : Int) :=
  ⟨⟨i.toNat, by omega⟩, by simp [h₀]⟩

theorem Stands.tests (h : Stands m b) (hs : Bits b s) : Tests n m s := by
  intro i h₀ hn
  obtain ⟨k, rfl⟩ := eq_index h₀ hn
  rw [h.test k]
  refine ⟨fun hi => by rw [(hs k).mpr hi], fun hi => ?_⟩
  rw [Bool.eq_false_iff.mpr fun e => hi ((hs k).mp e)]

theorem Bits.clears (h : Bits b s) : {i : Int | 0 ≤ i ∧ i < n ∧ i ∉ s}.ncard = b.clears.card := by
  have hinj : Function.Injective fun k : Fin n => (k.val : Int) := fun i j hij =>
    Fin.ext (by simpa using hij)
  have he : {i : Int | 0 ≤ i ∧ i < n ∧ i ∉ s} =
      (fun k : Fin n => (k.val : Int)) '' (b.clears : Set (Fin n)) := by
    ext i
    constructor
    · rintro ⟨h₀, hn, hi⟩
      obtain ⟨k, rfl⟩ := eq_index h₀ hn
      refine ⟨k, ?_, rfl⟩
      have hk : b.test k = false := Bool.eq_false_iff.mpr fun e => hi ((h k).mp e)
      simp [BitMap.clears, hk]
    · rintro ⟨k, hk, rfl⟩
      have hk' : b.test k = false := (Finset.mem_filter.mp (Finset.mem_coe.mp hk)).2
      refine ⟨by simp, by simp, fun hi => ?_⟩
      rw [(h k).mpr hi] at hk'
      cases hk'
  rw [he, Set.ncard_image_of_injective _ hinj, Set.ncard_coe_finset]

/-- An array that stands for a bitmap is its set. -/
theorem Stands.isSet (h : Stands m b) (hs : Bits b s) : IsSet n m s := by
  refine ⟨h.tests hs, ?_, ?_, ?_, ?_⟩
  · intro i h₀ hn
    obtain ⟨k, rfl⟩ := eq_index h₀ hn
    obtain ⟨m', hm, h'⟩ := h.mark k
    exact ⟨m', hm, h'.tests (hs.mark k)⟩
  · intro i h₀ hn
    obtain ⟨k, rfl⟩ := eq_index h₀ hn
    obtain ⟨m', hm, h'⟩ := h.clear k
    exact ⟨m', hm, h'.tests (hs.clear k)⟩
  · rw [RawBitMap.find, h.numBits]
    rcases h.findFrom (Nat.zero_add n) with ⟨k, m', hm, h', hk, hlt⟩ | ⟨hm, hall⟩
    · refine .inl ⟨k.val, m', ⟨by omega, by exact_mod_cast k.isLt, fun hi => ?_, ?_⟩, hm,
        h'.tests (hs.mark k)⟩
      · rw [(hs k).mpr hi] at hk
        cases hk
      · intro j h₀ hj
        obtain ⟨j, rfl⟩ := eq_index h₀ (hj.trans (by exact_mod_cast k.isLt))
        exact (hs j).mp (hlt j (Nat.zero_le _) (Fin.lt_def.mpr (by omega)))
    · refine .inr ⟨fun j h₀ hn => ?_, hm⟩
      obtain ⟨k, rfl⟩ := eq_index h₀ hn
      exact (hs k).mp (hall k (Nat.zero_le _))
  · rw [h.numClear, hs.clears]

end

/-! ### Runs -/

/-- A call of a method that changes the bitmap. -/
inductive Call where
  | mark (which : Int)
  | clear (which : Int)
  | find
  deriving DecidableEq, Repr

/-- The call, with what `Find` returns. -/
def step (m : RawBitMap) : Call → Except Stop (Option Int × RawBitMap)
  | .mark which => do .ok (none, ← m.mark which)
  | .clear which => do .ok (none, ← m.clear which)
  | .find => do
      let (r, m) ← m.find
      .ok (some r, m)

/-- The index of a call is one of an `n`-bit map. -/
def Call.InRange (n : Nat) : Call → Prop
  | .mark which | .clear which => 0 ≤ which ∧ which < n
  | .find => True

/-- The call marked `i`: a `Mark`, or a `Find` that returned it. -/
def Marks (i : Int) : Call × Option Int → Prop
  | (.mark which, _) => which = i
  | (.clear _, _) => False
  | (.find, r) => r = some i

/-- The call cleared `i`. -/
def Clears (i : Int) (e : Call × Option Int) : Prop := e.1 = .clear i

/-- The indices marked by the calls so far and not cleared since. -/
def marked (l : List (Call × Option Int)) : Set Int := {i | Since (Marks i) (Clears i) l}

section
variable {n : Nat} {m m' : RawBitMap} {s : Set Int} {l : List (Call × Option Int)}

/-- What the run keeps: the array stands for a bitmap with these bits. -/
def Inv (n : Nat) (m : RawBitMap) (s : Set Int) : Prop := ∃ b : BitMap n, Stands m b ∧ Bits b s

theorem Inv.isSet : Inv n m s → IsSet n m s
  | ⟨_, h, hs⟩ => h.isSet hs

theorem Inv.congr (h : Inv n m s) {t : Set Int} (hst : ∀ i : Int, 0 ≤ i → i < n → (i ∈ s ↔ i ∈ t)) :
    Inv n m t := by
  obtain ⟨b, h, hs⟩ := h
  exact ⟨b, h, fun i => (hs i).trans (hst _ (by omega) (by exact_mod_cast i.isLt))⟩

/-- One more call adds what it marks to the set, and takes away what it clears. -/
def after (s : Set Int) (e : Call × Option Int) : Set Int := {i | Marks i e ∨ (i ∈ s ∧ ¬ Clears i e)}

theorem marked_snoc (e : Call × Option Int) : marked (l ++ [e]) = after (marked l) e :=
  Set.ext fun _ => Lib.since_snoc

/-- A permitted call succeeds, and makes the bitmap the set it should. -/
theorem step_inv (h : Inv n m s) {c : Call} (hc : c.InRange n) :
    ∃ r m', step m c = .ok (r, m') ∧ Inv n m' (after s (c, r)) := by
  obtain ⟨b, h, hs⟩ := h
  cases c with
  | mark which =>
      obtain ⟨k, rfl⟩ := eq_index hc.1 hc.2
      obtain ⟨m', hm, h'⟩ := h.mark k
      refine ⟨none, m', by rw [step, hm]; rfl, Inv.congr ⟨_, h', hs.mark k⟩ fun i _ _ => ?_⟩
      simp [after, Marks, Clears, eq_comm]
  | clear which =>
      obtain ⟨k, rfl⟩ := eq_index hc.1 hc.2
      obtain ⟨m', hm, h'⟩ := h.clear k
      refine ⟨none, m', by rw [step, hm]; rfl, Inv.congr ⟨_, h', hs.clear k⟩ fun i _ _ => ?_⟩
      simp [after, Marks, Clears, eq_comm]
  | find =>
      have hf : m.find = m.findFrom n 0 := by rw [RawBitMap.find, h.numBits]
      rcases h.findFrom (Nat.zero_add n) with ⟨k, m', hm, h', -, -⟩ | ⟨hm, -⟩
      · refine ⟨some k.val, m', by rw [step, hf, hm]; rfl,
          Inv.congr ⟨_, h', hs.mark k⟩ fun i _ _ => ?_⟩
        simp [after, Marks, Clears, eq_comm]
      · refine ⟨some (-1), m, by rw [step, hf, hm]; rfl, Inv.congr ⟨_, h, hs⟩ fun i h₀ _ => ?_⟩
        have : ¬ (-1 : Int) = i := by omega
        simp [after, Marks, Clears, this]

/-- A call that an `ASSERT` lets through is permitted. -/
theorem Inv.inRange (h : Inv n m s) {c : Call} {r : Option Int} (hs : step m c = .ok (r, m')) :
    c.InRange n := by
  obtain ⟨b, h, -⟩ := h
  cases c with
  | find => trivial
  | mark which | clear which =>
      by_cases hr : which ≥ 0 ∧ which < m.numBits
      · rw [h.numBits] at hr
        exact hr
      · simp only [step, RawBitMap.mark, RawBitMap.clear, if_neg hr] at hs
        cases hs

end

/-- **A bitmap is a set of indices.**  From a new bitmap of `n` bits with arbitrary words, every
sequence of calls with indices of the bitmap succeeds (no `ASSERT` fails and no word outside the
array is used), and after it the bitmap is the set of the indices marked and not cleared since. -/
theorem bitmap_refines_set (n : Nat) (words : Fin (divRoundUp n BitsInWord) → BitVec 32) :
    ∃ m₀, new n words = .ok m₀ ∧
      (∀ calls : List Call, (∀ c ∈ calls, c.InRange n) →
        ∃ l m, Trace step m₀ l m ∧ l.map Prod.fst = calls) ∧
      ∀ l m, Trace step m₀ l m → IsSet n m (marked l) := by
  obtain ⟨m₀, b₀, hm₀, h₀, hb₀⟩ := new_stands n words
  have hI₀ : Inv n m₀ (marked []) :=
    ⟨b₀, h₀, fun i => by simp [hb₀ i, marked, Lib.not_since_nil]⟩
  refine ⟨m₀, hm₀, fun calls hc => ?_, fun l m htr => ?_⟩
  · have htotal : ∀ m c, (∃ s, Inv n m s) → Call.InRange n c →
        ∃ r m', step m c = .ok (r, m') ∧ ∃ s, Inv n m' s := by
      rintro m c ⟨s, hI⟩ hc
      obtain ⟨r, m', hs, hI'⟩ := step_inv hI hc
      exact ⟨r, m', hs, _, hI'⟩
    obtain ⟨l, m, htr, hl, -⟩ := Trace.total htotal calls ⟨_, hI₀⟩ hc
    exact ⟨l, m, htr, hl⟩
  · have hI : Inv n m (marked l) :=
      htr.inv (I := fun l m => Inv n m (marked l)) hI₀ fun l m c r m' hI hs => by
        obtain ⟨r', m₁, hs', hI'⟩ := step_inv hI (hI.inRange hs)
        rw [hs] at hs'
        cases hs'
        rw [marked_snoc]
        exact hI'
    exact hI.isSet

end RawBitMap

end Nachos
