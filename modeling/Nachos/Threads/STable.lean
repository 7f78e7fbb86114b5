import Nachos.Lib.CString
import Nachos.Lib.Traces
import Nachos.Threads.Semaphore
import Nachos.Userprog.AddrSpace
import Nachos.Userprog.BitMap

/-!
# Threads — the table of user semaphores

`STable`, as the system calls use it: any number of threads create semaphores by name, wait on them
and signal them, and a thread that sleeps in `wait` tests the value again when a `signal` has woken
it.  A name is stored in an array of 255 bytes, which may leave no room for a terminator, and
compared by `strncmp`.  The value of a semaphore is an `int`, which a `signal` at 2147483647 wraps
around.

`Spec` is what the table is for: a map from names, as far as the comparison sees them, to
counters of 32 bits.  The table refines it (`Refines`, `step_refines`).
-/

namespace Nachos.Sync
variable {ρ π : Type} [DecidableEq ρ] [DecidableEq π] {y : Sync ρ} {z : Sync π} {r : ρ} {p : π}

/-- The `value` of one semaphore, in the 32 bits of its `int`. -/
def narrow (y : Sync ρ) (r : ρ) : Sync ρ :=
  { y with sems := Function.update y.sems r { y.sems r with value := asInt (y.sems r).value } }

@[simp] theorem narrow_value (y : Sync ρ) (r : ρ) :
    ((y.narrow r).sems r).value = asInt (y.sems r).value := by
  simp [narrow]

theorem narrow_sems_ne (y : Sync ρ) {r r' : ρ} (h : r' ≠ r) :
    (y.narrow r).sems r' = y.sems r' := Function.update_of_ne h _ _

theorem narrow_congr (h : y.sems r = z.sems p) : (y.narrow r).sems r = (z.narrow p).sems p := by
  unfold narrow
  simp only [Function.update_self]
  rw [h]

end Nachos.Sync

namespace Nachos.STable
open Lib CString

abbrev MAX_LOCK : Nat := 10
def MAX_SEMNAME_LEN : Nat := 255

/-- A `char *`. -/
abbrev Name := List (BitVec 8)

/-- `class Sem`, but for its `Semaphore`. -/
structure Sem where
  name : Name
  isExist : Bool

/-- `Sem::Sem`.  Its check of `name` is one of an array, which is not `NULL`; without a copy the
array holds what was in memory. -/
def Sem.new (semname : Name) (i : Int) : Sem where
  name := if i < 0 then [] else strncpy MAX_SEMNAME_LEN semname
  isExist := !decide (i < 0)

/-- `STable`; the semaphore of the slot `i` is `sync.sems i`, and `inWait` says in whose `wait` a
thread is. -/
structure State where
  bm : BitMap MAX_LOCK
  lockTab : Fin MAX_LOCK → Option Sem
  sync : Sync (Fin MAX_LOCK)
  inWait : Tid → Option (Fin MAX_LOCK)

namespace State

/-- `STable::STable`.  `heap` is what the host's memory holds where the words of a new bitmap
are. -/
def new (heap : Nat → BitVec 32) : State where
  bm := BitMap.new fun i => heap i
  lockTab _ := none
  sync := ⟨fun _ => Semaphore.new 0, fun _ => .ready⟩
  inWait _ := none

/-- The loop of `create`, `wait` and `signal` over `lockTab`. -/
def scan (s : State) (name : Name) : Option (Fin MAX_LOCK) :=
  (List.finRange MAX_LOCK).find? fun i =>
    (s.lockTab i).any fun sem => strncmp MAX_SEMNAME_LEN sem.name name = 0

/-- `STable::create`. -/
def create (s : State) (name : Option Name) (init : BitVec 32) : Int × State :=
  match name with
  | none => (-1, s)
  | some name =>
      if init.toInt < 0 then (-1, s)
      else
        match s.scan name with
        | some _ => (-1, s)
        | none =>
            match s.bm.find with
            | (none, _) => (-1, s)
            | (some id, bm) =>
                let s := { s with
                  bm := bm
                  lockTab := Function.update s.lockTab id (some (Sem.new name init.toInt))
                  sync := s.sync.renew id init.toInt }
                if (Sem.new name init.toInt).isExist then (0, s)
                else (-1, { s with bm := s.bm.clear id })

/-- One test of the `P` in `wait`: the thread returns 0, or sleeps. -/
def test (s : State) (t : Tid) (i : Fin MAX_LOCK) : Option Int × State :=
  match s.sync.P t i with
  | (sync, true) =>
      (some 0, { s with sync := sync.narrow i, inWait := Function.update s.inWait t none })
  | (sync, false) =>
      (none, { s with sync := sync, inWait := Function.update s.inWait t (some i) })

/-- `STable::wait`. -/
def wait (s : State) (t : Tid) (name : Option Name) : Option Int × State :=
  match name with
  | none => (some (-1), s)
  | some name =>
      match s.scan name with
      | none => (some (-1), s)
      | some i => s.test t i

/-- `STable::signal`. -/
def signal (s : State) (name : Option Name) : Int × State :=
  match name with
  | none => (-1, s)
  | some name =>
      match s.scan name with
      | none => (-1, s)
      -- `V` adds 1 without a check
      | some i => (0, { s with sync := (s.sync.V i).narrow i })

end State

inductive Call where
  | create (t : Tid) (name : Option Name) (init : BitVec 32)
  | wait (t : Tid) (name : Option Name)
  | signal (t : Tid) (name : Option Name)
  /-- A thread that has been woken in `wait` tests `value` again. -/
  | retest (t : Tid)

/-- The answer of a call is what it returns, `none` when its thread sleeps. -/
def step (s : State) : Call → Except Stop (Option Int × State)
  | .create t name init =>
      if s.sync.status t = .ready ∧ s.inWait t = none then
        .ok ((s.create name init).map some id)
      else .error .disabled
  | .wait t name =>
      if s.sync.status t = .ready ∧ s.inWait t = none then .ok (s.wait t name)
      else .error .disabled
  | .signal t name =>
      if s.sync.status t = .ready ∧ s.inWait t = none then .ok ((s.signal name).map some id)
      else .error .disabled
  | .retest t =>
      if s.sync.status t = .ready then
        match s.inWait t with
        | none => .error .disabled
        | some i => .ok (s.test t i)
      else .error .disabled

/-! ### What a call can do -/

section
variable {s s' : State} {c : Call} {r : Option Int}

/-- `Wait`, at its first test or a later one. -/
def Tests (s : State) (c : Call) (t : Tid) (i : Fin MAX_LOCK) : Prop :=
  (∃ name, c = .wait t (some name) ∧ s.scan name = some i) ∨
    (c = .retest t ∧ s.inWait t = some i)

/-- `create` fails and changes nothing, or makes the semaphore in a free slot. -/
theorem create_cases (s : State) (name : Option Name) (init : BitVec 32) :
    s.create name init = (-1, s) ∨
    ∃ n i, name = some n ∧ 0 ≤ init.toInt ∧ s.bm.find = (some i, s.bm.mark i) ∧
      (s.create name init).1 = 0 ∧ (s.create name init).2.sync = s.sync.renew i init.toInt := by
  unfold State.create
  split
  · exact .inl rfl
  · rename_i n
    split
    · exact .inl rfl
    · rename_i hinit
      split
      · exact .inl rfl
      · split
        · exact .inl rfl
        · rename_i i bm hf
          obtain ⟨rfl, -⟩ := BitMap.find_some hf
          rw [if_pos (by simpa [Sem.new] using hinit)]
          exact .inr ⟨n, i, rfl, by omega, hf, rfl, rfl⟩

/-- `wait` fails and changes nothing, or tests the value in the slot of the name. -/
theorem wait_cases (s : State) (t : Tid) (name : Option Name) :
    s.wait t name = (some (-1), s) ∨
    ∃ n i, name = some n ∧ s.scan n = some i ∧ s.wait t name = s.test t i := by
  unfold State.wait
  split
  · exact .inl rfl
  · rename_i n
    split
    · exact .inl rfl
    · rename_i i hi
      exact .inr ⟨n, i, rfl, hi, rfl⟩

/-- `signal` fails and changes nothing, or increments the value in the slot of the name. -/
theorem signal_cases (s : State) (name : Option Name) :
    s.signal name = (-1, s) ∨
    ∃ n i, name = some n ∧ s.scan n = some i ∧ (s.signal name).1 = 0 ∧
      (s.signal name).2.sync = (s.sync.V i).narrow i := by
  unfold State.signal
  split
  · exact .inl rfl
  · rename_i n
    split
    · exact .inl rfl
    · rename_i i hi
      exact .inr ⟨n, i, rfl, hi, rfl, rfl⟩

/-- A call fails and changes nothing, makes a semaphore in a free slot, tests the value in a slot,
or increments it. -/
theorem step_cases (hs : step s c = .ok (r, s')) :
    (r = some (-1) ∧ s' = s) ∨
    (∃ t name init i, c = .create t (some name) init ∧ 0 ≤ init.toInt ∧
      s.bm.find = (some i, s.bm.mark i) ∧ r = some 0 ∧ s'.sync = s.sync.renew i init.toInt) ∨
    (∃ t i, Tests s c t i ∧ s.test t i = (r, s')) ∨
    (∃ t name i, c = .signal t (some name) ∧ s.scan name = some i ∧ r = some 0 ∧
      s'.sync = (s.sync.V i).narrow i) := by
  cases c with
  | create t name init =>
      simp only [step] at hs
      split at hs
      · obtain ⟨rfl, rfl⟩ := ok_pair hs
        rcases create_cases s name init with h | ⟨n, i, rfl, h₀, hf, h₁, h₂⟩
        · exact .inl ⟨by rw [h]; rfl, by rw [h]; rfl⟩
        · exact .inr (.inl ⟨t, n, init, i, rfl, h₀, hf, congrArg some h₁, h₂⟩)
      · cases hs
  | wait t name =>
      simp only [step] at hs
      split at hs
      · obtain ⟨rfl, rfl⟩ := ok_pair hs
        rcases wait_cases s t name with h | ⟨n, i, rfl, hi, h⟩
        · exact .inl ⟨by rw [h], by rw [h]⟩
        · exact .inr (.inr (.inl ⟨t, i, .inl ⟨n, rfl, hi⟩, h.symm⟩))
      · cases hs
  | signal t name =>
      simp only [step] at hs
      split at hs
      · obtain ⟨rfl, rfl⟩ := ok_pair hs
        rcases signal_cases s name with h | ⟨n, i, rfl, hi, h₁, h₂⟩
        · exact .inl ⟨by rw [h]; rfl, by rw [h]; rfl⟩
        · exact .inr (.inr (.inr ⟨t, n, i, rfl, hi, congrArg some h₁, h₂⟩))
      · cases hs
  | retest t =>
      simp only [step] at hs
      split at hs
      · split at hs
        · cases hs
        · rename_i i hi
          exact .inr (.inr (.inl ⟨t, i, .inr ⟨rfl, hi⟩, Except.ok.inj hs⟩))
      · cases hs

end

/-! ### What the table is for -/

/-- A name as far as the comparison sees it. -/
def key (name : Name) : Name := strn MAX_SEMNAME_LEN name

/-- Semaphores by name.  `names` are those that have been created. -/
structure Spec where
  names : Finset Name
  sync : Sync Name
  inWait : Tid → Option Name

namespace Spec

def new : Spec where
  names := ∅
  sync := ⟨fun _ => Semaphore.new 0, fun _ => .ready⟩
  inWait _ := none

/-- A name that is new gets a semaphore with the value `init`, as long as there are fewer than
`MAX_LOCK`. -/
def create (s : Spec) (name : Option Name) (init : BitVec 32) : Int × Spec :=
  match name with
  | none => (-1, s)
  | some name =>
      if 0 ≤ init.toInt ∧ key name ∉ s.names ∧ s.names.card < MAX_LOCK then
        (0, { s with
          names := insert (key name) s.names, sync := s.sync.renew (key name) init.toInt })
      else (-1, s)

def test (s : Spec) (t : Tid) (k : Name) : Option Int × Spec :=
  match s.sync.P t k with
  | (sync, true) =>
      (some 0, { s with sync := sync.narrow k, inWait := Function.update s.inWait t none })
  | (sync, false) =>
      (none, { s with sync := sync, inWait := Function.update s.inWait t (some k) })

/-- `P` on the semaphore of the name. -/
def wait (s : Spec) (t : Tid) (name : Option Name) : Option Int × Spec :=
  match name with
  | none => (some (-1), s)
  | some name => if key name ∈ s.names then s.test t (key name) else (some (-1), s)

/-- `V` on the semaphore of the name, whose counter has 32 bits. -/
def signal (s : Spec) (name : Option Name) : Int × Spec :=
  match name with
  | none => (-1, s)
  | some name =>
      if key name ∈ s.names then (0, { s with sync := (s.sync.V (key name)).narrow (key name) })
      else (-1, s)

def step (s : Spec) : Call → Except Stop (Option Int × Spec)
  | .create t name init =>
      if s.sync.status t = .ready ∧ s.inWait t = none then
        .ok ((s.create name init).map some id)
      else .error .disabled
  | .wait t name =>
      if s.sync.status t = .ready ∧ s.inWait t = none then .ok (s.wait t name)
      else .error .disabled
  | .signal t name =>
      if s.sync.status t = .ready ∧ s.inWait t = none then .ok ((s.signal name).map some id)
      else .error .disabled
  | .retest t =>
      if s.sync.status t = .ready then
        match s.inWait t with
        | none => .error .disabled
        | some k => .ok (s.test t k)
      else .error .disabled

end Spec

/-! ### Refinement -/

/-- The name of the semaphore in a slot, as far as the comparison sees it. -/
def State.keyAt (s : State) (i : Fin MAX_LOCK) : Option Name :=
  (s.lockTab i).map fun sem => key sem.name

/-- The slots hold the semaphores of the names that have been created, each in one slot. -/
structure Refines (s : State) (a : Spec) : Prop where
  bit : ∀ i, s.bm.test i = true ↔ s.lockTab i ≠ none
  names : ∀ k, k ∈ a.names ↔ ∃ i, s.keyAt i = some k
  one : ∀ i j k, s.keyAt i = some k → s.keyAt j = some k → i = j
  sems : ∀ i k, s.keyAt i = some k → s.sync.sems i = a.sync.sems k
  status : s.sync.status = a.sync.status
  waits : ∀ t, a.inWait t = (s.inWait t).bind s.keyAt
  inSlot : ∀ t i, s.inWait t = some i → s.keyAt i ≠ none

theorem new_refines (heap : Nat → BitVec 32) : Refines (.new heap) .new :=
  ⟨fun i => by simp [State.new], fun k => by simp [State.new, Spec.new, State.keyAt],
    fun i j k h => (by cases h), fun i k h => (by cases h), rfl, fun t => rfl,
    fun t i h => (by cases h)⟩

section
variable {s s' : State} {a : Spec} {t : Tid} {i : Fin MAX_LOCK} {k name : Name}

theorem keyAt_eq_none : s.keyAt i = none ↔ s.lockTab i = none := Option.map_eq_none_iff

/-- The scan finds the slot of a name, when there is one. -/
theorem Refines.scan_cases (h : Refines s a) (name : Name) :
    (∃ i, s.scan name = some i ∧ s.keyAt i = some (key name) ∧ key name ∈ a.names) ∨
    (s.scan name = none ∧ key name ∉ a.names) := by
  have hany : ∀ i, (s.lockTab i).any (fun sem => strncmp MAX_SEMNAME_LEN sem.name name = 0) =
      true ↔ s.keyAt i = some (key name) := fun i => by
    simp [State.keyAt, strncmp_eq_zero_iff, Option.any_eq_true, key]
  unfold State.scan
  cases hf : (List.finRange MAX_LOCK).find? fun i =>
      (s.lockTab i).any fun sem => strncmp MAX_SEMNAME_LEN sem.name name = 0 with
  | some i =>
      have hi := (hany i).mp (by simpa using List.find?_some hf)
      exact .inl ⟨i, rfl, hi, (h.names _).mpr ⟨i, hi⟩⟩
  | none =>
      refine .inr ⟨rfl, fun hm => ?_⟩
      obtain ⟨i, hi⟩ := (h.names _).mp hm
      exact List.find?_eq_none.mp hf i (List.mem_finRange i) ((hany i).mpr hi)

/-- There is room for another name as long as a slot is free. -/
theorem Refines.card_lt_iff (h : Refines s a) :
    a.names.card < MAX_LOCK ↔ ∃ i, s.lockTab i = none := by
  let used : Finset (Fin MAX_LOCK) := Finset.univ.filter fun i => s.keyAt i ≠ none
  have hnames : a.names = used.image fun i => (s.keyAt i).getD [] := by
    ext k
    rw [h.names, Finset.mem_image]
    constructor
    · rintro ⟨i, hi⟩
      exact ⟨i, by simp [used, hi], by rw [hi]; rfl⟩
    · rintro ⟨i, hi, rfl⟩
      obtain ⟨x, hx⟩ := Option.ne_none_iff_exists'.mp (Finset.mem_filter.mp hi).2
      exact ⟨i, by rw [hx]; rfl⟩
  have hinj : Set.InjOn (fun i => (s.keyAt i).getD []) used := by
    intro i hi j hj he
    obtain ⟨x, hx⟩ := Option.ne_none_iff_exists'.mp (Finset.mem_filter.mp hi).2
    obtain ⟨y, hy⟩ := Option.ne_none_iff_exists'.mp (Finset.mem_filter.mp hj).2
    simp only [hx, hy, Option.getD_some] at he
    exact h.one i j x hx (he ▸ hy)
  rw [hnames, Finset.card_image_of_injOn hinj]
  constructor
  · intro hlt
    by_contra hall
    push Not at hall
    have : used = Finset.univ := Finset.filter_true_of_mem fun i _ => by
      rw [ne_eq, keyAt_eq_none]; exact hall i
    rw [this, Finset.card_univ, Fintype.card_fin] at hlt
    exact lt_irrefl _ hlt
  · rintro ⟨i, hi⟩
    have hlt : used.card < (Finset.univ : Finset (Fin MAX_LOCK)).card := by
      refine Finset.card_lt_card (Finset.filter_ssubset.mpr ⟨i, Finset.mem_univ i, ?_⟩)
      rw [not_not, keyAt_eq_none]
      exact hi
    rwa [Finset.card_univ, Fintype.card_fin] at hlt

/-- A change of the semaphore in one slot, and of the one of its name. -/
theorem Refines.sync {y : Sync (Fin MAX_LOCK)} {z : Sync Name} {w : Tid → Option (Fin MAX_LOCK)}
    {v : Tid → Option Name} (h : Refines s a) (hi : s.keyAt i = some k)
    (hsem : y.sems i = z.sems k) (hy : ∀ j, j ≠ i → y.sems j = s.sync.sems j)
    (hz : ∀ l, l ≠ k → z.sems l = a.sync.sems l) (hst : y.status = z.status)
    (hw : ∀ t, v t = (w t).bind s.keyAt) (hin : ∀ t i, w t = some i → s.keyAt i ≠ none) :
    Refines { s with sync := y, inWait := w } { a with sync := z, inWait := v } := by
  refine ⟨h.bit, h.names, h.one, fun j l hj => ?_, hst, hw, hin⟩
  show y.sems j = z.sems l
  replace hj : s.keyAt j = some l := hj
  by_cases e : j = i
  · subst e
    rw [hi] at hj
    cases hj
    exact hsem
  · have hne : l ≠ k := by
      rintro rfl
      exact e (h.one j i l hj hi)
    rw [hy j e, hz l hne, h.sems j l hj]

/-- A test of `P` in a slot is one on the semaphore of its name. -/
theorem Refines.test (h : Refines s a) (hi : s.keyAt i = some k) :
    (s.test t i).1 = (a.test t k).1 ∧ Refines (s.test t i).2 (a.test t k).2 := by
  have hsem := h.sems i k hi
  have hupd : ∀ (o : Option (Fin MAX_LOCK)) (o' : Option Name), o' = o.bind s.keyAt →
      ∀ u, Function.update a.inWait t o' u = (Function.update s.inWait t o u).bind s.keyAt := by
    intro o o' ho u
    by_cases e : u = t
    · rw [e, Function.update_self, Function.update_self, ho]
    · rw [Function.update_of_ne e, Function.update_of_ne e, h.waits]
  unfold State.test Spec.test
  by_cases hv : (s.sync.sems i).value = 0
  · rw [Sync.P_zero hv, Sync.P_zero (hsem ▸ hv)]
    refine ⟨rfl, h.sync hi ?_ (fun j hj => Function.update_of_ne hj _ _)
      (fun l hl => Function.update_of_ne hl _ _) ?_ (hupd _ _ hi.symm) fun u j hj => ?_⟩
    · simp only [Function.update_self]; rw [hsem]
    · rw [h.status]
    · by_cases e : u = t
      · rw [e, Function.update_self] at hj
        cases hj
        rw [hi]; simp
      · rw [Function.update_of_ne e] at hj; exact h.inSlot u j hj
  · rw [Sync.P_pos hv, Sync.P_pos (hsem ▸ hv)]
    refine ⟨rfl, h.sync hi (Sync.narrow_congr ?_)
      (fun j hj => (Sync.narrow_sems_ne _ hj).trans (Function.update_of_ne hj _ _))
      (fun l hl => (Sync.narrow_sems_ne _ hl).trans (Function.update_of_ne hl _ _))
      h.status (hupd _ _ rfl) fun u j hj => ?_⟩
    · simp only [Function.update_self]; rw [hsem]
    · by_cases e : u = t
      · rw [e, Function.update_self] at hj; cases hj
      · rw [Function.update_of_ne e] at hj; exact h.inSlot u j hj

theorem Refines.wait (h : Refines s a) (t : Tid) (name : Option Name) :
    (s.wait t name).1 = (a.wait t name).1 ∧ Refines (s.wait t name).2 (a.wait t name).2 := by
  cases name with
  | none => exact ⟨rfl, h⟩
  | some name =>
      unfold State.wait Spec.wait
      rcases h.scan_cases name with ⟨i, hs, hi, hm⟩ | ⟨hs, hm⟩
      · simp only [hs, hm, if_true]
        exact h.test hi
      · simp only [hs, hm, if_false]
        exact ⟨trivial, h⟩

/-- The same `V`, in two families that have the semaphore in common. -/
theorem V_congr {ρ π : Type} [DecidableEq ρ] [DecidableEq π] {y : Sync ρ} {z : Sync π} {r : ρ} {p : π}
    (hsem : y.sems r = z.sems p) (hst : y.status = z.status) :
    (y.V r).sems r = (z.V p).sems p ∧ (y.V r).status = (z.V p).status := by
  cases hq : (y.sems r).queue with
  | nil =>
      rw [Sync.V_nil hq, Sync.V_nil (hsem ▸ hq)]
      simp only [Function.update_self]
      exact ⟨by rw [hsem], hst⟩
  | cons u q =>
      rw [Sync.V_cons hq, Sync.V_cons (hsem ▸ hq)]
      simp only [Function.update_self]
      exact ⟨by rw [hsem], by rw [hst]⟩

theorem Refines.signal (h : Refines s a) (name : Option Name) :
    (s.signal name).1 = (a.signal name).1 ∧ Refines (s.signal name).2 (a.signal name).2 := by
  cases name with
  | none => exact ⟨rfl, h⟩
  | some name =>
      unfold State.signal Spec.signal
      rcases h.scan_cases name with ⟨i, hs, hi, hm⟩ | ⟨hs, hm⟩
      · simp only [hs, hm, if_true]
        obtain ⟨h₁, h₂⟩ := V_congr (h.sems i _ hi) h.status
        exact ⟨trivial, h.sync hi (Sync.narrow_congr h₁)
          (fun j hj => (Sync.narrow_sems_ne _ hj).trans (Sync.V_sems_ne _ hj))
          (fun l hl => (Sync.narrow_sems_ne _ hl).trans (Sync.V_sems_ne _ hl)) h₂ h.waits h.inSlot⟩
      · simp only [hs, hm, if_false]
        exact ⟨trivial, h⟩

/-- A free slot takes a new name. -/
theorem Refines.insert {init : Int} (h : Refines s a) (hi : s.lockTab i = none)
    (hk : key name ∉ a.names) (hinit : ¬ init < 0) :
    Refines
      { s with
        bm := s.bm.mark i
        lockTab := Function.update s.lockTab i (some (Sem.new name init))
        sync := s.sync.renew i init }
      { a with
        names := Insert.insert (key name) a.names
        sync := a.sync.renew (key name) init } := by
  generalize hs' : ({ s with
    bm := s.bm.mark i
    lockTab := Function.update s.lockTab i (some (Sem.new name init))
    sync := s.sync.renew i init } : State) = s'
  have hkey : ∀ j, s'.keyAt j = if j = i then some (key name) else s.keyAt j := by
    intro j
    rw [← hs']
    unfold State.keyAt
    dsimp only
    by_cases e : j = i
    · -- the name that is stored is the one that was given, as far as it is compared
      rw [if_pos e, e, Function.update_self, Option.map_some, Sem.new, if_neg hinit, key,
        strn_strncpy, key]
    · rw [if_neg e, Function.update_of_ne e]
  have hfree : ∀ j l, s.keyAt j = some l → j ≠ i ∧ l ≠ key name := by
    intro j l hj
    refine ⟨?_, fun e => hk ((h.names _).mpr ⟨j, e ▸ hj⟩)⟩
    rintro rfl
    rw [keyAt_eq_none.mpr hi] at hj
    cases hj
  have hold : ∀ j l, s'.keyAt j = some l →
      (j = i ∧ l = key name) ∨ (j ≠ i ∧ l ≠ key name ∧ s.keyAt j = some l) := by
    intro j l hj
    rw [hkey] at hj
    split at hj
    · rename_i e; cases hj; exact .inl ⟨e, rfl⟩
    · rename_i e; exact .inr ⟨e, (hfree j l hj).2, hj⟩
  have hkeep : ∀ j l, s.keyAt j = some l → s'.keyAt j = some l := fun j l hj => by
    rw [hkey, if_neg (hfree j l hj).1, hj]
  refine ⟨fun j => ?_, fun l => ?_, fun j j' l hj hj' => ?_, fun j l hj => ?_, ?_, fun u => ?_,
    fun u j hj => ?_⟩
  · rw [← hs']
    simp only [BitMap.test_mark, Bool.or_eq_true, decide_eq_true_eq]
    by_cases e : j = i
    · rw [e, Function.update_self]; simp
    · rw [Function.update_of_ne e, h.bit]; simp [e]
  · rw [Finset.mem_insert, h.names]
    constructor
    · rintro (rfl | ⟨j, hj⟩)
      · exact ⟨i, by rw [hkey, if_pos rfl]⟩
      · exact ⟨j, hkeep j l hj⟩
    · rintro ⟨j, hj⟩
      rcases hold j l hj with ⟨-, e⟩ | ⟨-, -, hj⟩
      · exact .inl e
      · exact .inr ⟨j, hj⟩
  · rcases hold j l hj with ⟨e, el⟩ | ⟨-, hl, hj⟩ <;>
      rcases hold j' l hj' with ⟨e', el'⟩ | ⟨-, hl', hj'⟩
    · rw [e, e']
    · exact absurd el hl'
    · exact absurd el' hl
    · exact h.one j j' l hj hj'
  · rw [← hs']
    rcases hold j l hj with ⟨rfl, rfl⟩ | ⟨e, hl, hj⟩
    · exact (Sync.renew_self ..).trans (Sync.renew_self ..).symm
    · exact ((Sync.renew_ne _ _ e).trans (h.sems j l hj)).trans (Sync.renew_ne _ _ hl).symm
  · rw [← hs']; exact h.status
  · have hw : s'.inWait u = s.inWait u := by rw [← hs']
    rw [hw]
    refine (h.waits u).trans ?_
    cases hu : s.inWait u with
    | none => rfl
    | some j =>
        obtain ⟨l, hl⟩ := Option.ne_none_iff_exists'.mp (h.inSlot u j hu)
        exact hl.trans (hkeep j l hl).symm
  · rw [← hs'] at hj
    obtain ⟨l, hl⟩ := Option.ne_none_iff_exists'.mp (h.inSlot u j hj)
    rw [hkeep j l hl]
    simp

theorem Refines.create (h : Refines s a) (name : Option Name) (init : BitVec 32) :
    (s.create name init).1 = (a.create name init).1 ∧
      Refines (s.create name init).2 (a.create name init).2 := by
  cases name with
  | none => exact ⟨rfl, h⟩
  | some name =>
      unfold State.create Spec.create
      dsimp only
      by_cases hinit : init.toInt < 0
      · rw [if_pos hinit, if_neg (by omega)]
        exact ⟨rfl, h⟩
      rw [if_neg hinit]
      rcases h.scan_cases name with ⟨i, hs, -, hm⟩ | ⟨hs, hm⟩
      · rw [hs, if_neg (by tauto)]
        exact ⟨rfl, h⟩
      rw [hs]
      dsimp only
      rcases s.bm.find_spec with ⟨i, hf, hi, -⟩ | ⟨hf, hfull⟩ <;> rw [hf] <;> dsimp only
      · have hnone : s.lockTab i = none := by
          by_contra hne
          rw [(h.bit i).mpr hne] at hi
          cases hi
        have hexist : (Sem.new name init.toInt).isExist = true := by simpa [Sem.new] using hinit
        rw [if_pos hexist, if_pos ⟨by omega, hm, h.card_lt_iff.mpr ⟨i, hnone⟩⟩]
        exact ⟨rfl, h.insert hnone hm hinit⟩
      · rw [if_neg]
        · exact ⟨rfl, h⟩
        · rintro ⟨-, -, hlt⟩
          obtain ⟨i, hi⟩ := h.card_lt_iff.mp hlt
          exact (h.bit i).mp (hfull i) hi

theorem ok_refines {r : Option Int} {x : Option Int × State} {y : Option Int × Spec}
    (h₁ : x.1 = y.1) (h₂ : Refines x.2 y.2) (hs : (.ok x : Except Stop _) = .ok (r, s')) :
    ∃ a', (.ok y : Except Stop _) = .ok (r, a') ∧ Refines s' a' := by
  obtain ⟨rfl, rfl⟩ := ok_pair hs
  exact ⟨y.2, by rw [h₁], h₂⟩

/-- The table and the map it is for answer each call alike. -/
theorem step_refines {c : Call} {r : Option Int} (h : Refines s a) (hs : step s c = .ok (r, s')) :
    ∃ a', a.step c = .ok (r, a') ∧ Refines s' a' := by
  have hready : ∀ {t}, s.sync.status t = .ready ∧ s.inWait t = none →
      a.sync.status t = .ready ∧ a.inWait t = none := by
    rintro t ⟨h₁, h₂⟩
    rw [← h.status, h.waits, h₂]
    exact ⟨h₁, rfl⟩
  cases c with
  | create t name init =>
      simp only [step] at hs
      simp only [Spec.step]
      split at hs
      · rename_i ht
        obtain ⟨h₁, h₂⟩ := h.create name init
        rw [if_pos (hready ht)]
        exact ok_refines (congrArg some h₁) h₂ hs
      · cases hs
  | wait t name =>
      simp only [step] at hs
      simp only [Spec.step]
      split at hs
      · rename_i ht
        obtain ⟨h₁, h₂⟩ := h.wait t name
        rw [if_pos (hready ht)]
        exact ok_refines h₁ h₂ hs
      · cases hs
  | signal t name =>
      simp only [step] at hs
      simp only [Spec.step]
      split at hs
      · rename_i ht
        obtain ⟨h₁, h₂⟩ := h.signal name
        rw [if_pos (hready ht)]
        exact ok_refines (congrArg some h₁) h₂ hs
      · cases hs
  | retest t =>
      simp only [step] at hs
      split at hs
      · rename_i ht
        split at hs
        · cases hs
        · rename_i i hi
          obtain ⟨k, hk⟩ := Option.ne_none_iff_exists'.mp (h.inSlot t i hi)
          obtain ⟨h₁, h₂⟩ := h.test (t := t) hk
          have hw : a.inWait t = some k := by rw [h.waits, hi]; exact hk
          simp only [Spec.step, ← h.status, ht, if_true, hw]
          exact ok_refines h₁ h₂ hs
      · cases hs

/-- A call the map takes, the table takes. -/
theorem Refines.step_ok {c : Call} {x : Option Int × Spec} (h : Refines s a) (hs : a.step c = .ok x) :
    ∃ y, step s c = .ok y := by
  have hready : ∀ {t}, a.sync.status t = .ready ∧ a.inWait t = none →
      s.sync.status t = .ready ∧ s.inWait t = none := by
    rintro t ⟨h₁, h₂⟩
    refine ⟨by rw [h.status]; exact h₁, ?_⟩
    rw [h.waits] at h₂
    cases hi : s.inWait t with
    | none => rfl
    | some i =>
        rw [hi] at h₂
        exact absurd h₂ (h.inSlot t i hi)
  cases c with
  | create t _ _ | wait t _ | signal t _ =>
      simp only [Spec.step] at hs
      split at hs
      · rename_i ht
        simp only [step, hready ht, and_self, if_true]
        exact ⟨_, rfl⟩
      · cases hs
  | retest t =>
      simp only [Spec.step] at hs
      split at hs
      · rename_i ht
        rw [h.waits] at hs
        cases hi : s.inWait t with
        | none => rw [hi] at hs; cases hs
        | some i =>
            simp only [step, h.status, ht, if_true, hi]
            exact ⟨_, rfl⟩
      · cases hs

theorem Spec.test_names (a : Spec) (t : Tid) (k : Name) : (a.test t k).2.names = a.names := by
  unfold Spec.test
  split <;> rfl

theorem Spec.wait_names (a : Spec) (t : Tid) (name : Option Name) :
    (a.wait t name).2.names = a.names := by
  unfold Spec.wait
  split
  · rfl
  · split
    · exact a.test_names _ _
    · rfl

theorem Spec.signal_names (a : Spec) (name : Option Name) :
    (a.signal name).2.names = a.names := by
  unfold Spec.signal
  split
  · rfl
  · split <;> rfl

/-- A `create` that succeeds adds its name; no other call adds one. -/
theorem Spec.step_names {a' : Spec} {c : Call} {r : Option Int} (hs : a.step c = .ok (r, a')) :
    (∃ t name init, (c, r) = (.create t (some name) init, some 0) ∧
      a'.names = insert (key name) a.names) ∨
    (a'.names = a.names ∧ ∀ t name init, (c, r) ≠ (.create t (some name) init, some 0)) := by
  cases c with
  | create t name init =>
      simp only [Spec.step] at hs
      split at hs
      · cases name with
        | none =>
            cases hs
            exact .inr ⟨rfl, by simp⟩
        | some name =>
            simp only [Spec.create] at hs
            split at hs <;> cases hs
            · exact .inl ⟨t, name, init, rfl, rfl⟩
            · exact .inr ⟨rfl, by simp⟩
      · cases hs
  | wait t name =>
      simp only [Spec.step] at hs
      split at hs
      · obtain ⟨-, rfl⟩ := ok_pair hs
        exact .inr ⟨a.wait_names t name, by simp⟩
      · cases hs
  | signal t name =>
      simp only [Spec.step] at hs
      split at hs
      · obtain ⟨-, rfl⟩ := ok_pair hs
        exact .inr ⟨a.signal_names name, by simp⟩
      · cases hs
  | retest t =>
      simp only [Spec.step] at hs
      split at hs
      · split at hs
        · cases hs
        · obtain ⟨-, rfl⟩ := ok_pair hs
          exact .inr ⟨a.test_names _ _, by simp⟩
      · cases hs

/-- The names are those of the calls of `create` that have succeeded. -/
theorem names_of_trace {l : List (Call × Option Int)} (h : Trace Spec.step .new l a) (k : Name) :
    k ∈ a.names ↔ ∃ t name init, (Call.create t (some name) init, some 0) ∈ l ∧ key name = k := by
  refine h.inv (I := fun l a => k ∈ a.names ↔ ∃ t name init,
    (Call.create t (some name) init, some 0) ∈ l ∧ key name = k) (by simp [Spec.new]) ?_
  intro l a c r a' ih hs
  simp only [List.mem_append, List.mem_singleton]
  rcases Spec.step_names hs with ⟨t, name, init, hc, hnames⟩ | ⟨hnames, hne⟩
  · rw [hnames, Finset.mem_insert, ih, hc]
    constructor
    · rintro (rfl | ⟨u, n, m, hm, rfl⟩)
      · exact ⟨t, name, init, .inr rfl, rfl⟩
      · exact ⟨u, n, m, .inl hm, rfl⟩
    · rintro ⟨u, n, m, hm | hm, rfl⟩
      · exact .inr ⟨u, n, m, hm, rfl⟩
      · cases hm
        exact .inl rfl
  · rw [hnames, ih]
    refine exists_congr fun t => exists_congr fun name => exists_congr fun init => ?_
    rw [or_iff_left (hne t name init).symm]

/-- A call that fails changes nothing. -/
theorem step_fail {c : Call} (hs : step s c = .ok (some (-1), s')) : s' = s := by
  rcases step_cases hs with ⟨-, rfl⟩ | ⟨t, name, init, i, -, -, -, hr, -⟩ | ⟨t, i, -, htest⟩ |
    ⟨t, name, i, -, -, hr, -⟩
  · rfl
  · cases hr
  · unfold State.test at htest
    split at htest <;> cases htest
  · cases hr

/-- **The table of semaphores refines a map from names to counters**, each of 32 bits.  Whatever
calls are made, by whatever threads, their answers are those of `Spec` to the same calls, whose
names are those of the calls of `create` that have succeeded, and the semaphore of a name is in the
one slot that has it; the table takes the calls `Spec` takes, with the same answers; a call that
fails changes nothing; a bit of `bm` is set iff its slot is in use; and no two slots have names that
agree on their first 255 bytes. -/
theorem stable_refines {heap : Nat → BitVec 32} {l : List (Call × Option Int)}
    (h : Trace step (.new heap) l s) :
    (∃ a, Trace Spec.step .new l a ∧
      (∀ k, k ∈ a.names ↔
        ∃ t name init, (Call.create t (some name) init, some 0) ∈ l ∧ key name = k) ∧
      (∀ k, k ∈ a.names ↔ ∃ i sem, s.lockTab i = some sem ∧ key sem.name = k) ∧
      (∀ i sem, s.lockTab i = some sem → s.sync.sems i = a.sync.sems (key sem.name)) ∧
      ∀ c r, (∃ s', step s c = .ok (r, s')) ↔ ∃ a', a.step c = .ok (r, a')) ∧
    (∀ c s', step s c = .ok (some (-1), s') → s' = s) ∧
    (∀ i, s.bm.test i = true ↔ s.lockTab i ≠ none) ∧
    (∀ i j sem sem', s.lockTab i = some sem → s.lockTab j = some sem' →
      key sem.name = key sem'.name → i = j) := by
  obtain ⟨a, htr, hR⟩ := h.refines (new_refines heap) fun _ _ _ _ _ => step_refines
  refine ⟨⟨a, htr, names_of_trace htr, fun k => ?_, fun i sem hi => ?_, fun c r => ⟨?_, ?_⟩⟩,
    fun c s' => step_fail, hR.bit, fun i j sem sem' hi hj he => ?_⟩
  · rw [hR.names]
    simp [State.keyAt, Option.map_eq_some_iff]
  · exact hR.sems i _ (by rw [State.keyAt, hi]; rfl)
  · rintro ⟨s', hs⟩
    obtain ⟨a', ha, -⟩ := step_refines hR hs
    exact ⟨a', ha⟩
  · rintro ⟨a', ha⟩
    obtain ⟨⟨r', s'⟩, hs⟩ := hR.step_ok ha
    obtain ⟨a₁, ha₁, -⟩ := step_refines hR hs
    rw [ha] at ha₁
    cases ha₁
    exact ⟨s', hs⟩
  · refine hR.one i j (key sem.name) (by rw [State.keyAt, hi]; rfl) ?_
    rw [State.keyAt, hj, he]
    rfl

end

/-- Thread 1 creates a semaphore and waits twice, so that it sleeps; thread 2, which cannot create
another one by that name, signals it. -/
theorem stable_refines_lock : ∃ l s, Trace step (.new fun _ => 0) l s ∧
    l.map Prod.snd = [some 0, some 0, none, some (-1), some 0, some (-1), some 0] ∧
    (∃ a, Trace Spec.step .new l a ∧ key [108] ∈ a.names) ∧
    s.bm.test 0 = true ∧ s.bm.test 1 = false := by
  obtain ⟨⟨l, s⟩, hl, hp⟩ := (Option.any_eq_true ..).mp (show (trace step (.new fun _ => 0)
    [.create 1 (some [108]) 1, .wait 1 (some [108]), .wait 1 (some [108]),
      .create 2 (some [108, 0, 7]) 5, .signal 2 (some [108]), .signal 2 (some [109]),
      .retest 1]).any (fun x =>
        x.1.map Prod.snd = [some 0, some 0, none, some (-1), some 0, some (-1), some 0] ∧
          (x.2.lockTab 0).any (fun sem => key sem.name = key [108]) = true ∧
          x.2.bm.test 1 = false) = true by decide +kernel)
  obtain ⟨hans, h₀, h₁⟩ := of_decide_eq_true hp
  have htr := Trace.of_trace hl
  obtain ⟨⟨a, ha, -, hnames, -⟩, -, hbit, -⟩ := stable_refines htr
  obtain ⟨sem, hsem, hk⟩ := (Option.any_eq_true ..).mp h₀
  refine ⟨l, s, htr, hans, ⟨a, ha, (hnames _).mpr ⟨0, sem, hsem, of_decide_eq_true hk⟩⟩, ?_, h₁⟩
  rw [hbit, hsem]
  simp

end Nachos.STable
