import Nachos.Lib.Cells
import Nachos.Lib.Keyed
import Nachos.Lib.Traces
import Nachos.Threads.Semaphore

/-!
# Threads — LinkedList

`class List` (threads/list.cc), on a store of `ListElement`s: `first` and `last` are pointers into
it, `new` takes any address that is free and `delete` frees one.  A null or a dangling pointer that
is followed stops the program, and so does a loop that goes round.

* `Holds h₀ m ns`: the elements of `m` are `ns`, by address, key and item; `last` is the last of
  them, and the rest of the store is what it was before the list had any.
* `step_refines`: each operation succeeds and does to the elements what it should do to the
  sequence of their keys and items.
* `list_refines_sequence`: over every sequence of operations, the answers are those of a sequence.
-/

namespace Nachos
open Lib

/-- `class ListElement`.  An item is what a `void *` other than `NULL` points to. -/
structure ListElement (α : Type) where
  next : Option Nat
  key : Int
  item : α
  deriving DecidableEq, Repr

/-- `class List`, with the store its elements are in. -/
structure LinkedList (α : Type) where
  heap : Cells (ListElement α)
  first : Option Nat
  last : Option Nat
  deriving DecidableEq, Repr

namespace LinkedList
variable {α : Type}

/-- `List::List`. -/
def new (heap : Cells (ListElement α)) : LinkedList α := ⟨heap, none, none⟩

/-- `*ptr`; a pointer to an element that was deleted is outside the store. -/
def deref (m : LinkedList α) : Option Nat → Except Stop (ListElement α)
  | none => .error .nullDeref
  | some a =>
      match m.heap.get a with
      | some e => .ok e
      | none => .error .outOfBounds

/-- `ptr->next = next`. -/
def setNext (m : LinkedList α) (ptr next : Option Nat) : Except Stop (LinkedList α) :=
  match ptr with
  | none => .error .nullDeref
  | some a =>
      match m.heap.get a with
      | some e => .ok { m with heap := m.heap.put a { e with next := next } }
      | none => .error .outOfBounds

/-- `new ListElement(item, sortKey)`, at the address `a`: one in use is never returned. -/
def alloc (m : LinkedList α) (a : Nat) (item : α) (sortKey : Int) : Except Stop (LinkedList α) :=
  match m.heap.get a with
  | none => .ok { m with heap := m.heap.put a ⟨none, sortKey, item⟩ }
  | some _ => .error .disabled

/-- `List::IsEmpty`. -/
def isEmpty (m : LinkedList α) : Bool := m.first == none

/-- `List::Append`. -/
def append (m : LinkedList α) (a : Nat) (item : α) : Except Stop (LinkedList α) := do
  let m ← m.alloc a item 0
  if m.isEmpty then .ok { m with first := some a, last := some a }
  else
    let m ← m.setNext m.last (some a)
    .ok { m with last := some a }

/-- `List::Prepend`. -/
def prepend (m : LinkedList α) (a : Nat) (item : α) : Except Stop (LinkedList α) := do
  let m ← m.alloc a item 0
  if m.isEmpty then .ok { m with first := some a, last := some a }
  else
    let m ← m.setNext (some a) m.first
    .ok { m with first := some a }

/-- The loop of `List::SortedInsert` and what follows it.  The loop writes nothing before it ends,
so one that has made as many rounds as the store has addresses goes round for ever. -/
def insertLoop (m : LinkedList α) (a : Nat) (sortKey : Int) :
    (rounds : Nat) → (ptr : Option Nat) → Except Stop (LinkedList α)
  | 0, _ => .error .disabled
  | rounds + 1, ptr => do
      let e ← m.deref ptr
      if e.next = none then
        let m ← m.setNext m.last (some a)
        .ok { m with last := some a }
      else
        let e' ← m.deref e.next
        if sortKey < e'.key then
          let m ← m.setNext (some a) e.next
          m.setNext ptr (some a)
        else m.insertLoop a sortKey rounds e.next

/-- `List::SortedInsert`. -/
def sortedInsert (m : LinkedList α) (a : Nat) (item : α) (sortKey : Int) :
    Except Stop (LinkedList α) := do
  let m ← m.alloc a item sortKey
  if m.isEmpty then .ok { m with first := some a, last := some a }
  else
    let e ← m.deref m.first
    if sortKey < e.key then
      let m ← m.setNext (some a) m.first
      .ok { m with first := some a }
    else m.insertLoop a sortKey m.heap.size m.first

/-- `delete element`. -/
def delete (m : LinkedList α) (element : Option Nat) : Except Stop (LinkedList α) :=
  match element with
  | none => .error .nullDeref
  | some a => .ok { m with heap := m.heap.free a }

/-- `List::SortedRemove`: the item, or `NULL`, and what is then in `*keyPtr`. -/
def sortedRemove (m : LinkedList α) (keyPtr : Option Int) :
    Except Stop ((Option α × Option Int) × LinkedList α) := do
  let element := m.first
  if m.isEmpty then .ok ((none, keyPtr), m)
  else
    let thing := (← m.deref m.first).item
    let m ←
      if m.first = m.last then .ok { m with first := none, last := none }
      else .ok { m with first := (← m.deref element).next }
    let key ← if keyPtr ≠ none then .ok (some (← m.deref element).key) else .ok keyPtr
    let m ← m.delete element
    .ok ((some thing, key), m)

/-- `List::Remove`. -/
def remove (m : LinkedList α) : Except Stop (Option α × LinkedList α) := do
  let ((thing, _), m) ← m.sortedRemove none
  .ok (thing, m)

/-! ### The sequence a list is -/

/-- A call, with the address its `new` returns. -/
inductive Call (α : Type) where
  | append (a : Nat) (item : α)
  | prepend (a : Nat) (item : α)
  | remove
  | sortedInsert (a : Nat) (item : α) (sortKey : Int)
  | sortedRemove (key : Int)
  deriving DecidableEq, Repr

/-- The call on the list; `SortedRemove` gets a place for the key, with `key` in it. -/
def step (m : LinkedList α) : Call α → Except Stop ((Option α × Option Int) × LinkedList α)
  | .append a item => do .ok ((none, none), ← m.append a item)
  | .prepend a item => do .ok ((none, none), ← m.prepend a item)
  | .remove => do
      let (thing, m) ← m.remove
      .ok ((thing, none), m)
  | .sortedInsert a item sortKey => do .ok ((none, none), ← m.sortedInsert a item sortKey)
  | .sortedRemove key => m.sortedRemove (some key)

/-- The call on the sequence of keys and items: `Append` adds at the end and `Prepend` at the
front, both with key 0, `Remove` and `SortedRemove` take the front, and `SortedInsert` puts its item
before the first with a greater key. -/
def seqStep (s : List (Int × α)) : Call α → (Option α × Option Int) × List (Int × α)
  | .append _ item => ((none, none), s ++ [(0, item)])
  | .prepend _ item => ((none, none), (0, item) :: s)
  | .remove => ((s.head?.map Prod.snd, none), s.tail)
  | .sortedInsert _ item sortKey => ((none, none), Keyed.insert sortKey item s)
  | .sortedRemove key => ((s.head?.map Prod.snd, some ((s.head?.map Prod.fst).getD key)), s.tail)

/-! ### The elements of a list -/

/-- The key and the item of an element. -/
def entry (e : ListElement α) : Int × α := (e.key, e.item)

/-- The elements of `m` are `ns`, and the rest of the store is that of `h₀`, where their addresses
were free. -/
structure Holds (h₀ : Cells (ListElement α)) (m : LinkedList α) (ns : List (Nat × (Int × α))) :
    Prop where
  chain : Segment ListElement.next entry m.heap m.first ns none
  nodup : (ns.map Prod.fst).Nodup
  last : m.last = (ns.map Prod.fst).getLast?
  unused : ∀ a ∈ ns.map Prod.fst, h₀.get a = none
  other : ∀ b, b ∉ ns.map Prod.fst → m.heap.get b = h₀.get b

section
variable {h₀ : Cells (ListElement α)} {m m' : LinkedList α} {ns l l' : List (Nat × (Int × α))}
  {a z : Nat} {k : Int} {x : α} {y : Int × α}

theorem new_holds (h₀ : Cells (ListElement α)) : Holds h₀ (new h₀) [] :=
  ⟨rfl, List.nodup_nil, rfl, by simp, fun _ _ => rfl⟩

theorem deref_some {e : ListElement α} (h : m.heap.get a = some e) : m.deref (some a) = .ok e := by
  simp only [deref, h]

theorem setNext_some {e : ListElement α} (h : m.heap.get a = some e) (p : Option Nat) :
    m.setNext (some a) p = .ok { m with heap := m.heap.put a { e with next := p } } := by
  simp only [setNext, h]

theorem alloc_free (h : m.heap.get a = none) (x : α) (k : Int) :
    m.alloc a x k = .ok { m with heap := m.heap.put a ⟨none, k, x⟩ } := by
  simp only [alloc, h]

/-- A pointer into a segment that ends at `NULL` points to its first element. -/
theorem Segment.start {h : Cells (ListElement α)} {p : Option Nat}
    (hs : Segment ListElement.next entry h p l none) : p = (l.map Prod.fst).head? := by
  cases l with
  | nil => exact hs
  | cons e l => exact hs.1

theorem Holds.first (h : Holds h₀ m ns) : m.first = (ns.map Prod.fst).head? := Segment.start h.chain

theorem Holds.isEmpty (h : Holds h₀ m ns) : m.isEmpty = true ↔ ns = [] := by
  simp [LinkedList.isEmpty, h.first]

/-- An element, with the address of the next. -/
theorem Holds.cell (h : Holds h₀ m (l ++ (z, y) :: l')) :
    m.heap.get z = some ⟨(l'.map Prod.fst).head?, y.1, y.2⟩ := by
  obtain ⟨r, -, -, c, hc, rfl, hs⟩ := Lib.segment_append.mp h.chain
  rw [hc, ← Segment.start hs]
  rfl

/-- What is free is none of the elements, and was free before. -/
theorem Holds.notMem (h : Holds h₀ m ns) (ha : m.heap.get a = none) :
    a ∉ ns.map Prod.fst ∧ h₀.get a = none := by
  have hn : a ∉ ns.map Prod.fst := fun hm => by
    obtain ⟨c, hc⟩ := h.chain.get hm
    rw [ha] at hc
    cases hc
  exact ⟨hn, (h.other a hn).symm.trans ha⟩

/-- One more element, wherever it goes: what does not depend on the place. -/
theorem Holds.add (h : Holds h₀ m (l ++ l')) (ha : m.heap.get a = none)
    (hchain : Segment ListElement.next entry m'.heap m'.first (l ++ (a, (k, x)) :: l') none)
    (hlast : m'.last = ((l ++ (a, (k, x)) :: l').map Prod.fst).getLast?)
    (hother : ∀ b, b ≠ a → b ∉ (l ++ l').map Prod.fst → m'.heap.get b = m.heap.get b) :
    Holds h₀ m' (l ++ (a, (k, x)) :: l') := by
  obtain ⟨hn, ha₀⟩ := h.notMem ha
  have hmem : ∀ b, b ∈ (l ++ (a, (k, x)) :: l').map Prod.fst ↔
      b = a ∨ b ∈ (l ++ l').map Prod.fst := by
    intro b
    simp only [List.map_append, List.map_cons, List.mem_append, List.mem_cons]
    tauto
  refine ⟨hchain, ?_, hlast, fun b hb => ?_, fun b hb => ?_⟩
  · have hp : ((l ++ (a, (k, x)) :: l').map Prod.fst).Perm (a :: (l ++ l').map Prod.fst) := by
      simp only [List.map_append, List.map_cons]
      exact List.perm_middle
    exact hp.nodup_iff.mpr (List.nodup_cons.mpr ⟨hn, h.nodup⟩)
  · rcases (hmem b).mp hb with rfl | hb
    · exact ha₀
    · exact h.unused b hb
  · rw [hmem, not_or] at hb
    rw [hother b hb.1 hb.2, h.other b hb.2]

/-- An element put in front. -/
theorem Holds.front (h : Holds h₀ m ns) (ha : m.heap.get a = none)
    (hget : m'.heap.get a = some ⟨m.first, k, x⟩) (hfirst : m'.first = some a)
    (hlast : m'.last = if ns = [] then some a else m.last)
    (hother : ∀ b, b ≠ a → m'.heap.get b = m.heap.get b) : Holds h₀ m' ((a, (k, x)) :: ns) := by
  refine Holds.add (l := []) h ha ⟨hfirst, _, hget, rfl, ?_⟩ ?_ fun b hb _ => hother b hb
  · exact h.chain.congr fun b hb => hother b fun e => (h.notMem ha).1 (e ▸ hb)
  · rw [hlast, h.last]
    cases ns with
    | nil => rfl
    | cons e ns => simp [List.getLast?_cons_cons]

/-- An element put right behind `z`. -/
theorem Holds.behind (h : Holds h₀ m (l ++ (z, y) :: l')) (ha : m.heap.get a = none)
    (hget : m'.heap.get a = some ⟨(l'.map Prod.fst).head?, k, x⟩)
    (hz : m'.heap.get z = some ⟨some a, y.1, y.2⟩) (hfirst : m'.first = m.first)
    (hlast : m'.last = if l' = [] then some a else m.last)
    (hother : ∀ b, b ≠ a → b ≠ z → m'.heap.get b = m.heap.get b) :
    Holds h₀ m' (l ++ (z, y) :: (a, (k, x)) :: l') := by
  have hl : l ++ (z, y) :: l' = (l ++ [(z, y)]) ++ l' := by simp
  have hl' : l ++ (z, y) :: (a, (k, x)) :: l' = (l ++ [(z, y)]) ++ (a, (k, x)) :: l' := by simp
  have hchain : Segment ListElement.next entry m'.heap m'.first (l ++ (z, y) :: (a, (k, x)) :: l')
      none := by
    rw [hfirst]
    exact h.chain.insert h.nodup (h.notMem ha).1 h.cell ⟨_, hget, rfl, rfl⟩ hz rfl rfl hother
  rw [hl] at h
  rw [hl'] at hchain ⊢
  refine h.add ha hchain ?_ fun b hb hb' => hother b hb fun e => hb' (by simp [e])
  rw [hlast, h.last]
  cases l' with
  | nil => simp
  | cons e l' => simp [List.getLast?_append, List.getLast?_cons_cons]

/-! ### The operations -/

/-- The only element of a list that was empty. -/
theorem Holds.single (h : Holds h₀ m []) (ha : m.heap.get a = none) :
    Holds h₀ { m with heap := m.heap.put a ⟨none, k, x⟩, first := some a, last := some a }
      [(a, (k, x))] := by
  have hf : m.first = none := h.first
  refine h.front ha ?_ rfl rfl fun b hb => Cells.get_put_of_ne _ _ hb
  rw [hf]
  exact Cells.get_put_self _ _ _

/-- What `last->next = element; last = element` does with a new element. -/
theorem Holds.linkLast (h : Holds h₀ m ns) (hne : ns ≠ []) (ha : m.heap.get a = none) :
    ∃ m₂, ({ m with heap := m.heap.put a ⟨none, k, x⟩ } : LinkedList α).setNext m.last (some a) =
        .ok m₂ ∧ Holds h₀ { m₂ with last := some a } (ns ++ [(a, (k, x))]) := by
  obtain ⟨l, ⟨z, y⟩, rfl⟩ := List.eq_nil_or_concat ns |>.resolve_left hne
  rw [List.concat_eq_append] at h ⊢
  have hza : z ≠ a := fun e => (h.notMem ha).1 (by simp [e])
  have hlast : m.last = some z := by rw [h.last]; simp
  have hz := (Cells.get_put_of_ne m.heap ⟨none, k, x⟩ hza).trans h.cell
  refine ⟨_, by rw [hlast]; exact setNext_some hz _, ?_⟩
  rw [List.append_assoc]
  refine h.behind ha ?_ (Cells.get_put_self _ _ _) rfl rfl fun b hb hbz => ?_
  · exact (Cells.get_put_of_ne _ _ hza.symm).trans (Cells.get_put_self _ _ _)
  · exact (Cells.get_put_of_ne _ _ hbz).trans (Cells.get_put_of_ne _ _ hb)

theorem append_holds (h : Holds h₀ m ns) (ha : m.heap.get a = none) (x : α) :
    ∃ m', m.append a x = .ok m' ∧ Holds h₀ m' (ns ++ [(a, (0, x))]) := by
  rw [append, alloc_free ha]
  by_cases hns : ns = []
  · subst hns
    exact ⟨_, if_pos (h.isEmpty.mpr rfl), h.single ha⟩
  · obtain ⟨m₂, hm₂, h₂⟩ := h.linkLast (k := 0) (x := x) hns ha
    refine ⟨_, ?_, h₂⟩
    refine (if_neg fun e => hns (h.isEmpty.mp e)).trans ?_
    change (do let m ← setNext _ m.last (some a); Except.ok { m with last := some a }) = _
    rw [hm₂]
    rfl

/-- What `element->next = first; first = element` does with a new element. -/
theorem Holds.linkFirst (h : Holds h₀ m ns) (hne : ns ≠ []) (ha : m.heap.get a = none) :
    ∃ m₂, ({ m with heap := m.heap.put a ⟨none, k, x⟩ } : LinkedList α).setNext (some a) m.first =
        .ok m₂ ∧ Holds h₀ { m₂ with first := some a } ((a, (k, x)) :: ns) := by
  refine ⟨_, setNext_some (Cells.get_put_self _ _ _) _, ?_⟩
  refine h.front ha (Cells.get_put_self _ _ _) rfl (if_neg hne).symm fun b hb => ?_
  exact (Cells.get_put_of_ne _ _ hb).trans (Cells.get_put_of_ne _ _ hb)

theorem prepend_holds (h : Holds h₀ m ns) (ha : m.heap.get a = none) (x : α) :
    ∃ m', m.prepend a x = .ok m' ∧ Holds h₀ m' ((a, (0, x)) :: ns) := by
  rw [prepend, alloc_free ha]
  by_cases hns : ns = []
  · subst hns
    exact ⟨_, if_pos (h.isEmpty.mpr rfl), h.single ha⟩
  · obtain ⟨m₂, hm₂, h₂⟩ := h.linkFirst (k := 0) (x := x) hns ha
    refine ⟨_, ?_, h₂⟩
    refine (if_neg fun e => hns (h.isEmpty.mp e)).trans ?_
    change (do let m ← setNext _ (some a) m.first; Except.ok { m with first := some a }) = _
    rw [hm₂]
    rfl

/-- Where `SortedInsert` puts a new element among the elements. -/
def insertAt (k : Int) (a : Nat) (x : α) (ns : List (Nat × (Int × α))) : List (Nat × (Int × α)) :=
  ns.orderedInsert (fun e e' => e.2.1 < e'.2.1) (a, (k, x))

theorem insertAt_cons_lt (h : k < y.1) : insertAt k a x ((z, y) :: l) = (a, (k, x)) :: (z, y) :: l := by
  rw [insertAt, List.orderedInsert_cons]
  exact if_pos h

theorem insertAt_cons_le (h : y.1 ≤ k) :
    insertAt k a x ((z, y) :: l) = (z, y) :: insertAt k a x l := by
  rw [insertAt, List.orderedInsert_cons]
  exact if_neg (not_lt.mpr h)

theorem map_insertAt : (insertAt k a x ns).map Prod.snd = Keyed.insert k x (ns.map Prod.snd) :=
  List.map_orderedInsert _ _ _ _ _ (fun _ _ => Iff.rfl) fun _ _ => Iff.rfl

/-- The last round of the loop. -/
theorem insertLoop_end {c : ListElement α} {rounds : Nat} (hz : m.heap.get z = some c)
    (hn : c.next = none) : m.insertLoop a k (rounds + 1) (some z) =
      (do let m ← m.setNext m.last (some a); .ok { m with last := some a }) := by
  rw [insertLoop, deref_some hz]
  exact if_pos hn

/-- Any other round. -/
theorem insertLoop_next {c c' : ListElement α} {z' rounds : Nat} (hz : m.heap.get z = some c)
    (hn : c.next = some z') (hz' : m.heap.get z' = some c') :
    m.insertLoop a k (rounds + 1) (some z) =
      if k < c'.key then (do let m ← m.setNext (some a) (some z'); m.setNext (some z) (some a))
      else m.insertLoop a k rounds (some z') := by
  rw [insertLoop, deref_some hz]
  refine (if_neg (by rw [hn]; exact Option.some_ne_none _)).trans ?_
  rw [hn, deref_some hz']
  rfl

/-- What `element->next = ptr->next; ptr->next = element` does with a new element. -/
theorem Holds.linkBehind {z' : Nat} {y' : Int × α} (h : Holds h₀ m (l ++ (z, y) :: (z', y') :: l'))
    (ha : m.heap.get a = none) :
    ∃ m₂ m₃, ({ m with heap := m.heap.put a ⟨none, k, x⟩ } : LinkedList α).setNext (some a)
        (some z') = .ok m₂ ∧ m₂.setNext (some z) (some a) = .ok m₃ ∧
      Holds h₀ m₃ (l ++ (z, y) :: (a, (k, x)) :: (z', y') :: l') := by
  have hza : z ≠ a := fun e => (h.notMem ha).1 (by simp [e])
  have hz := (Cells.get_put_of_ne m.heap ⟨none, k, x⟩ hza).trans h.cell
  refine ⟨_, _, setNext_some (Cells.get_put_self _ _ _) _,
    setNext_some ((Cells.get_put_of_ne _ _ hza).trans hz) _, ?_⟩
  refine h.behind ha ?_ (Cells.get_put_self _ _ _) rfl rfl fun b hb hbz => ?_
  · exact (Cells.get_put_of_ne _ _ hza.symm).trans (Cells.get_put_self _ _ _)
  · exact (Cells.get_put_of_ne _ _ hbz).trans
      ((Cells.get_put_of_ne _ _ hb).trans (Cells.get_put_of_ne _ _ hb))

/-- The loop, at an element whose key is not above the new one's: the new element goes among those
behind it.  The induction is on the elements still ahead. -/
theorem insertLoop_holds (ha : m.heap.get a = none) : ∀ {l' l : List (Nat × (Int × α))} {z : Nat}
    {y : Int × α} {rounds : Nat}, Holds h₀ m (l ++ (z, y) :: l') → l'.length < rounds →
    ∃ m', ({ m with heap := m.heap.put a ⟨none, k, x⟩ } : LinkedList α).insertLoop a k rounds
        (some z) = .ok m' ∧ Holds h₀ m' (l ++ (z, y) :: insertAt k a x l')
  | l', l, z, y, 0, h, hr => absurd hr (Nat.not_lt_zero _)
  | [], l, z, y, rounds + 1, h, _ => by
      have hza : z ≠ a := fun e => (h.notMem ha).1 (by simp [e])
      have hz := (Cells.get_put_of_ne m.heap ⟨none, k, x⟩ hza).trans h.cell
      obtain ⟨m₂, hm₂, h₂⟩ := h.linkLast (k := k) (x := x) (by simp) ha
      refine ⟨{ m₂ with last := some a }, ?_, by simpa [insertAt] using h₂⟩
      rw [insertLoop_end hz rfl, hm₂]
      rfl
  | (z', y') :: l', l, z, y, rounds + 1, h, hr => by
      have hza : z ≠ a := fun e => (h.notMem ha).1 (by simp [e])
      have hza' : z' ≠ a := fun e => (h.notMem ha).1 (by simp [e])
      have h' : Holds h₀ m ((l ++ [(z, y)]) ++ (z', y') :: l') := by simpa using h
      have hz := (Cells.get_put_of_ne m.heap ⟨none, k, x⟩ hza).trans h.cell
      have hz' := (Cells.get_put_of_ne m.heap ⟨none, k, x⟩ hza').trans h'.cell
      rw [insertLoop_next hz rfl hz']
      by_cases hk : k < y'.1
      · obtain ⟨m₂, m₃, hm₂, hm₃, h₃⟩ := h.linkBehind (k := k) (x := x) ha
        rw [if_pos hk, insertAt_cons_lt hk, hm₂]
        exact ⟨m₃, hm₃, h₃⟩
      · obtain ⟨m', hm', hh⟩ := insertLoop_holds ha h' (Nat.lt_of_succ_lt_succ hr)
        rw [if_neg hk, insertAt_cons_le (by omega)]
        exact ⟨m', hm', by simpa using hh⟩

theorem sortedInsert_holds (h : Holds h₀ m ns) (ha : m.heap.get a = none) (x : α) (k : Int) :
    ∃ m', m.sortedInsert a x k = .ok m' ∧ Holds h₀ m' (insertAt k a x ns) := by
  rw [sortedInsert, alloc_free ha]
  cases ns with
  | nil => exact ⟨_, if_pos (h.isEmpty.mpr rfl), h.single ha⟩
  | cons e ns =>
      obtain ⟨z, y⟩ := e
      have hza : z ≠ a := fun e => (h.notMem ha).1 (by simp [e])
      have hz := (Cells.get_put_of_ne m.heap ⟨none, k, x⟩ hza).trans (Holds.cell (l := []) h)
      have hf : m.first = some z := h.first
      have hne : ¬ (m.isEmpty = true) := by simp [h.isEmpty]
      suffices hs : ∃ m', (if k < y.1 then
            (do let m ← setNext _ (some a) m.first; Except.ok { m with first := some a })
          else insertLoop { m with heap := m.heap.put a ⟨none, k, x⟩ } a k
            (m.heap.put a ⟨none, k, x⟩).size m.first) = .ok m' ∧
          Holds h₀ m' (insertAt k a x ((z, y) :: ns)) by
        obtain ⟨m', hm', hh⟩ := hs
        refine ⟨m', ?_, hh⟩
        refine (if_neg hne).trans ?_
        change (do let e ← deref _ m.first; _) = _
        rw [hf, deref_some hz, ← hf]
        exact hm'
      by_cases hk : k < y.1
      · obtain ⟨m₂, hm₂, h₂⟩ := h.linkFirst (k := k) (x := x) (by simp) ha
        rw [if_pos hk, insertAt_cons_lt hk, hm₂]
        exact ⟨_, rfl, h₂⟩
      · have hsize : ns.length < (m.heap.put a ⟨none, k, x⟩).size := by
          have hs := h.chain.congr fun b hb =>
            Cells.get_put_of_ne m.heap ⟨none, k, x⟩ (show b ≠ a from fun e => (h.notMem ha).1 (e ▸ hb))
          exact hs.length_le h.nodup
        obtain ⟨m', hm', hh⟩ := insertLoop_holds (l := []) (k := k) (x := x) ha h hsize
        rw [← hf] at hm'
        rw [if_neg hk, insertAt_cons_le (by omega)]
        exact ⟨m', hm', hh⟩

/-- `SortedRemove`, from an empty list and from one with a first element. -/
theorem sortedRemove_nil (h : Holds h₀ m []) (keyPtr : Option Int) :
    m.sortedRemove keyPtr = .ok ((none, keyPtr), m) :=
  if_pos (h.isEmpty.mpr rfl)

theorem sortedRemove_cons (h : Holds h₀ m ((z, y) :: ns)) (keyPtr : Option Int) :
    ∃ m', m.sortedRemove keyPtr = .ok ((some y.2, keyPtr.map fun _ => y.1), m') ∧
      Holds h₀ m' ns := by
  have hz := Holds.cell (l := []) h
  have hf : m.first = some z := h.first
  obtain ⟨hnz, hnd⟩ := List.nodup_cons.mp h.nodup
  obtain ⟨-, c, hc, -, hchain⟩ := h.chain
  obtain rfl : c = _ := Option.some.inj (hc.symm.trans hz)
  -- the list has one element exactly when `first == last`
  have hone : m.first = m.last ↔ ns = [] := by
    rw [hf, h.last]
    cases ns with
    | nil => simp
    | cons e ns =>
        simp only [List.map_cons, List.getLast?_cons_cons, reduceCtorEq, iff_false]
        intro he
        exact hnz (List.mem_of_getLast? he.symm)
  have hlast : (if ns = [] then none else m.last) = (ns.map Prod.fst).getLast? := by
    rw [h.last]
    cases ns with
    | nil => rfl
    | cons e ns => simp [List.getLast?_cons_cons]
  refine ⟨⟨m.heap.free z, (ns.map Prod.fst).head?, if ns = [] then none else m.last⟩, ?_, ?_, hnd,
    hlast, fun a ha => h.unused a (List.mem_cons_of_mem _ ha), fun b hb => ?_⟩
  · have hne : ¬ (m.isEmpty = true) := by simp [h.isEmpty]
    have hd : ∀ first last, deref ⟨m.heap, first, last⟩ (some z) =
        .ok ⟨(ns.map Prod.fst).head?, y.1, y.2⟩ := fun first last => deref_some hz
    rw [hf] at hone
    rw [sortedRemove]
    simp only [if_neg hne]
    rw [hf, hd]
    have hnext : ns = [] → (ns.map Prod.fst).head? = none := by rintro rfl; rfl
    generalize (ns.map Prod.fst).head? = next at *
    by_cases hns : ns = []
    · cases keyPtr <;>
        simp [(hone.mpr hns).symm, hns, hnext hns, hd, delete, bind, Except.bind]
    · have hns' : ¬ some z = m.last := fun e => hns (hone.mp e)
      cases keyPtr <;> simp [hns', hns, hd, delete, bind, Except.bind]
  · exact hchain.congr fun b hb => Cells.get_free_of_ne _ fun e => hnz (e ▸ hb)
  · by_cases e : b = z
    · subst e
      rw [Cells.get_free_self, h.unused b (by simp)]
    · rw [Cells.get_free_of_ne _ e, h.other b fun hb' => (List.mem_cons.mp hb').elim e hb]

/-! ### Runs -/

/-- The address a call's `new` returns is free. -/
def Call.Fresh (m : LinkedList α) : Call α → Prop
  | .append a _ | .prepend a _ | .sortedInsert a _ _ => m.heap.get a = none
  | .remove | .sortedRemove _ => True

/-- **One call.**  It succeeds, answers what the sequence answers, and leaves the elements of the
sequence the call leaves. -/
theorem step_refines (h : Holds h₀ m ns) {c : Call α} (hc : c.Fresh m) :
    ∃ m' ns', step m c = .ok ((seqStep (ns.map Prod.snd) c).1, m') ∧ Holds h₀ m' ns' ∧
      ns'.map Prod.snd = (seqStep (ns.map Prod.snd) c).2 := by
  cases c with
  | append a x =>
      obtain ⟨m', hm', h'⟩ := append_holds h hc x
      exact ⟨m', _, by rw [step, hm']; rfl, h', by simp [seqStep]⟩
  | prepend a x =>
      obtain ⟨m', hm', h'⟩ := prepend_holds h hc x
      exact ⟨m', _, by rw [step, hm']; rfl, h', by simp [seqStep]⟩
  | sortedInsert a x k =>
      obtain ⟨m', hm', h'⟩ := sortedInsert_holds h hc x k
      exact ⟨m', _, by rw [step, hm']; rfl, h', map_insertAt⟩
  | remove =>
      cases ns with
      | nil => exact ⟨m, [], by rw [step, remove, sortedRemove_nil h]; rfl, h, rfl⟩
      | cons e ns =>
          obtain ⟨m', hm', h'⟩ := sortedRemove_cons h none
          exact ⟨m', ns, by rw [step, remove, hm']; rfl, h', rfl⟩
  | sortedRemove key =>
      cases ns with
      | nil => exact ⟨m, [], by rw [step, sortedRemove_nil h]; rfl, h, rfl⟩
      | cons e ns =>
          obtain ⟨m', hm', h'⟩ := sortedRemove_cons h (some key)
          exact ⟨m', ns, by rw [step, hm']; rfl, h', rfl⟩

/-- A call that was made had a free address. -/
theorem fresh_of_step {c : Call α} {r : Option α × Option Int} (hs : step m c = .ok (r, m')) :
    c.Fresh m := by
  cases c with
  | remove | sortedRemove => trivial
  | append a | prepend a | sortedInsert a =>
      change m.heap.get a = none
      cases ha : m.heap.get a with
      | none => rfl
      | some e =>
          simp only [step, append, prepend, sortedInsert, alloc, ha] at hs
          cases hs

/-- The list `m` is the sequence `s`. -/
def Is (h₀ : Cells (ListElement α)) (m : LinkedList α) (s : List (Int × α)) : Prop :=
  ∃ ns, Holds h₀ m ns ∧ ns.map Prod.snd = s

theorem Is.step {s : List (Int × α)} (h : Is h₀ m s) {c : Call α} (hc : c.Fresh m) :
    ∃ m', step m c = .ok ((seqStep s c).1, m') ∧ Is h₀ m' (seqStep s c).2 := by
  obtain ⟨ns, h, rfl⟩ := h
  obtain ⟨m', ns', hs, h', hns⟩ := step_refines h hc
  exact ⟨m', hs, ns', h', hns⟩

end

/-- The sequence as a component of its own: it answers every call. -/
def sequence (s : List (Int × α)) (c : Call α) :
    Except Stop ((Option α × Option Int) × List (Int × α)) :=
  .ok (seqStep s c)

/-- **A list is the sequence of its keys and items.**  Over every sequence of calls on a new list,
its answers are those of the sequence, and the pointers from `first` to `last` are that sequence;
the next call succeeds, with the answer and the elements the sequence has then.  Into a sorted
sequence, `SortedInsert` puts the new element behind those with a key up to its own, the others
staying in their order, and the sequence is sorted again. -/
theorem list_refines_sequence (h₀ : Cells (ListElement α))
    {l : List (Call α × (Option α × Option Int))} {m : LinkedList α}
    (htr : Trace step (new h₀) l m) :
    ∃ s, Trace sequence [] l s ∧ Is h₀ m s ∧
      (∀ c : Call α, c.Fresh m →
        ∃ m', step m c = .ok ((seqStep s c).1, m') ∧ Is h₀ m' (seqStep s c).2) ∧
      (Keyed.Sorted s → ∀ k x, Keyed.Sorted (Keyed.insert k x s) ∧ ∃ s₁ s₂, s = s₁ ++ s₂ ∧
        Keyed.insert k x s = s₁ ++ (k, x) :: s₂ ∧ (∀ e ∈ s₁, e.1 ≤ k) ∧ ∀ e ∈ s₂, k < e.1) := by
  have hsim : ∀ m s c r m', Is h₀ m s → step m c = .ok (r, m') →
      ∃ s', sequence s c = .ok (r, s') ∧ Is h₀ m' s' := by
    intro m s c r m' h hs
    obtain ⟨m₁, hs₁, h₁⟩ := h.step (fresh_of_step hs)
    rw [hs] at hs₁
    cases hs₁
    exact ⟨_, rfl, h₁⟩
  obtain ⟨s, hts, h⟩ := htr.refines ⟨[], new_holds h₀, rfl⟩ hsim
  exact ⟨s, hts, h, fun c hc => h.step hc, fun hs k x =>
    ⟨Keyed.sorted_insert hs, hs.insert_eq k x⟩⟩

/-- A run on an empty store in which an address is used again: 9 at key 3, 8 before it, 8 taken off,
and 7 behind the 9. -/
theorem list_refines_sequence_run :
    ∃ l m, Trace step (new (⟨[]⟩ : Cells (ListElement Nat))) l m ∧
      l.map Prod.fst = [.sortedInsert 1 9 3, .sortedInsert 0 8 2, .sortedRemove 0, .append 0 7] ∧
      ∃ s, Trace sequence [] l s ∧ Is ⟨[]⟩ m s := by
  have h : Lib.trace step (new (⟨[]⟩ : Cells (ListElement Nat)))
      [.sortedInsert 1 9 3, .sortedInsert 0 8 2, .sortedRemove 0, .append 0 7] =
      some ([(.sortedInsert 1 9 3, none, none), (.sortedInsert 0 8 2, none, none),
          (.sortedRemove 0, some 8, some 2), (.append 0 7, none, none)],
        ⟨⟨[some ⟨none, 0, 7⟩, some ⟨some 0, 3, 9⟩]⟩, some 1, some 0⟩) := by decide
  have htr := Trace.of_trace h
  obtain ⟨s, hs, his, -⟩ := list_refines_sequence _ htr
  exact ⟨_, _, htr, rfl, s, hs, his⟩

end LinkedList

end Nachos
