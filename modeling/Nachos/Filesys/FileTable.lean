import Mathlib.Data.Finset.Insert
import Mathlib.Data.List.FinRange
import Mathlib.Logic.Function.Basic
import Nachos.Lib.Traces
import Nachos.Machine.Machine
import Nachos.Threads.Semaphore

/-!
# Filesys — the table of open files

`Table` and the file system of the stub, whose table of ten slots holds pointers to `OpenFile`
objects.  The host decides which descriptor an open gets and where an object lies; it never gives
out a descriptor that is open or memory that is in use.

`opened` reads from the calls made and their answers what is open: a finite map from file ids to
objects.  The table refines it (`FileInv`, `trace_inv`).
-/

namespace Nachos.Filesys
open Lib

/-! ### `Table` -/

structure Table (m_size : Nat) (α : Type) where
  m_entries : Fin m_size → Option α

namespace Table
variable {n : Nat} {α : Type}

/-- `Table::Table`. -/
def new : Table n α := ⟨fun _ => none⟩

/-- `Table::Alloc`: the first slot that is free. -/
def alloc (T : Table n α) (object : α) : Int × Table n α :=
  match (List.finRange n).find? fun i => (T.m_entries i).isNone with
  | some i => ((i.val : Int), ⟨Function.update T.m_entries i (some object)⟩)
  | none => (-1, T)

/-- `Table::Set`. -/
def set (T : Table n α) (object : α) (index : Int) : Int × Table n α :=
  if h : 0 ≤ index ∧ index < n then
    let i : Fin n := ⟨index.toNat, by omega⟩
    if (T.m_entries i).isSome then (-1, T)
    else (index, ⟨Function.update T.m_entries i (some object)⟩)
  else (-1, T)

/-- `Table::Get`. -/
def get (T : Table n α) (index : Int) : Option α :=
  if h : 0 ≤ index ∧ index < n then T.m_entries ⟨index.toNat, by omega⟩ else none

/-- `Table::Release`. -/
def release (T : Table n α) (index : Int) : Int × Table n α :=
  if h : 0 ≤ index ∧ index < n then
    let i : Fin n := ⟨index.toNat, by omega⟩
    if (T.m_entries i).isNone then (-1, T) else (0, ⟨Function.update T.m_entries i none⟩)
  else (-1, T)

/-- `Alloc` takes a free slot, or there is none. -/
theorem alloc_cases (T : Table n α) (object : α) :
    (∃ i, T.m_entries i = none ∧
      T.alloc object = ((i.val : Int), ⟨Function.update T.m_entries i (some object)⟩)) ∨
    ((∀ i, T.m_entries i ≠ none) ∧ T.alloc object = (-1, T)) := by
  unfold alloc
  split
  · rename_i i hi
    exact .inl ⟨i, by simpa using List.find?_some hi, rfl⟩
  · rename_i hn
    refine .inr ⟨fun i => ?_, rfl⟩
    have := List.find?_eq_none.mp hn i (List.mem_finRange i)
    simpa using this

@[simp] theorem get_val (T : Table n α) (i : Fin n) : T.get i.val = T.m_entries i := by
  have h : (0 : Int) ≤ i.val ∧ (i.val : Int) < n := by omega
  rw [get, dif_pos h]
  rfl

theorem get_outside (T : Table n α) {index : Int} (h : ¬ (0 ≤ index ∧ index < n)) :
    T.get index = none := dif_neg h

theorem release_val {T : Table n α} {i : Fin n} (h : T.m_entries i ≠ none) :
    T.release i.val = (0, ⟨Function.update T.m_entries i none⟩) := by
  have hi : (0 : Int) ≤ i.val ∧ (i.val : Int) < n := by omega
  rw [release, dif_pos hi]
  exact if_neg (by simpa using h)

/-- An index that is in use is that of a slot. -/
theorem slot_of_get {T : Table n α} {index : Int} {x : α} (h : T.get index = some x) :
    ∃ i : Fin n, index = i.val ∧ T.m_entries i = some x := by
  by_cases hr : 0 ≤ index ∧ index < n
  · refine ⟨⟨index.toNat, by omega⟩, by simp [hr.1], ?_⟩
    rwa [get, dif_pos hr] at h
  · rw [get_outside T hr] at h
    cases h

end Table

/-! ### The stub -/

/-- Where an object lies. -/
abbrev Ptr := Nat

structure OpenFile where
  file : Int
  currentOffset : Int
  type : Int
  deriving DecidableEq

/-- What a `void *` of the table points to. -/
inductive Entry where
  | fileSystem
  | openFile (f : Ptr)
  deriving DecidableEq

/-- `gFileTable`, the `OpenFile` objects there are, and the descriptors that are open on the host
for `fopen`. -/
structure State where
  gFileTable : Table 10 Entry
  heap : Ptr → Option OpenFile
  descriptors : Finset Int

/-- What the host answers: `OpenForReadWrite`, and `new`. -/
structure Host where
  openForReadWrite : List Byte → Int
  new : Ptr

namespace State

/-- `FileSystem::FileSystem`. -/
def new : State where
  gFileTable := (((Table.new.set .fileSystem 0).2).set .fileSystem 1).2
  heap _ := none
  descriptors := ∅

/-- `delete f`, with the destructor of `OpenFile`; `Close` asserts that the descriptor was open. -/
def delete (s : State) (f : Ptr) : Except Stop State :=
  match s.heap f with
  | none => .error .nullDeref
  | some o =>
      if o.file ∈ s.descriptors then
        .ok { s with
          heap := Function.update s.heap f none
          descriptors := s.descriptors.erase o.file }
      else .error .assertFails

/-- `FileSystem::fopen`. -/
def fopen (s : State) (name : List Byte) (type : Int) (host : Host) : Except Stop (Int × State) :=
  if type ≠ 0 ∧ type ≠ 1 then .ok (-1, s)
  else
    let fileDescriptor := host.openForReadWrite name
    if fileDescriptor = -1 then .ok (-1, s)
    -- the host gives out neither a descriptor that is open nor memory that is in use
    else if fileDescriptor ∈ s.descriptors ∨ s.heap host.new ≠ none then .error .disabled
    else
      let f := host.new
      let s := { s with
        heap := Function.update s.heap f (some ⟨fileDescriptor, 0, type⟩)
        descriptors := insert fileDescriptor s.descriptors }
      match s.gFileTable.alloc (.openFile f) with
      | (fid, gFileTable) =>
          if fid = -1 then
            match s.delete f with
            | .ok s => .ok (-1, s)
            | .error e => .error e
          else .ok (fid, { s with gFileTable := gFileTable })

/-- `FileSystem::fclose`. -/
def fclose (s : State) (fid : Int) : Except Stop (Int × State) :=
  if fid < 2 then .ok (-1, s)
  else
    match s.gFileTable.get fid with
    | none => .ok (-1, s)
    -- `delete` of what is no `OpenFile`
    | some .fileSystem => .error .nullDeref
    | some (.openFile f) =>
        match s.delete f with
        | .ok s => .ok (0, { s with gFileTable := (s.gFileTable.release fid).2 })
        | .error e => .error e

/-- `FileSystem::getOpenFile`. -/
def getOpenFile (s : State) (fid : Int) : Option Entry :=
  if fid < 2 then none else s.gFileTable.get fid

end State

inductive Call where
  | fopen (name : List Byte) (type : Int) (host : Host)
  | fclose (fid : Int)
  | getOpenFile (fid : Int)

inductive Answer where
  | ret (r : Int)
  | file (f : Option Entry)
  deriving DecidableEq

def step (s : State) : Call → Except Stop (Answer × State)
  | .fopen name type host =>
      match s.fopen name type host with
      | .ok (r, s) => .ok (.ret r, s)
      | .error e => .error e
  | .fclose fid =>
      match s.fclose fid with
      | .ok (r, s) => .ok (.ret r, s)
      | .error e => .error e
  | .getOpenFile fid => .ok (.file (s.getOpenFile fid), s)

/-! ### What is open -/

/-- An object, and where it lies. -/
abbrev Object := Ptr × OpenFile

/-- The `OpenFile` an `fopen` makes. -/
def made (name : List Byte) (type : Int) (host : Host) : Object :=
  (host.new, ⟨host.openForReadWrite name, 0, type⟩)

/-- What is open after one more call: an `fopen` opens the id it returns, an `fclose` that succeeds
closes its id. -/
def record (m : Int → Option Object) : Call × Answer → Int → Option Object
  | (.fopen name type host, .ret fid) =>
      if fid = -1 then m else Function.update m fid (some (made name type host))
  | (.fclose fid, .ret r) => if r = -1 then m else Function.update m fid none
  | _ => m

/-- **What is open** after the calls of a list: the object of the last `fopen` that returned the id,
when no `fclose` has closed it since. -/
def opened (l : List (Call × Answer)) : Int → Option Object := l.foldl record fun _ => none

theorem opened_snoc (l : List (Call × Answer)) (c : Call × Answer) :
    opened (l ++ [c]) = record (opened l) c := by
  simp [opened]

/-- A table that holds what is open. -/
structure FileInv (m : Int → Option Object) (s : State) : Prop where
  std : s.gFileTable.m_entries 0 = some .fileSystem ∧ s.gFileTable.m_entries 1 = some .fileSystem
  slot : ∀ i : Fin 10, 2 ≤ i.val →
    s.gFileTable.m_entries i = (m i.val).map fun o => .openFile o.1
  range : ∀ fid, m fid ≠ none → 2 ≤ fid ∧ fid ≤ 9
  heap : ∀ f o, s.heap f = some o ↔ ∃ fid, m fid = some (f, o)
  one : ∀ fid fid' o o', m fid = some o → m fid' = some o' →
    o.1 = o'.1 ∨ o.2.file = o'.2.file → fid = fid'
  descriptors : ∀ d, d ∈ s.descriptors ↔ ∃ fid o, m fid = some o ∧ o.2.file = d

/-! ### The calls -/

section
variable {s s' : State} {m : Int → Option Object} {name : List Byte} {type fid r : Int}
  {host : Host}

/-- An `fopen` returns `-1` and has changed nothing, or makes an object for a free slot. -/
theorem fopen_cases (h : s.fopen name type host = .ok (r, s')) :
    (r = -1 ∧ s' = s ∧ ((type ≠ 0 ∧ type ≠ 1) ∨ host.openForReadWrite name = -1 ∨
      ∀ i, s.gFileTable.m_entries i ≠ none)) ∨
    ∃ i : Fin 10, r = i.val ∧ s.gFileTable.m_entries i = none ∧
      host.openForReadWrite name ∉ s.descriptors ∧ s.heap host.new = none ∧
      (type = 0 ∨ type = 1) ∧ host.openForReadWrite name ≠ -1 ∧
      s' =
        { gFileTable := ⟨Function.update s.gFileTable.m_entries i (some (.openFile host.new))⟩
          heap := Function.update s.heap host.new (some (made name type host).2)
          descriptors := insert (host.openForReadWrite name) s.descriptors } := by
  unfold State.fopen at h
  dsimp only at h
  split at h
  · rename_i ht
    cases h
    exact .inl ⟨rfl, rfl, .inl ht⟩
  rename_i ht
  split at h
  · rename_i hd
    cases h
    exact .inl ⟨rfl, rfl, .inr (.inl hd)⟩
  rename_i hd
  split at h
  · cases h
  rename_i hfree
  rw [not_or, not_not] at hfree
  rcases s.gFileTable.alloc_cases (.openFile host.new) with ⟨i, hi, he⟩ | ⟨hfull, he⟩ <;>
    rw [he] at h
  · refine .inr ⟨i, ?_⟩
    rw [if_neg (show ¬ (i.val : Int) = -1 by omega)] at h
    cases h
    exact ⟨rfl, hi, hfree.1, hfree.2, by tauto, hd, rfl⟩
  · -- the descriptor that was opened is closed again
    rw [if_pos rfl] at h
    simp only [State.delete, Function.update_self, Finset.mem_insert_self, if_true] at h
    cases h
    refine .inl ⟨rfl, ?_, .inr (.inr hfull)⟩
    rw [Finset.erase_insert hfree.1, Function.update_idem, Function.update_eq_self_iff.mpr
      hfree.2.symm]

theorem FileInv.slot_of_open (h : FileInv m s) {o : Object} (ho : m fid = some o) :
    ∃ i : Fin 10, fid = i.val ∧ 2 ≤ i.val ∧
      s.gFileTable.m_entries i = some (.openFile o.1) := by
  obtain ⟨h₁, h₂⟩ := h.range fid (by rw [ho]; simp)
  have hi : ((⟨fid.toNat, by omega⟩ : Fin 10).val : Int) = fid := Int.toNat_of_nonneg (by omega)
  refine ⟨⟨fid.toNat, by omega⟩, hi.symm, by simp only; omega, ?_⟩
  rw [h.slot _ (by simp only; omega), hi, ho]
  rfl

theorem FileInv.getOpenFile_eq (h : FileInv m s) (fid : Int) :
    s.getOpenFile fid = (m fid).map fun o => .openFile o.1 := by
  unfold State.getOpenFile
  cases ho : m fid with
  | some o =>
      obtain ⟨i, rfl, hi, he⟩ := h.slot_of_open ho
      rw [if_neg (by omega), Table.get_val, he]
      rfl
  | none =>
      split
      · rfl
      rename_i hlt
      by_contra hne
      obtain ⟨x, hx⟩ := Option.ne_none_iff_exists'.mp hne
      obtain ⟨i, rfl, he⟩ := Table.slot_of_get hx
      rw [h.slot i (by omega), ho] at he
      cases he

/-- An `fclose` closes what is open, and answers `-1` to anything else. -/
theorem FileInv.fclose_eq (h : FileInv m s) (fid : Int) :
    (m fid = none ∧ s.fclose fid = .ok (-1, s)) ∨
    ∃ (i : Fin 10) (o : Object), fid = i.val ∧ 2 ≤ i.val ∧ m fid = some o ∧
      s.fclose fid = .ok (0,
        { gFileTable := ⟨Function.update s.gFileTable.m_entries i none⟩
          heap := Function.update s.heap o.1 none
          descriptors := s.descriptors.erase o.2.file }) := by
  cases ho : m fid with
  | some o =>
      obtain ⟨i, rfl, hi, he⟩ := h.slot_of_open ho
      refine .inr ⟨i, o, rfl, hi, rfl, ?_⟩
      have hheap : s.heap o.1 = some o.2 := (h.heap o.1 o.2).mpr ⟨_, ho⟩
      have hdesc : o.2.file ∈ s.descriptors := (h.descriptors _).mpr ⟨_, o, ho, rfl⟩
      have hrel := Table.release_val (T := s.gFileTable) (i := i) (by rw [he]; simp)
      unfold State.fclose
      rw [if_neg (by omega), Table.get_val, he]
      simp only [State.delete, hheap, hdesc, if_true, hrel]
  | none =>
      refine .inl ⟨rfl, ?_⟩
      have hget := h.getOpenFile_eq fid
      rw [ho] at hget
      unfold State.getOpenFile at hget
      unfold State.fclose
      split
      · rfl
      · rename_i hlt
        rw [if_neg hlt] at hget
        rw [hget]
        rfl

/-- A slot that is free holds nothing that is open. -/
theorem FileInv.of_free (h : FileInv m s) {i : Fin 10} (hi : s.gFileTable.m_entries i = none) :
    2 ≤ i.val ∧ m i.val = none := by
  have h₂ : 2 ≤ i.val := by
    by_contra hlt
    obtain rfl | rfl : i = 0 ∨ i = 1 := by omega
    · rw [h.std.1] at hi; cases hi
    · rw [h.std.2] at hi; cases hi
  rw [h.slot i h₂] at hi
  exact ⟨h₂, Option.map_eq_none_iff.mp hi⟩

/-- A slot behind the first two is changed, in the table as in `m`. -/
theorem FileInv.std_update {i : Fin 10} {e : Option Entry} (h : FileInv m s) (h₂ : 2 ≤ i.val) :
    Function.update s.gFileTable.m_entries i e 0 = some .fileSystem ∧
      Function.update s.gFileTable.m_entries i e 1 = some .fileSystem := by
  have hne : ∀ k : Fin 10, k.val < 2 → k ≠ i := by
    rintro k hk rfl
    omega
  rw [Function.update_of_ne (hne 0 (by decide)), Function.update_of_ne (hne 1 (by decide))]
  exact h.std

theorem FileInv.slot_update {o : Option Object} {e : Option Entry} (h : FileInv m s) (i : Fin 10)
    (he : e = o.map fun o => .openFile o.1) (k : Fin 10) (hk : 2 ≤ k.val) :
    Function.update s.gFileTable.m_entries i e k =
      (Function.update m i.val o k.val).map fun o => .openFile o.1 := by
  by_cases hki : k = i
  · rw [hki, Function.update_self, Function.update_self, he]
  · rw [Function.update_of_ne hki, Function.update_of_ne fun hval => hki (Fin.ext (by omega))]
    exact h.slot k hk

theorem FileInv.insert {o : Object} {i : Fin 10} (h : FileInv m s)
    (hi : s.gFileTable.m_entries i = none) (hd : o.2.file ∉ s.descriptors)
    (hheap : s.heap o.1 = none) :
    FileInv (Function.update m i.val (some o))
      { gFileTable := ⟨Function.update s.gFileTable.m_entries i (some (.openFile o.1))⟩
        heap := Function.update s.heap o.1 (some o.2)
        descriptors := Insert.insert o.2.file s.descriptors } := by
  obtain ⟨h₂, hm⟩ := h.of_free hi
  -- what is open already is another object, with another descriptor
  have hother : ∀ k o', m k = some o' → o'.1 ≠ o.1 ∧ o'.2.file ≠ o.2.file := by
    intro k o' ho'
    refine ⟨fun e => ?_, fun e => hd (e ▸ (h.descriptors _).mpr ⟨k, o', ho', rfl⟩)⟩
    rw [← e, (h.heap o'.1 o'.2).mpr ⟨k, ho'⟩] at hheap
    cases hheap
  refine ⟨h.std_update h₂, h.slot_update i rfl, fun fid hfid => ?_, fun f x => ?_,
    fun fid fid' x x' hx hx' he => ?_, fun d => ?_⟩ <;> try dsimp only
  · by_cases e : fid = i.val
    · omega
    · rw [Function.update_of_ne e] at hfid; exact h.range fid hfid
  · by_cases e : f = o.1
    · rw [e, Function.update_self, Option.some.injEq]
      constructor
      · rintro rfl; exact ⟨i.val, Function.update_self ..⟩
      · rintro ⟨k, hk⟩
        by_cases ek : k = i.val
        · rw [ek, Function.update_self] at hk
          exact (congrArg Prod.snd (Option.some.inj hk))
        · rw [Function.update_of_ne ek] at hk
          exact absurd rfl (hother k _ hk).1
    · rw [Function.update_of_ne e, h.heap]
      refine exists_congr fun k => ?_
      by_cases ek : k = i.val
      · rw [ek, Function.update_self, hm]
        refine iff_of_false (by simp) ?_
        rintro ⟨⟩
        exact e rfl
      · rw [Function.update_of_ne ek]
  · by_cases e : fid = i.val <;> by_cases e' : fid' = i.val
    · rw [e, e']
    · rw [e, Function.update_self] at hx
      rw [Function.update_of_ne e'] at hx'
      cases hx
      obtain ⟨g₁, g₂⟩ := hother fid' x' hx'
      exact (he.elim (fun q => g₁ q.symm) fun q => g₂ q.symm).elim
    · rw [Function.update_of_ne e] at hx
      rw [e', Function.update_self] at hx'
      cases hx'
      obtain ⟨g₁, g₂⟩ := hother fid x hx
      exact (he.elim g₁ g₂).elim
    · rw [Function.update_of_ne e] at hx
      rw [Function.update_of_ne e'] at hx'
      exact h.one fid fid' x x' hx hx' he
  · rw [Finset.mem_insert, h.descriptors]
    constructor
    · rintro (rfl | ⟨k, x, hx, rfl⟩)
      · exact ⟨i.val, o, Function.update_self .., rfl⟩
      · refine ⟨k, x, ?_, rfl⟩
        rw [Function.update_of_ne, hx]
        rintro rfl
        rw [hm] at hx
        cases hx
    · rintro ⟨k, x, hx, rfl⟩
      by_cases e : k = i.val
      · rw [e, Function.update_self] at hx; cases hx; exact .inl rfl
      · rw [Function.update_of_ne e] at hx; exact .inr ⟨k, x, hx, rfl⟩

theorem FileInv.erase {o : Object} {i : Fin 10} (h : FileInv m s) (h₂ : 2 ≤ i.val)
    (ho : m i.val = some o) :
    FileInv (Function.update m i.val none)
      { gFileTable := ⟨Function.update s.gFileTable.m_entries i none⟩
        heap := Function.update s.heap o.1 none
        descriptors := s.descriptors.erase o.2.file } := by
  have hkeep : ∀ {k x}, Function.update m i.val none k = some x ↔ k ≠ i.val ∧ m k = some x := by
    intro k x
    by_cases e : k = i.val
    · rw [e, Function.update_self]; simp
    · rw [Function.update_of_ne e]; simp [e]
  refine ⟨h.std_update h₂, h.slot_update i rfl, fun fid hfid => ?_, fun f x => ?_,
    fun fid fid' x x' hx hx' he => ?_, fun d => ?_⟩ <;> try dsimp only
  · obtain ⟨x, hx⟩ := Option.ne_none_iff_exists'.mp hfid
    exact h.range fid (by rw [(hkeep.mp hx).2]; simp)
  · simp only [hkeep]
    by_cases e : f = o.1
    · rw [e, Function.update_self]
      refine iff_of_false (by simp) ?_
      rintro ⟨k, hk, hx⟩
      exact hk (h.one k i.val _ _ hx ho (.inl rfl))
    · rw [Function.update_of_ne e, h.heap]
      refine exists_congr fun k => ⟨fun hx => ⟨?_, hx⟩, fun hx => hx.2⟩
      rintro rfl
      rw [ho] at hx
      cases hx
      exact e rfl
  · exact h.one fid fid' x x' (hkeep.mp hx).2 (hkeep.mp hx').2 he
  · rw [Finset.mem_erase, h.descriptors]
    simp only [hkeep]
    constructor
    · rintro ⟨hd, k, x, hx, rfl⟩
      refine ⟨k, x, ⟨?_, hx⟩, rfl⟩
      rintro rfl
      rw [ho] at hx
      cases hx
      exact hd rfl
    · rintro ⟨k, x, ⟨hk, hx⟩, rfl⟩
      exact ⟨fun e => hk (h.one k i.val x o hx ho (.inr e)), k, x, hx, rfl⟩

theorem new_inv : FileInv (fun _ => none) State.new := by
  refine ⟨⟨rfl, rfl⟩, fun i hi => ?_, fun fid h => absurd rfl h, fun f o => ?_,
    fun fid fid' o o' h => (by cases h), fun d => ?_⟩
  · have : ∀ i : Fin 10, 2 ≤ i.val → State.new.gFileTable.m_entries i = none := by decide
    exact this i hi
  · exact iff_of_false (by simp [State.new]) (by simp)
  · exact iff_of_false (by simp [State.new]) (by simp)

/-- A call keeps the table and what is open together. -/
theorem FileInv.keeps {c : Call} {a : Answer} (h : FileInv m s) (hs : step s c = .ok (a, s')) :
    FileInv (record m (c, a)) s' := by
  cases c with
  | fopen name type host =>
      simp only [Filesys.step] at hs
      split at hs
      · rename_i r s₁ hr
        cases hs
        rcases fopen_cases hr with ⟨rfl, rfl, -⟩ | ⟨i, rfl, hi, hd, hheap, -, -, rfl⟩
        · exact h
        · rw [record, if_neg (show ¬ (i.val : Int) = -1 by omega)]
          exact h.insert (o := made name type host) hi hd hheap
      · cases hs
  | fclose fid =>
      simp only [Filesys.step] at hs
      rcases h.fclose_eq fid with ⟨-, e⟩ | ⟨i, o, rfl, hi, ho, e⟩ <;> rw [e] at hs <;> cases hs
      · exact h
      · exact h.erase hi ho
  | getOpenFile fid => cases hs; exact h

theorem trace_inv {l : List (Call × Answer)} (h : Trace step .new l s) : FileInv (opened l) s := by
  refine h.inv (I := fun l s => FileInv (opened l) s) new_inv fun l s c a s' hI hs => ?_
  rw [opened_snoc]
  exact hI.keeps hs

/-- Only a host that gives out what is in use stops an `fopen`. -/
theorem fopen_error {e : Stop} (h : s.fopen name type host = .error e) :
    e = .disabled ∧ host.openForReadWrite name ≠ -1 ∧
      (host.openForReadWrite name ∈ s.descriptors ∨ s.heap host.new ≠ none) := by
  unfold State.fopen at h
  dsimp only at h
  split at h
  · cases h
  split at h
  · cases h
  rename_i hd
  split at h
  · rename_i hused
    cases h
    exact ⟨rfl, hd, hused⟩
  split at h
  · simp only [State.delete, Function.update_self, Finset.mem_insert_self, if_true] at h
    cases h
  · cases h

/-- No call deletes what is no object, or closes a descriptor that is not open. -/
theorem FileInv.no_error {c : Call} {e : Stop} (h : FileInv m s) (hs : step s c = .error e) :
    e = .disabled := by
  cases c with
  | fopen name type host =>
      simp only [Filesys.step] at hs
      split at hs
      · cases hs
      · rename_i hf
        cases hs
        exact (fopen_error hf).1
  | fclose fid =>
      simp only [Filesys.step] at hs
      rcases h.fclose_eq fid with ⟨-, e⟩ | ⟨i, o, -, -, -, e⟩ <;> rw [e] at hs <;> cases hs
  | getOpenFile fid => cases hs

/-- **The table of open files refines a finite map.**  After any calls: `getOpenFile` returns the
object of the last `fopen` that returned the id, while it is open, and `NULL` for every other
integer; an `fopen` returns an id from 2 to 9 that is not open, an `fclose` closes what is open, and
either returns `-1` without having changed anything; the slots 0 and 1 stay as they are; the
descriptors that are open are those of the objects in the other slots; and no call breaks the
table. -/
theorem fileTable_refines {l : List (Call × Answer)} (h : Trace step .new l s) :
    (∀ fid, s.getOpenFile fid = (opened l fid).map fun o => .openFile o.1) ∧
    (∀ fid o, opened l fid = some o → 2 ≤ fid ∧ fid ≤ 9 ∧ s.heap o.1 = some o.2) ∧
    (∀ name type host r s', s.fopen name type host = .ok (r, s') →
      (r = -1 ∧ s' = s) ∨ (2 ≤ r ∧ r ≤ 9 ∧ opened l r = none)) ∧
    (∀ fid r s', s.fclose fid = .ok (r, s') →
      (r = -1 ∧ s' = s ∧ opened l fid = none) ∨ (r = 0 ∧ opened l fid ≠ none)) ∧
    (∀ i : Fin 10, i.val < 2 → s.gFileTable.m_entries i = some .fileSystem) ∧
    (∀ d, d ∈ s.descriptors ↔ ∃ (i : Fin 10) (f : Ptr) (o : OpenFile), 2 ≤ i.val ∧
      s.gFileTable.m_entries i = some (.openFile f) ∧ s.heap f = some o ∧ o.file = d) ∧
    (∀ c e, step s c = .error e → e = .disabled) := by
  have hI := trace_inv h
  refine ⟨hI.getOpenFile_eq, fun fid o ho => ?_, fun name type host r s' hr => ?_,
    fun fid r s' hr => ?_, fun i hi => ?_, fun d => ?_, fun c e => hI.no_error⟩
  · obtain ⟨h₁, h₂⟩ := hI.range fid (by rw [ho]; simp)
    exact ⟨h₁, h₂, (hI.heap _ _).mpr ⟨fid, ho⟩⟩
  · rcases fopen_cases hr with ⟨hr, hs, -⟩ | ⟨i, rfl, hi, -⟩
    · exact .inl ⟨hr, hs⟩
    · obtain ⟨h₂, hm⟩ := hI.of_free hi
      exact .inr ⟨by omega, by omega, hm⟩
  · rcases hI.fclose_eq fid with ⟨hm, e⟩ | ⟨i, o, rfl, -, ho, e⟩ <;> rw [e] at hr <;> cases hr
    · exact .inl ⟨rfl, rfl, hm⟩
    · exact .inr ⟨rfl, by rw [ho]; simp⟩
  · obtain rfl | rfl : i = 0 ∨ i = 1 := by omega
    · exact hI.std.1
    · exact hI.std.2
  · rw [hI.descriptors]
    constructor
    · rintro ⟨fid, o, ho, rfl⟩
      obtain ⟨i, rfl, hi, he⟩ := hI.slot_of_open ho
      exact ⟨i, o.1, o.2, hi, he, (hI.heap _ _).mpr ⟨_, ho⟩, rfl⟩
    · rintro ⟨i, f, o, hi, he, hf, rfl⟩
      rw [hI.slot i hi] at he
      obtain ⟨x, hx, hxf⟩ := Option.map_eq_some_iff.mp he
      cases hxf
      have := (hI.heap x.1 x.2).mpr ⟨_, hx⟩
      rw [hf] at this
      cases this
      exact ⟨_, x, hx, rfl⟩

end

/-- Two files are opened, the first is closed, and a third gets its id and its descriptor. -/
theorem fileTable_refines_reopen : ∃ l s, Trace step .new l s ∧
    l.map Prod.snd = [.ret 2, .ret 3, .ret 0, .ret 2] ∧
    (opened l 2).map (fun o => Entry.openFile o.1) = some (.openFile 102) ∧
    opened l 4 = none ∧ s.descriptors = {5, 6} := by
  obtain ⟨⟨l, s⟩, hl, hp⟩ := (Option.any_eq_true ..).mp (show (trace step .new
    [.fopen [97] 0 ⟨fun _ => 5, 100⟩, .fopen [98] 1 ⟨fun _ => 6, 101⟩, .fclose 2,
      .fopen [99] 0 ⟨fun _ => 5, 102⟩]).any (fun x =>
        x.1.map Prod.snd = [.ret 2, .ret 3, .ret 0, .ret 2] ∧
          x.2.getOpenFile 2 = some (.openFile 102) ∧ x.2.getOpenFile 4 = none ∧
          x.2.descriptors = {5, 6}) = true by decide +kernel)
  obtain ⟨hans, h₂, h₄, hd⟩ := of_decide_eq_true hp
  have htr := Trace.of_trace hl
  have hget := (fileTable_refines htr).1
  rw [hget] at h₂ h₄
  exact ⟨l, s, htr, hans, h₂, Option.map_eq_none_iff.mp h₄, hd⟩

end Nachos.Filesys
