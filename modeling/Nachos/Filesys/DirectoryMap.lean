import Nachos.Filesys.Directory
import Nachos.Lib.Traces

/-!
# Filesys — the directory is a map

`class Directory` (filesys/directory.cc) with a table of any size, entry by entry.  A name is copied
into an entry by `strncpy`, which may leave no terminator, and compared by `strncmp`: two names are
the same to a directory when their first `FileNameMaxLen` characters are.

* `directory_is_map`: over every sequence of `Add` and `Remove`, the table is the map from names to
  the sectors they were last added with; and it is the same map after it has been written to a file
  and fetched from there.
* `findIndex_entries`, `entries_setEntry`, `entries_clearEntry`: the table of the file system, whose
  bytes are in `Directory`, is such a table.
-/

namespace Nachos
open Lib CString
open OpenFile (byteAt)

/-- `class DirectoryEntry`. -/
@[ext] structure DirectoryEntry where
  inUse : Bool
  sector : Word
  name : Fin (FileNameMaxLen + 1) → Byte

/-- What a directory sees of a name. -/
def nameKey (name : List Byte) : List Byte := strn FileNameMaxLen name

namespace DirectoryEntry

def key (e : DirectoryEntry) : List Byte := nameKey (List.ofFn e.name)

/-- The three assignments of `Add`: `strncpy` fills all but the last byte of `name`. -/
def assign (e : DirectoryEntry) (name : List Byte) (newSector : Word) : DirectoryEntry where
  inUse := true
  sector := newSector
  name := fun j => ((strncpy FileNameMaxLen name)[j.val]?).getD (e.name j)

theorem key_assign (e : DirectoryEntry) (name : List Byte) (newSector : Word) :
    (e.assign name newSector).key = nameKey name := by
  have hlen := length_strncpy FileNameMaxLen name
  have hof : List.ofFn (e.assign name newSector).name =
      strncpy FileNameMaxLen name ++ [e.name (Fin.last FileNameMaxLen)] := by
    apply List.ext_getElem
    · rw [List.length_ofFn, List.length_append, hlen, List.length_singleton]
    · intro j h₁ h₂
      rw [List.getElem_ofFn]
      unfold assign
      dsimp only
      by_cases hj : j < (strncpy FileNameMaxLen name).length
      · rw [List.getElem_append_left hj, List.getElem?_eq_getElem hj, Option.getD_some]
      · rw [List.length_ofFn] at h₁
        have hj' : j = FileNameMaxLen := by omega
        subst hj'
        rw [List.getElem?_eq_none (by omega), Option.getD_none,
          List.getElem_append_right (by omega), List.getElem_singleton]
        rfl
  rw [key, hof, nameKey, strn_append hlen, strn_strncpy, nameKey]

end DirectoryEntry

/-- `class Directory`. -/
structure DirTable (tableSize : Nat) where
  table : Fin tableSize → DirectoryEntry

namespace DirTable
variable {n : Nat}

/-- `table[i] = e`. -/
def set (t : DirTable n) (i : Fin n) (e : DirectoryEntry) : DirTable n :=
  ⟨Function.update t.table i e⟩

/-- `table[i].inUse = FALSE`. -/
def unuse (t : DirTable n) (i : Fin n) : DirTable n := t.set i { t.table i with inUse := false }

/-- `Directory::Directory`: the entries of a new array are arbitrary, and no entry is in use. -/
def new (heap : Fin n → DirectoryEntry) : DirTable n := (List.finRange n).foldl unuse ⟨heap⟩

/-- `Directory::FindIndex`; `none` is `-1`. -/
def findIndex (t : DirTable n) (name : List Byte) : Option (Fin n) :=
  (List.finRange n).find? fun i => (t.table i).inUse &&
    strncmp FileNameMaxLen (List.ofFn (t.table i).name) name == 0

/-- `Directory::Find`. -/
def find (t : DirTable n) (name : List Byte) : Int :=
  (t.findIndex name).elim (-1) fun i => (t.table i).sector.toInt

/-- `Directory::Add`. -/
def add (t : DirTable n) (name : List Byte) (newSector : Word) : Bool × DirTable n :=
  if (t.findIndex name).isSome then (false, t)
  else
    match (List.finRange n).find? fun i => !(t.table i).inUse with
    | some i => (true, t.set i ((t.table i).assign name newSector))
    | none => (false, t)

/-- `Directory::Remove`. -/
def remove (t : DirTable n) (name : List Byte) : Bool × DirTable n :=
  match t.findIndex name with
  | some i => (true, t.unuse i)
  | none => (false, t)

/-! ### A table in a file -/

/-- The bytes of an entry; `pad` is what is between its fields and behind them. -/
def entryByte (e : DirectoryEntry) (pad : Byte) (k : Nat) : Byte :=
  if k = 0 then (if e.inUse then 1 else 0)
  else if 4 ≤ k ∧ k < 8 then byteOf e.sector (k - 4)
  else if h : 8 ≤ k ∧ k < 8 + (FileNameMaxLen + 1) then e.name ⟨k - 8, by omega⟩
  else pad

/-- The bytes of the table in memory. -/
def bytes (t : DirTable n) (pad : Nat → Byte) : Nat → Byte := fun x =>
  if h : x / entrySize < n then entryByte (t.table ⟨x / entrySize, h⟩) (pad x) (x % entrySize)
  else pad x

/-- The entry whose bytes are at `a`. -/
def entryAt (f : Nat → Byte) (a : Nat) : DirectoryEntry where
  inUse := f a != 0
  sector := wordAt f (a + 4)
  name := fun j => f (a + 8 + j)

def ofBytes (f : Nat → Byte) : DirTable n := ⟨fun i => entryAt f (entrySize * i)⟩

/-- `Directory::FetchFrom`. -/
def fetchFrom (t : DirTable n) (d : Disk) (file : FileHeader) (pad heap : Nat → Byte) :
    Except Stop (DirTable n) := do
  let buf ← OpenFile.fetch d file heap (t.bytes pad) (n * entrySize)
  .ok (ofBytes buf)

/-- `Directory::WriteBack`. -/
def writeBack (t : DirTable n) (d : Disk) (file : FileHeader) (pad heap : Nat → Byte) :
    Except Stop Disk :=
  OpenFile.store d file heap (t.bytes pad) (n * entrySize)

/-- The bytes of an entry of the table. -/
theorem bytes_entry (t : DirTable n) (pad : Nat → Byte) (i : Fin n) {k : Nat} (hk : k < entrySize) :
    t.bytes pad (entrySize * i + k) = entryByte (t.table i) (pad (entrySize * i + k)) k := by
  have hdiv : (entrySize * i.val + k) / entrySize = i.val := by unfold entrySize at *; omega
  have hmod : (entrySize * i.val + k) % entrySize = k := by unfold entrySize at *; omega
  unfold bytes
  simp only [hdiv, hmod, i.isLt, dif_pos]

/-- A table is read back from its bytes. -/
theorem ofBytes_bytes (t : DirTable n) (pad : Nat → Byte) : ofBytes (t.bytes pad) = t := by
  obtain ⟨table⟩ := t
  unfold ofBytes
  congr 1
  funext i
  have hb : ∀ {k}, k < entrySize → _ := bytes_entry ⟨table⟩ pad i
  have hsize : entrySize = 20 := rfl
  have h₀ : entrySize * i.val = entrySize * i.val + 0 := rfl
  unfold entryAt
  rw [show table i = ⟨(table i).inUse, (table i).sector, (table i).name⟩ from rfl]
  congr 1
  · rw [h₀, hb (by omega), entryByte, if_pos rfl]
    cases (table i).inUse <;> rfl
  · apply wordAt_eq
    intro k hk
    rw [Nat.add_assoc, hb (by omega), entryByte, if_neg (by omega), if_pos (by omega)]
    congr 1
    omega
  · funext j
    have hj : j.val < FileNameMaxLen + 1 := j.isLt
    have hlen : FileNameMaxLen = 9 := rfl
    rw [Nat.add_assoc, hb (by omega), entryByte, if_neg (by omega), if_neg (by omega),
      dif_pos (by omega)]
    congr 1
    exact Fin.ext (by dsimp only; omega)

/-- An entry depends on its own bytes only. -/
theorem entryAt_congr {f g : Nat → Byte} {a : Nat} (h : ∀ k < entrySize, f (a + k) = g (a + k)) :
    entryAt f a = entryAt g a := by
  have hlen : FileNameMaxLen = 9 := rfl
  have hsize : entrySize = 20 := rfl
  have h₀ : f a = g a := h 0 (by omega)
  unfold entryAt
  congr 1
  · rw [h₀]
  · exact wordAt_congr fun k hk => by rw [Nat.add_assoc]; exact h _ (by omega)
  · funext j
    rw [Nat.add_assoc]
    exact h _ (by omega)

theorem ofBytes_congr {f g : Nat → Byte} (h : ∀ x < n * entrySize, f x = g x) :
    (ofBytes f : DirTable n) = ofBytes g := by
  unfold ofBytes
  congr 1
  funext i
  refine entryAt_congr fun k hk => h _ ?_
  have := i.isLt
  unfold entrySize at *
  omega

/-- **What is written back is fetched again**, from a file with room for the table. -/
theorem fetchFrom_writeBack (t t' : DirTable n) {d : Disk} {file : FileHeader} {l : List Sector}
    (h : file.Laid l) (hroom : (n * entrySize : Nat) ≤ file.fileLength)
    (pad pad' heap heap' : Nat → Byte) :
    ∃ d', t.writeBack d file pad heap = .ok d' ∧ t'.fetchFrom d' file pad' heap' = .ok t := by
  have hlt := OpenFile.fileLength_lt file
  have hall : OpenFile.transferred file.fileLength (n * entrySize : Nat) 0 = (n * entrySize : Nat) := by
    unfold OpenFile.transferred
    split <;> omega
  obtain ⟨d', he, -, hin⟩ := OpenFile.writeAt_eq h d heap (t.bytes pad) le_rfl
    (show (0 : Int) + (n * entrySize : Nat) < 2 ^ 31 by omega)
  refine ⟨d', by rw [writeBack, OpenFile.store, he]; rfl, ?_⟩
  rw [fetchFrom, OpenFile.fetch, OpenFile.readAt_eq h d' heap' le_rfl (by omega), hall]
  refine congrArg Except.ok ((ofBytes_congr fun x hx => ?_).trans (t.ofBytes_bytes pad))
  rw [OpenFile.bcopy_range, if_pos (by omega), Nat.sub_zero]
  have hx' := hin x (by omega)
  rw [hall, if_pos (by omega)] at hx'
  simpa using hx'

/-! ### What the operations do to the entries -/

section
variable {t t' : DirTable n} {name : List Byte} {i j : Fin n}

/-- The entry `i` is in use and matches the name on its first `FileNameMaxLen` characters. -/
def Matches (t : DirTable n) (name : List Byte) (i : Fin n) : Prop :=
  (t.table i).inUse = true ∧ (t.table i).key = nameKey name

theorem table_set_self (t : DirTable n) (i : Fin n) (e : DirectoryEntry) : (t.set i e).table i = e :=
  Function.update_self ..

theorem table_set_ne (t : DirTable n) (h : j ≠ i) (e : DirectoryEntry) :
    (t.set i e).table j = t.table j := Function.update_of_ne h _ _

theorem inUse_foldl_unuse (l : List (Fin n)) (t : DirTable n) (j : Fin n) :
    ((l.foldl unuse t).table j).inUse = (!decide (j ∈ l) && (t.table j).inUse) := by
  induction l generalizing t with
  | nil => simp
  | cons i l ih =>
      rw [List.foldl_cons, ih]
      by_cases e : j = i
      · subst e
        simp [unuse, table_set_self]
      · rw [unuse, table_set_ne _ e]
        simp [e]

theorem inUse_new (heap : Fin n → DirectoryEntry) (j : Fin n) : ((new heap).table j).inUse = false := by
  simp [new, inUse_foldl_unuse]

/-- **`FindIndex`** returns an entry that matches, and fails only if none does. -/
theorem findIndex_cases (t : DirTable n) (name : List Byte) :
    (∃ i, t.findIndex name = some i ∧ t.Matches name i) ∨
    (t.findIndex name = none ∧ ∀ i, ¬ t.Matches name i) := by
  have hmatch : ∀ i, ((t.table i).inUse &&
      strncmp FileNameMaxLen (List.ofFn (t.table i).name) name == 0) = true ↔ t.Matches name i := by
    intro i
    rw [Bool.and_eq_true, beq_iff_eq, strncmp_eq_zero_iff]
    rfl
  unfold findIndex
  cases hf : (List.finRange n).find? fun i => (t.table i).inUse &&
      strncmp FileNameMaxLen (List.ofFn (t.table i).name) name == 0 with
  | some i => exact .inl ⟨i, rfl, (hmatch i).mp (by simpa using List.find?_some hf)⟩
  | none =>
      refine .inr ⟨rfl, fun i hi => ?_⟩
      exact List.find?_eq_none.mp hf i (List.mem_finRange i) ((hmatch i).mpr hi)

/-- **`Add`** fails, changing nothing, because an entry matches or all are in use, or it assigns an
entry that was not in use. -/
theorem add_cases (t : DirTable n) (name : List Byte) (newSector : Word) :
    (t.add name newSector = (false, t) ∧
      ((∃ i, t.Matches name i) ∨ ∀ i, (t.table i).inUse = true)) ∨
    (∃ i, t.add name newSector = (true, t.set i ((t.table i).assign name newSector)) ∧
      (∀ j, ¬ t.Matches name j) ∧ (t.table i).inUse = false) := by
  unfold add
  rcases t.findIndex_cases name with ⟨i, hf, hi⟩ | ⟨hf, hnone⟩
  · rw [hf, if_pos Option.isSome_some]
    exact .inl ⟨rfl, .inl ⟨i, hi⟩⟩
  · rw [hf, if_neg (by simp)]
    cases hu : (List.finRange n).find? fun i => !(t.table i).inUse with
    | some i => exact .inr ⟨i, rfl, hnone, by simpa using List.find?_some hu⟩
    | none =>
        refine .inl ⟨rfl, .inr fun i => ?_⟩
        simpa using List.find?_eq_none.mp hu i (List.mem_finRange i)

/-- **`Remove`** fails, changing nothing, because no entry matches, or an entry that does is no
longer in use. -/
theorem remove_cases (t : DirTable n) (name : List Byte) :
    (t.remove name = (false, t) ∧ ∀ i, ¬ t.Matches name i) ∨
    (∃ i, t.remove name = (true, t.unuse i) ∧ t.Matches name i) := by
  unfold remove
  rcases t.findIndex_cases name with ⟨i, hf, hi⟩ | ⟨hf, hnone⟩ <;> rw [hf]
  · exact .inr ⟨i, rfl, hi⟩
  · exact .inl ⟨rfl, hnone⟩

/-! ### Runs -/

inductive Call where
  | add (name : List Byte) (newSector : Word)
  | remove (name : List Byte)
  deriving DecidableEq, Repr

def step (t : DirTable n) : Call → Except Stop (Bool × DirTable n)
  | .add name newSector => .ok (t.add name newSector)
  | .remove name => .ok (t.remove name)

/-- What a call that succeeded wrote under a key. -/
def wrote (k : List Byte) : Call × Bool → Option (Option Word)
  | (.add name newSector, true) => if nameKey name = k then some (some newSector) else none
  | (.remove name, true) => if nameKey name = k then some none else none
  | (_, false) => none

/-- The sector of the latest successful `Add` under the key that has not been removed since. -/
def lookup (l : List (Call × Bool)) (k : List Byte) : Option Word := lastWrite (wrote k) l none

/-- The entries in use are the map the calls so far have made. -/
structure IsMap (t : DirTable n) (m : List Byte → Option Word) : Prop where
  one : ∀ i j, (t.table i).inUse = true → (t.table j).inUse = true →
    (t.table i).key = (t.table j).key → i = j
  value : ∀ i, (t.table i).inUse = true → m (t.table i).key = some (t.table i).sector
  entry : ∀ k, m k ≠ none → ∃ i, (t.table i).inUse = true ∧ (t.table i).key = k

variable {m m' : List Byte → Option Word}

theorem IsMap.find (h : IsMap t m) (name : List Byte) :
    t.find name = (m (nameKey name)).elim (-1) BitVec.toInt := by
  unfold DirTable.find
  rcases t.findIndex_cases name with ⟨i, hf, hi, hk⟩ | ⟨hf, hnone⟩
  · rw [hf, ← hk, h.value i hi]
    rfl
  · have hm : m (nameKey name) = none := by
      by_contra hne
      obtain ⟨i, hi⟩ := h.entry _ hne
      exact hnone i hi
    rw [hf, hm]
    rfl

/-- A key that has no entry gets one. -/
theorem IsMap.assign (h : IsMap t m) (hnone : ∀ j, ¬ t.Matches name j) (hi : (t.table i).inUse = false)
    {newSector : Word} (hm : ∀ k, m' k = if nameKey name = k then some newSector else m k) :
    IsMap (t.set i ((t.table i).assign name newSector)) m' := by
  have hkey := (t.table i).key_assign name newSector
  have hold : ∀ j, j ≠ i → (t.set i ((t.table i).assign name newSector)).table j = t.table j :=
    fun j hj => table_set_ne _ hj _
  have hnew := t.table_set_self i ((t.table i).assign name newSector)
  have hne : ∀ j, (t.table j).inUse = true → nameKey name ≠ (t.table j).key :=
    fun j hj e => hnone j ⟨hj, e.symm⟩
  refine ⟨fun j j' hj hj' hk => ?_, fun j hj => ?_, fun k hk => ?_⟩
  · by_cases e : j = i <;> by_cases e' : j' = i
    · rw [e, e']
    · rw [e, hnew, hold j' e', hkey] at hk
      rw [hold j' e'] at hj'
      exact absurd hk (hne j' hj')
    · rw [e', hnew, hold j e, hkey] at hk
      rw [hold j e] at hj
      exact absurd hk.symm (hne j hj)
    · rw [hold j e] at hj hk
      rw [hold j' e'] at hj' hk
      exact h.one j j' hj hj' hk
  · by_cases e : j = i
    · rw [e, hnew, hkey, hm, if_pos rfl]
      rfl
    · rw [hold j e] at hj ⊢
      rw [hm, if_neg (hne j hj), h.value j hj]
  · rw [hm] at hk
    split at hk
    · rename_i e
      exact ⟨i, by rw [hnew]; rfl, by rw [hnew, hkey, e]⟩
    · obtain ⟨j, hj, hjk⟩ := h.entry k hk
      have e : j ≠ i := by
        rintro rfl
        rw [hi] at hj
        cases hj
      exact ⟨j, by rw [hold j e]; exact hj, by rw [hold j e]; exact hjk⟩

/-- An entry in use is given up. -/
theorem IsMap.unuse (h : IsMap t m) (hi : t.Matches name i)
    (hm : ∀ k, m' k = if nameKey name = k then none else m k) : IsMap (t.unuse i) m' := by
  have hold : ∀ j, j ≠ i → (t.unuse i).table j = t.table j := fun j hj => table_set_ne _ hj _
  have huse : ∀ j, ((t.unuse i).table j).inUse = true → j ≠ i := by
    rintro j hj rfl
    rw [DirTable.unuse, table_set_self] at hj
    cases hj
  refine ⟨fun j j' hj hj' hk => ?_, fun j hj => ?_, fun k hk => ?_⟩
  · have e := huse j hj
    have e' := huse j' hj'
    rw [hold j e] at hj hk
    rw [hold j' e'] at hj' hk
    exact h.one j j' hj hj' hk
  · have e := huse j hj
    rw [hold j e] at hj ⊢
    have hne : nameKey name ≠ (t.table j).key := fun hk => e (h.one j i hj hi.1 (hi.2.trans hk).symm)
    rw [hm, if_neg hne, h.value j hj]
  · rw [hm] at hk
    split at hk
    · exact absurd rfl hk
    · rename_i hne
      obtain ⟨j, hj, hjk⟩ := h.entry k hk
      have e : j ≠ i := by
        rintro rfl
        exact hne (hi.2.symm.trans hjk)
      exact ⟨j, by rw [hold j e]; exact hj, by rw [hold j e]; exact hjk⟩

/-- One call: the map of the history with it. -/
theorem step_isMap {l : List (Call × Bool)} {c : Call} {r : Bool} (h : IsMap t (lookup l))
    (hs : step t c = .ok (r, t')) : IsMap t' (lookup (l ++ [(c, r)])) := by
  have hsnoc : ∀ k, lookup (l ++ [(c, r)]) k = (wrote k (c, r)).getD (lookup l k) :=
    fun k => lastWrite_snoc _ _ _ _
  cases c with
  | add name newSector =>
      rcases t.add_cases name newSector with ⟨ha, -⟩ | ⟨i, ha, hnone, hi⟩
      · rw [step, ha] at hs
        cases hs
        rwa [show lookup (l ++ [(Call.add name newSector, false)]) = lookup l from funext hsnoc]
      · rw [step, ha] at hs
        cases hs
        refine h.assign hnone hi fun k => ?_
        rw [hsnoc, wrote]
        split <;> rfl
  | remove name =>
      rcases t.remove_cases name with ⟨hr, -⟩ | ⟨i, hr, hi⟩
      · rw [step, hr] at hs
        cases hs
        rwa [show lookup (l ++ [(Call.remove name, false)]) = lookup l from funext hsnoc]
      · rw [step, hr] at hs
        cases hs
        refine h.unuse hi fun k => ?_
        rw [hsnoc, wrote]
        split <;> rfl

theorem new_isMap (heap : Fin n → DirectoryEntry) : IsMap (new heap) (lookup []) := by
  have hnot : ∀ i, ((new heap).table i).inUse ≠ true := fun i => by rw [inUse_new]; simp
  exact ⟨fun i _ hi => absurd hi (hnot i), fun i hi => absurd hi (hnot i), fun k hk => absurd rfl hk⟩

theorem add_eq_false_iff (t : DirTable n) (name : List Byte) (newSector : Word) :
    (t.add name newSector).1 = false ↔
      (∃ i, t.Matches name i) ∨ ∀ i, (t.table i).inUse = true := by
  rcases t.add_cases name newSector with ⟨ha, hc⟩ | ⟨i, ha, hnone, hi⟩
  · rw [ha]
    exact iff_of_true rfl hc
  · rw [ha]
    refine iff_of_false Bool.noConfusion ?_
    rintro (⟨j, hj⟩ | hall)
    · exact hnone j hj
    · rw [hall i] at hi
      cases hi

theorem remove_eq_false_iff (t : DirTable n) (name : List Byte) :
    (t.remove name).1 = false ↔ ∀ i, ¬ t.Matches name i := by
  rcases t.remove_cases name with ⟨hr, hc⟩ | ⟨i, hr, hi⟩
  · rw [hr]
    exact iff_of_true rfl hc
  · rw [hr]
    exact iff_of_false Bool.noConfusion fun hnone => hnone i hi

theorem step_false {c : Call} (hs : step t c = .ok (false, t')) : t' = t := by
  cases c with
  | add name newSector =>
      rcases t.add_cases name newSector with ⟨ha, -⟩ | ⟨i, ha, -⟩ <;> rw [step, ha] at hs <;> cases hs
      rfl
  | remove name =>
      rcases t.remove_cases name with ⟨hr, -⟩ | ⟨i, hr, -⟩ <;> rw [step, hr] at hs <;> cases hs
      rfl

/-- **The directory is a map keyed by names of nine characters.**  Over every sequence of `Add` and
`Remove` on a new directory of any size, with names of any length: at most one entry in use matches a
name; `Find` returns the sector of the latest successful `Add` under the name that has not been
removed since, and -1 if there is none; `Add` fails iff an entry matches the name or all are in use,
and `Remove` iff none does; a call that fails changes nothing; and a directory that has been written
to a file with room for it and fetched into a new one finds the same. -/
theorem directory_is_map {heap : Fin n → DirectoryEntry} {l : List (Call × Bool)}
    (htr : Trace step (new heap) l t) :
    (∀ name i j, t.Matches name i → t.Matches name j → i = j) ∧
    (∀ name, t.find name = (lookup l (nameKey name)).elim (-1) BitVec.toInt) ∧
    (∀ name newSector, (t.add name newSector).1 = false ↔
      (∃ i, t.Matches name i) ∨ ∀ i, (t.table i).inUse = true) ∧
    (∀ name, (t.remove name).1 = false ↔ ∀ i, ¬ t.Matches name i) ∧
    (∀ c t', step t c = .ok (false, t') → t' = t) ∧
    ∀ (d : Disk) (file : FileHeader) (sectors : List Sector), file.Laid sectors →
      (n * entrySize : Nat) ≤ file.fileLength →
      ∀ (heap' : Fin n → DirectoryEntry) (pad pad' heap₁ heap₂ : Nat → Byte),
        ∃ d' t', t.writeBack d file pad heap₁ = .ok d' ∧
          (new heap').fetchFrom d' file pad' heap₂ = .ok t' ∧ ∀ name, t'.find name = t.find name := by
  have h : IsMap t (lookup l) :=
    htr.inv (I := fun l t => IsMap t (lookup l)) (new_isMap heap) fun _ _ _ _ _ => step_isMap
  refine ⟨fun name i j hi hj => h.one i j hi.1 hj.1 (hi.2.trans hj.2.symm), h.find,
    t.add_eq_false_iff, t.remove_eq_false_iff, fun c t' => step_false, ?_⟩
  intro d file sectors hlaid hroom heap' pad pad' heap₁ heap₂
  obtain ⟨d', hw, hf⟩ := t.fetchFrom_writeBack (d := d) (new heap') hlaid hroom pad pad' heap₁ heap₂
  exact ⟨d', t, hw, hf, fun _ => rfl⟩

end

/-- In a directory of one entry: a name of ten characters is found under another one that agrees on
nine, and a name that differs earlier takes the entry when it has been removed. -/
theorem directory_is_map_one : ∃ (l : List (Call × Bool)) (t : DirTable 1),
    Trace step (new fun _ => ⟨true, 5, fun _ => 7⟩) l t ∧
      l.map Prod.snd = [true, false, false, true, true] ∧
      t.find [98] = 9 ∧ t.find (List.replicate 10 97) = -1 := by
  have h := Trace.of_trace (show trace step (new fun _ : Fin 1 => ⟨true, 5, fun _ => 7⟩)
    [.add (List.replicate 10 97) 3, .add (List.replicate 9 97 ++ [98, 99]) 4, .add [98] 8,
      .remove (List.replicate 9 97), .add [98] 9] = some (_, _) from rfl)
  obtain ⟨-, hfind, -⟩ := directory_is_map h
  refine ⟨_, _, h, rfl, ?_, ?_⟩
  · rw [hfind]; decide
  · rw [hfind]; decide

end DirTable

/-! ### The directory of the file system -/

namespace Directory
variable {directory : Directory} {i j : Index} {name : List Byte}

/-- The entries that the bytes of a directory are. -/
def entries (directory : Directory) : DirTable NumDirEntries := .ofBytes directory.bytes

theorem entries_inUse (directory : Directory) (i : Index) :
    (directory.entries.table i).inUse = directory.inUse i := rfl

theorem entries_name (directory : Directory) (i : Index) :
    List.ofFn (directory.entries.table i).name = directory.name i := by
  apply List.ext_getElem
  · rw [List.length_ofFn, name, List.length_map, List.length_range]
  · intro j h₁ h₂
    rw [List.getElem_ofFn]
    simp only [name, List.getElem_map, List.getElem_range]
    rfl

theorem findIndex_entries (directory : Directory) (name : List Byte) :
    directory.findIndex name = directory.entries.findIndex name := by
  unfold findIndex DirTable.findIndex
  simp only [entries_name, entries_inUse]

/-- A byte of the name of a new entry: one of the copy, but for the last one, which stays. -/
theorem name_setEntry_self (directory : Directory) (i : Index) (name : List Byte) (newSector : Word)
    (k : Fin (FileNameMaxLen + 1)) :
    (directory.setEntry i name newSector).bytes (entrySize * i + 8 + k) =
      ((strncpy FileNameMaxLen name)[k.val]?).getD (directory.bytes (entrySize * i + 8 + k)) := by
  have hk : k.val < 10 := k.isLt
  have hlen : FileNameMaxLen = 9 := rfl
  have hsize : entrySize = 20 := rfl
  have hcopy := length_strncpy FileNameMaxLen name
  have hlt := entry_lt i (k := 8 + k.val) (by omega)
  rw [← Nat.add_assoc] at hlt
  rw [bytes_eq directory.table hlt, setEntry, bytes_eq _ hlt]
  dsimp only
  rw [if_neg (by omega), if_neg (by omega)]
  by_cases hk' : k.val < FileNameMaxLen
  · rw [if_pos (by omega), show entrySize * i.val + 8 + k.val - (entrySize * i.val + 8) = k.val by omega,
      List.getElem?_eq_getElem (by omega), Option.getD_some, Option.getD_some]
  · rw [if_neg (by omega), List.getElem?_eq_none (by omega), Option.getD_none]

theorem entries_setEntry (directory : Directory) (i : Index) (name : List Byte) (newSector : Word) :
    (directory.setEntry i name newSector).entries =
      directory.entries.set i ((directory.entries.table i).assign name newSector) := by
  have htable : ∀ j, (directory.setEntry i name newSector).entries.table j =
      (directory.entries.set i ((directory.entries.table i).assign name newSector)).table j := by
    intro j
    by_cases e : j = i
    · subst e
      rw [DirTable.table_set_self]
      refine DirectoryEntry.ext ?_ (sector_setEntry_self ..) (funext fun k => name_setEntry_self ..)
      rw [entries_inUse, inUse_setEntry, decide_eq_true rfl]
      rfl
    · rw [DirTable.table_set_ne _ e]
      exact DirTable.entryAt_congr fun k hk => bytes_setEntry_of_ne e name newSector hk
  exact congrArg DirTable.mk (funext htable)

theorem entries_clearEntry (directory : Directory) (i : Index) :
    (directory.clearEntry i).entries = directory.entries.unuse i := by
  have htable : ∀ j, (directory.clearEntry i).entries.table j =
      (directory.entries.unuse i).table j := by
    intro j
    unfold DirTable.unuse
    by_cases e : j = i
    · subst e
      rw [DirTable.table_set_self]
      refine DirectoryEntry.ext ?_ (sector_clearEntry ..) (funext fun k => bytes_clearEntry_of_ne ?_)
      · rw [entries_inUse, inUse_clearEntry, decide_eq_true rfl]
        rfl
      · omega
    · rw [DirTable.table_set_ne _ e]
      refine DirTable.entryAt_congr fun k hk => bytes_clearEntry_of_ne ?_
      exact entry_ne e hk (m := 0) (by decide)
  exact congrArg DirTable.mk (funext htable)

end Directory

end Nachos
