import Nachos.Filesys.FileHeader
import Nachos.Lib.CString

/-!
# Filesys — the free map and the directory in their files

`BitMap::FetchFrom` and `WriteBack` (userprog/bitmap.cc) and `Directory` (filesys/directory.cc).
Both copy an array to and from the start of a file as it lies in memory: the words of the map, and
the entries of the directory, with the padding between their fields.

`FreeMap.fetchFrom_eq` and `Directory.fetchFrom_eq` say what is fetched from a file of the right
length, and `writeBack_eq` that it is what was written back.  `inUse_setEntry` and its companions say
which bytes of the table an entry is.
-/

namespace Nachos
open Lib

/-! ### An array in a file -/

namespace OpenFile
section
variable {d : Disk} {file : FileHeader} {l : List Sector} {n : Nat}

/-- `file->ReadAt(into, n, 0)`. -/
def fetch (d : Disk) (file : FileHeader) (heap into : Nat → Byte) (n : Nat) :
    Except Stop (Nat → Byte) := do
  let r ← readAt d file heap n 0
  .ok (bcopy r.2 into 0)

/-- `file->WriteAt(from, n, 0)`. -/
def store (d : Disk) (file : FileHeader) (heap fromBuf : Nat → Byte) (n : Nat) :
    Except Stop Disk := do
  let r ← writeAt d file heap fromBuf n 0
  .ok r.2

theorem transferred_all (hn : 0 < n) (hlen : file.fileLength = n) :
    transferred file.fileLength n 0 = n := by
  unfold transferred
  rw [if_neg (by omega)]
  omega

/-- The whole of a file is fetched. -/
theorem fetch_eq (h : file.Laid l) (hn : 0 < n) (hlen : file.fileLength = n)
    (heap into : Nat → Byte) : ∃ buf, fetch d file heap into n = .ok buf ∧
      ∀ x < n, buf x = byteAt d l x := by
  have hlt := fileLength_lt file
  refine ⟨_, by rw [fetch, readAt_eq h d heap le_rfl (by omega)]; rfl, fun x hx => ?_⟩
  rw [transferred_all hn hlen]
  unfold bcopy
  rw [if_pos (Nat.zero_le x), List.getElem?_map, List.getElem?_range (by omega), Option.map_some,
    Option.getD_some]
  congr 1
  omega

/-- The whole of a file is stored, and no other sector is changed. -/
theorem store_eq (h : file.Laid l) (hn : 0 < n) (hlen : file.fileLength = n)
    (heap fromBuf : Nat → Byte) : ∃ d', store d file heap fromBuf n = .ok d' ∧
      (∀ s, s ∉ l → d' s = d s) ∧ ∀ x < n, byteAt d' l x = fromBuf x := by
  have hlt := fileLength_lt file
  obtain ⟨d', he, hout, hin⟩ := writeAt_eq h d heap fromBuf le_rfl
    (show (0 : Int) + n < 2 ^ 31 by omega)
  refine ⟨d', by rw [store, he]; rfl, hout, fun x hx => ?_⟩
  rw [hin x (by omega), transferred_all hn hlen, if_pos (by omega)]
  rfl

end
end OpenFile

open OpenFile (byteAt)

section
variable {d : Disk} {file : FileHeader} {l : List Sector}

/-! ### The free map -/

/-- `#define FreeMapFileSize (NumSectors / BitsInByte)`. -/
def FreeMapFileSize : Nat := NumSectors / 8

namespace FreeMap

/-- The words of a map that lie at the start of a buffer. -/
def ofBytes (f : Nat → Byte) : FreeMap := ⟨fun i => wordAt f (4 * i.val)⟩

/-- And their bytes. -/
def bytes (freeMap : FreeMap) : Nat → Byte := fun x =>
  if h : x / 4 < divRoundUp NumSectors BitsInWord then byteOf (freeMap.map ⟨x / 4, h⟩) (x % 4)
  else 0

/-- `BitMap::FetchFrom`. -/
def fetchFrom (freeMap : FreeMap) (d : Disk) (file : FileHeader) (heap : Nat → Byte) :
    Except Stop FreeMap := do
  let buf ← OpenFile.fetch d file heap freeMap.bytes (divRoundUp NumSectors BitsInWord * 4)
  .ok (ofBytes buf)

/-- `BitMap::WriteBack`. -/
def writeBack (freeMap : FreeMap) (d : Disk) (file : FileHeader) (heap : Nat → Byte) :
    Except Stop Disk :=
  OpenFile.store d file heap freeMap.bytes (divRoundUp NumSectors BitsInWord * 4)

theorem ofBytes_congr {f g : Nat → Byte} (h : ∀ x < FreeMapFileSize, f x = g x) :
    ofBytes f = ofBytes g := by
  unfold ofBytes
  congr 1
  funext i
  have hi : i.val < 32 := i.isLt
  have hs : FreeMapFileSize = 128 := rfl
  exact wordAt_congr fun k hk => h _ (by omega)

/-- A map is read back from its bytes. -/
theorem ofBytes_bytes (freeMap : FreeMap) : ofBytes freeMap.bytes = freeMap := by
  obtain ⟨map⟩ := freeMap
  unfold ofBytes
  congr 1
  funext i
  have hi : i.val < 32 := i.isLt
  apply wordAt_eq
  intro k hk
  have hdiv : (4 * i.val + k) / 4 = i.val := by omega
  have hmod : (4 * i.val + k) % 4 = k := by omega
  unfold bytes
  simp only [hdiv, hmod]
  rw [dif_pos i.isLt]

theorem fetchFrom_eq (freeMap : FreeMap) (h : file.Laid l)
    (hlen : file.fileLength = FreeMapFileSize) (heap : Nat → Byte) :
    freeMap.fetchFrom d file heap = .ok (ofBytes (byteAt d l)) := by
  obtain ⟨buf, hb, hx⟩ := OpenFile.fetch_eq (d := d) h (by decide) hlen heap freeMap.bytes
  rw [fetchFrom]
  show (OpenFile.fetch d file heap freeMap.bytes FreeMapFileSize).bind _ = _
  rw [hb]
  exact congrArg Except.ok (ofBytes_congr hx)

theorem writeBack_eq (freeMap : FreeMap) (h : file.Laid l)
    (hlen : file.fileLength = FreeMapFileSize) (heap : Nat → Byte) :
    ∃ d', freeMap.writeBack d file heap = .ok d' ∧ (∀ s, s ∉ l → d' s = d s) ∧
      ofBytes (byteAt d' l) = freeMap := by
  obtain ⟨d', he, hout, hin⟩ := OpenFile.store_eq (d := d) h (by decide) hlen heap freeMap.bytes
  exact ⟨d', he, hout, (ofBytes_congr hin).trans freeMap.ofBytes_bytes⟩

end FreeMap

/-! ### The directory -/

def NumDirEntries : Nat := 10
def FileNameMaxLen : Nat := 9

/-- `sizeof(DirectoryEntry)`: `inUse` at 0, `sector` at 4, and `name` at 8. -/
def entrySize : Nat := 20

/-- `#define DirectoryFileSize (sizeof(DirectoryEntry) * NumDirEntries)`. -/
def DirectoryFileSize : Nat := entrySize * NumDirEntries

/-- `class Directory`: the bytes of `table`. -/
structure Directory where
  table : Fin DirectoryFileSize → Byte

namespace Directory

abbrev Index := Fin NumDirEntries

def bytes (directory : Directory) : Nat → Byte := fun x =>
  if h : x < DirectoryFileSize then directory.table ⟨x, h⟩ else 0

def ofBytes (f : Nat → Byte) : Directory := ⟨fun x => f x.val⟩

/-- `table[i].inUse`. -/
def inUse (directory : Directory) (i : Index) : Bool := directory.bytes (entrySize * i) != 0

/-- `table[i].sector`. -/
def sector (directory : Directory) (i : Index) : Word := wordAt directory.bytes (entrySize * i + 4)

/-- `table[i].name`. -/
def name (directory : Directory) (i : Index) : List Byte :=
  (List.range (FileNameMaxLen + 1)).map fun j => directory.bytes (entrySize * i + 8 + j)

def setByte (directory : Directory) (a : Nat) (b : Byte) : Directory :=
  ⟨fun x => if x.val = a then b else directory.table x⟩

/-- `table[i].inUse = FALSE`. -/
def clearEntry (directory : Directory) (i : Index) : Directory := directory.setByte (entrySize * i) 0

/-- The three assignments of `Add`. -/
def setEntry (directory : Directory) (i : Index) (name : List Byte) (newSector : Word) : Directory :=
  ⟨fun x =>
    if x.val = entrySize * i then 1
    else if entrySize * i + 4 ≤ x.val ∧ x.val < entrySize * i + 8 then
      byteOf newSector (x.val - (entrySize * i + 4))
    else if entrySize * i + 8 ≤ x.val ∧ x.val < entrySize * i + 8 + FileNameMaxLen then
      ((CString.strncpy FileNameMaxLen name)[x.val - (entrySize * i + 8)]?).getD 0
    else directory.table x⟩

/-- `Directory::Directory`: the bytes of a new array are arbitrary, and no entry is in use. -/
def new (heap : Nat → Byte) : Directory := (List.finRange NumDirEntries).foldl clearEntry (ofBytes heap)

/-- `Directory::FetchFrom`. -/
def fetchFrom (directory : Directory) (d : Disk) (file : FileHeader) (heap : Nat → Byte) :
    Except Stop Directory := do
  let buf ← OpenFile.fetch d file heap directory.bytes (NumDirEntries * entrySize)
  .ok (ofBytes buf)

/-- `Directory::WriteBack`. -/
def writeBack (directory : Directory) (d : Disk) (file : FileHeader) (heap : Nat → Byte) :
    Except Stop Disk :=
  OpenFile.store d file heap directory.bytes (NumDirEntries * entrySize)

/-- `Directory::FindIndex`; `none` is `-1`. -/
def findIndex (directory : Directory) (name : List Byte) : Option Index :=
  (List.finRange NumDirEntries).find? fun i =>
    directory.inUse i && CString.strncmp FileNameMaxLen (directory.name i) name == 0

/-- `Directory::Find`. -/
def find (directory : Directory) (name : List Byte) : Int :=
  (directory.findIndex name).elim (-1) fun i => (directory.sector i).toInt

/-- `Directory::Add`; `none` is `FALSE`. -/
def add (directory : Directory) (name : List Byte) (newSector : Word) : Option Directory :=
  if (directory.findIndex name).isSome then none
  else ((List.finRange NumDirEntries).find? fun i => !directory.inUse i).map fun i =>
    directory.setEntry i name newSector

/-- `Directory::Remove`; `none` is `FALSE`. -/
def remove (directory : Directory) (name : List Byte) : Option Directory :=
  (directory.findIndex name).map directory.clearEntry

/-! ### The table -/

theorem ofBytes_congr {f g : Nat → Byte} (h : ∀ x < DirectoryFileSize, f x = g x) :
    ofBytes f = ofBytes g := by
  unfold ofBytes
  congr 1
  funext x
  exact h x.val x.isLt

theorem ofBytes_bytes (directory : Directory) : ofBytes directory.bytes = directory := by
  obtain ⟨table⟩ := directory
  unfold ofBytes bytes
  congr 1
  funext x
  exact dif_pos x.isLt

theorem fetchFrom_eq (directory : Directory) (h : file.Laid l)
    (hlen : file.fileLength = DirectoryFileSize) (heap : Nat → Byte) :
    directory.fetchFrom d file heap = .ok (ofBytes (byteAt d l)) := by
  obtain ⟨buf, hb, hx⟩ := OpenFile.fetch_eq (d := d) h (by decide) hlen heap directory.bytes
  rw [fetchFrom]
  show (OpenFile.fetch d file heap directory.bytes DirectoryFileSize).bind _ = _
  rw [hb]
  exact congrArg Except.ok (ofBytes_congr hx)

theorem writeBack_eq (directory : Directory) (h : file.Laid l)
    (hlen : file.fileLength = DirectoryFileSize) (heap : Nat → Byte) :
    ∃ d', directory.writeBack d file heap = .ok d' ∧ (∀ s, s ∉ l → d' s = d s) ∧
      ofBytes (byteAt d' l) = directory := by
  obtain ⟨d', he, hout, hin⟩ := OpenFile.store_eq (d := d) h (by decide) hlen heap directory.bytes
  exact ⟨d', he, hout, (ofBytes_congr hin).trans directory.ofBytes_bytes⟩

variable {directory : Directory} {i j : Index}

theorem bytes_eq (table : Fin DirectoryFileSize → Byte) {x : Nat} (hx : x < DirectoryFileSize) :
    bytes ⟨table⟩ x = table ⟨x, hx⟩ := dif_pos hx

/-- The bytes of an entry. -/
theorem entry_lt (i : Index) {k : Nat} (hk : k < entrySize) :
    entrySize * i.val + k < DirectoryFileSize := by
  have hi : i.val < 10 := i.isLt
  unfold entrySize DirectoryFileSize NumDirEntries entrySize at *
  omega

/-- Two entries overlap only if they are the same. -/
theorem entry_ne {i j : Index} (h : j ≠ i) {k m : Nat} (hk : k < entrySize) (hm : m < entrySize) :
    entrySize * j.val + k ≠ entrySize * i.val + m := by
  have hij : j.val ≠ i.val := fun e => h (Fin.ext e)
  unfold entrySize at *
  omega

/-- What the assignments of an entry leave alone in the others. -/
theorem bytes_setEntry_of_ne (h : j ≠ i) (name : List Byte) (newSector : Word) {k : Nat}
    (hk : k < entrySize) : (directory.setEntry i name newSector).bytes (entrySize * j.val + k) =
      directory.bytes (entrySize * j.val + k) := by
  have hlt := entry_lt j hk
  have hne : ∀ m < entrySize, entrySize * j.val + k ≠ entrySize * i.val + m :=
    fun m hm => entry_ne h hk hm
  have h₀ : entrySize * j.val + k ≠ entrySize * i.val := hne 0 (by decide)
  have hname : FileNameMaxLen = 9 := rfl
  have hsize : entrySize = 20 := rfl
  unfold setEntry
  rw [bytes_eq _ hlt]
  dsimp only
  rw [if_neg h₀, if_neg, if_neg]
  · exact (bytes_eq directory.table hlt).symm
  · intro hx
    exact hne (entrySize * j.val + k - entrySize * i.val) (by omega) (by omega)
  · intro hx
    exact hne (entrySize * j.val + k - entrySize * i.val) (by omega) (by omega)

@[simp] theorem inUse_setEntry (directory : Directory) (i j : Index) (name : List Byte)
    (newSector : Word) :
    (directory.setEntry i name newSector).inUse j = (decide (j = i) || directory.inUse j) := by
  unfold inUse
  by_cases e : j = i
  · subst e
    have hlt : entrySize * j.val < DirectoryFileSize := entry_lt j (k := 0) (by decide)
    unfold setEntry
    rw [bytes_eq _ hlt]
    dsimp only
    rw [if_pos rfl, decide_eq_true rfl]
    rfl
  · rw [decide_eq_false e, Bool.false_or]
    exact congrArg (· != 0) (bytes_setEntry_of_ne e name newSector (k := 0) (by decide))

theorem sector_setEntry_self (directory : Directory) (i : Index) (name : List Byte)
    (newSector : Word) : (directory.setEntry i name newSector).sector i = newSector := by
  apply wordAt_eq
  intro k hk
  have hlt := entry_lt i (k := 4 + k) (by unfold entrySize; omega)
  rw [← Nat.add_assoc] at hlt
  unfold setEntry
  rw [bytes_eq _ hlt]
  dsimp only
  rw [if_neg (by omega), if_pos (by omega)]
  congr 1
  omega

theorem sector_setEntry_of_ne (h : j ≠ i) (name : List Byte) (newSector : Word) :
    (directory.setEntry i name newSector).sector j = directory.sector j := by
  apply wordAt_congr
  intro k hk
  rw [Nat.add_assoc]
  exact bytes_setEntry_of_ne h name newSector (by unfold entrySize; omega)

theorem bytes_clearEntry_of_ne {x : Nat} (h : x ≠ entrySize * i.val) :
    (directory.clearEntry i).bytes x = directory.bytes x := by
  unfold clearEntry setByte bytes
  split
  · exact if_neg h
  · rfl

@[simp] theorem inUse_clearEntry (directory : Directory) (i j : Index) :
    (directory.clearEntry i).inUse j = (!decide (j = i) && directory.inUse j) := by
  unfold inUse
  by_cases e : j = i
  · subst e
    have hlt : entrySize * j.val < DirectoryFileSize := entry_lt j (k := 0) (by decide)
    unfold clearEntry setByte
    rw [bytes_eq _ hlt]
    dsimp only
    rw [if_pos rfl, decide_eq_true rfl]
    rfl
  · rw [decide_eq_false e, Bool.not_false, Bool.true_and]
    exact congrArg (· != 0) (bytes_clearEntry_of_ne (entry_ne e (k := 0) (m := 0)
      (by decide) (by decide)))

@[simp] theorem sector_clearEntry (directory : Directory) (i j : Index) :
    (directory.clearEntry i).sector j = directory.sector j := by
  apply wordAt_congr
  intro k hk
  apply bytes_clearEntry_of_ne
  rw [Nat.add_assoc]
  by_cases e : j = i
  · subst e
    omega
  · exact entry_ne e (by unfold entrySize; omega) (m := 0) (by decide)

theorem inUse_foldl_clearEntry (l : List Index) (directory : Directory) (j : Index) :
    (l.foldl clearEntry directory).inUse j = (!decide (j ∈ l) && directory.inUse j) := by
  induction l generalizing directory with
  | nil => simp
  | cons i l ih =>
      rw [List.foldl_cons, ih, inUse_clearEntry]
      by_cases e : j = i <;> simp [e]

/-- A new directory is empty, whatever the array was. -/
@[simp] theorem inUse_new (heap : Nat → Byte) (j : Index) : (new heap).inUse j = false := by
  unfold new
  rw [inUse_foldl_clearEntry, decide_eq_true (List.mem_finRange j)]
  rfl

end Directory

end

end Nachos
