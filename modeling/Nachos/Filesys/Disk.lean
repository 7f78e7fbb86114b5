import Mathlib.Algebra.Ring.Nat
import Nachos.Lib.Words
import Nachos.Threads.Semaphore
import Nachos.Userprog.AddrSpace

/-!
# Filesys — the disk and the file headers on it

The disk as `SynchDisk` (filesys/synchdisk.cc) offers it: one sector is read or written at a time,
and `Disk::ReadRequest` and `WriteRequest` (machine/disk.cc) assert that there is such a sector.

A `FileHeader` (filesys/filehdr.cc) fills a sector.  `FetchFrom` and `WriteBack` copy it as it lies
in memory, so a header that has been written back is fetched again (`fetchFrom_writeBack`).
-/

namespace Nachos
open Lib

def SectorSize : Nat := 128
def SectorsPerTrack : Nat := 32
def NumTracks : Nat := 32
abbrev NumSectors : Nat := SectorsPerTrack * NumTracks

instance : NeZero NumSectors := ⟨by decide⟩

/-- The number of a sector. -/
abbrev Sector := Fin NumSectors

/-- What a sector holds. -/
abbrev SectorData := Fin SectorSize → Byte

abbrev Disk := Sector → SectorData

/-- A number that has been found to be that of a sector. -/
theorem toNat_lt_numSectors {i : Int} (h : 0 ≤ i ∧ i < NumSectors) : i.toNat < NumSectors := by
  omega

/-- A sector as it lies at the start of a buffer. -/
def SectorData.bytes (data : SectorData) : Nat → Byte := fun x =>
  if h : x < SectorSize then data ⟨x, h⟩ else 0

namespace Disk

/-- `SynchDisk::ReadSector`. -/
def readSector (d : Disk) (sectorNumber : Int) : Except Stop SectorData :=
  if h : 0 ≤ sectorNumber ∧ sectorNumber < NumSectors then
    .ok (d ⟨sectorNumber.toNat, toNat_lt_numSectors h⟩)
  else .error .assertFails

/-- `SynchDisk::WriteSector`. -/
def writeSector (d : Disk) (sectorNumber : Int) (data : SectorData) : Except Stop Disk :=
  if h : 0 ≤ sectorNumber ∧ sectorNumber < NumSectors then
    .ok (Function.update d ⟨sectorNumber.toNat, toNat_lt_numSectors h⟩ data)
  else .error .assertFails

@[simp] theorem readSector_eq (d : Disk) (s : Sector) : d.readSector s.val = .ok (d s) := by
  unfold readSector
  rw [dif_pos ⟨by omega, by omega⟩]
  rfl

@[simp] theorem writeSector_eq (d : Disk) (s : Sector) (data : SectorData) :
    d.writeSector s.val data = .ok (Function.update d s data) := by
  unfold writeSector
  rw [dif_pos ⟨by omega, by omega⟩]
  rfl

end Disk

/-! ### File headers -/

/-- `(SectorSize - 2 * sizeof(int)) / sizeof(int)`. -/
def NumDirect : Nat := 30
def MaxFileSize : Nat := NumDirect * SectorSize

/-- `class FileHeader`. -/
structure FileHeader where
  numBytes : Word
  numSectors : Word
  dataSectors : Fin NumDirect → Word

namespace FileHeader

/-- The words of a header in memory. -/
def words (hdr : FileHeader) (i : Nat) : Word :=
  if i = 0 then hdr.numBytes
  else if i = 1 then hdr.numSectors
  else if h : i - 2 < NumDirect then hdr.dataSectors ⟨i - 2, h⟩ else 0

theorem words_add_two {hdr : FileHeader} {i : Nat} (h : i < NumDirect) :
    hdr.words (i + 2) = hdr.dataSectors ⟨i, h⟩ := by
  unfold words
  rw [if_neg (by omega), if_neg (by omega), dif_pos (by omega)]
  rfl

/-- `FileHeader::FetchFrom`, on what the sector holds. -/
def fetchFrom (data : SectorData) : FileHeader where
  numBytes := wordAt data.bytes 0
  numSectors := wordAt data.bytes 4
  dataSectors i := wordAt data.bytes (4 * (i.val + 2))

/-- `FileHeader::WriteBack`: what it puts into the sector. -/
def writeBack (hdr : FileHeader) : SectorData := fun x => byteOf (hdr.words (x.val / 4)) (x.val % 4)

/-- `FileHeader::ByteToSector`.  No index is checked: where it is -1 or -2, `numSectors` or `numBytes`
stands in memory, and what lies outside the header has no meaning here. -/
def byteToSector (hdr : FileHeader) (offset : Int) : Except Stop Int :=
  if 0 ≤ offset.tdiv SectorSize + 2 ∧ offset.tdiv SectorSize < NumDirect then
    .ok (hdr.words (offset.tdiv SectorSize + 2).toNat).toInt
  else .error .outOfBounds

/-- `FileHeader::FileLength`. -/
def fileLength (hdr : FileHeader) : Int := hdr.numBytes.toInt

theorem wordAt_writeBack (hdr : FileHeader) {i : Nat} (hi : i < 32) :
    wordAt hdr.writeBack.bytes (4 * i) = hdr.words i := by
  apply wordAt_eq
  intro k hk
  unfold SectorData.bytes writeBack SectorSize
  rw [dif_pos (by omega)]
  dsimp only
  congr 2 <;> omega

/-- **A header that has been written back is fetched again.** -/
@[simp] theorem fetchFrom_writeBack (hdr : FileHeader) : fetchFrom hdr.writeBack = hdr := by
  unfold fetchFrom
  congr 1
  · exact hdr.wordAt_writeBack (i := 0) (by omega)
  · exact hdr.wordAt_writeBack (i := 1) (by omega)
  · funext i
    have hi : i.val < 30 := i.isLt
    rw [hdr.wordAt_writeBack (by omega), words_add_two]

/-- The data sectors of the file are those of `l`, which are different, as many as its length
needs, and not more than there is room for. -/
structure Laid (hdr : FileHeader) (l : List Sector) : Prop where
  length : l.length = hdr.numSectors.toInt.toNat
  roundUp : hdr.numSectors.toInt = (hdr.numBytes.toInt + (SectorSize - 1)) / SectorSize
  direct : l.length ≤ NumDirect
  sector : ∀ (i : Nat) (h : i < NumDirect) (s : Sector), l[i]? = some s →
    (hdr.dataSectors ⟨i, h⟩).toInt = s.val
  nodup : l.Nodup

/-- There is room for the file in its sectors. -/
theorem Laid.length_le {hdr : FileHeader} {l : List Sector} (h : hdr.Laid l) :
    hdr.fileLength ≤ l.length * SectorSize := by
  have h₁ := h.length
  have h₂ := h.roundUp
  unfold fileLength SectorSize at *
  omega

theorem Laid.byteToSector_eq {hdr : FileHeader} {l : List Sector} (h : hdr.Laid l) {i : Nat}
    {s : Sector} (hs : l[i]? = some s) : hdr.byteToSector (i * SectorSize) = .ok (s.val : Int) := by
  obtain ⟨hi, -⟩ := List.getElem?_eq_some_iff.mp hs
  have hd := h.direct
  have hdiv : ((i : Int) * SectorSize).tdiv SectorSize = i :=
    Int.mul_tdiv_cancel _ (by decide)
  unfold byteToSector
  rw [hdiv, if_pos (by omega), show ((i : Int) + 2).toNat = i + 2 by omega,
    words_add_two (show i < NumDirect by omega), h.sector i (by omega) s hs]

end FileHeader

end Nachos
