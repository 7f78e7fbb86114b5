import Nachos.Filesys.Directory
import Nachos.Lib.Owned
import Nachos.Lib.Runs

/-!
# Filesys — FileSystem

`FileSystem` (filesys/filesys.cc) on the disk: formatting it, and `Create`, `Open` and `Remove`.  The
free map and the directory are files themselves; every operation fetches them, changes its copies in
memory and writes these back.

`heap` is what the operation gets from `new`, one array after another.  An open file keeps the header
it was opened with.  `openFiles` are those whose file has not been removed since: no request goes
through another one, which would go on to use sectors that are free.
-/

namespace Nachos
open Lib

def FreeMapSector : Sector := 0
def DirectorySector : Sector := 1

abbrev Heap := Nat → Nat → Byte

/-- An `OpenFile`: its header in memory, and the sector it was fetched from. -/
structure Handle where
  sector : Int
  hdr : FileHeader

structure FileSystem where
  disk : Disk
  freeMapFile : FileHeader
  directoryFile : FileHeader
  openFiles : List Handle

/-- `BitMap::BitMap`. -/
def FreeMap.new (heap : Nat → Byte) : FreeMap := BitMap.new (FreeMap.ofBytes heap).map

/-- `BitMap::Clear`, with its `ASSERT`. -/
def FreeMap.clearAt (freeMap : FreeMap) (which : Int) : Except Stop FreeMap :=
  if h : 0 ≤ which ∧ which < NumSectors then
    .ok (freeMap.clear ⟨which.toNat, toNat_lt_numSectors h⟩)
  else .error .assertFails

/-- `new FileHeader`. -/
def FileHeader.new (heap : Nat → Byte) : FileHeader := .fetchFrom fun x => heap x.val

/-- `FileHeader::FetchFrom`, from a sector of the disk. -/
def Disk.fetchHeader (d : Disk) (sector : Int) : Except Stop FileHeader := do
  let data ← d.readSector sector
  .ok (.fetchFrom data)

namespace FileSystem

/-- `ASSERT(hdr->Allocate(freeMap, fileSize))`. -/
def assertAllocate (hdr : FileHeader) (freeMap : FreeMap) (fileSize : Word) :
    Except Stop (FileHeader × FreeMap) := do
  let r ← hdr.allocate freeMap fileSize
  r.elim (.error .assertFails) .ok

/-- `FileSystem::FileSystem(TRUE)`, on a disk with anything on it. -/
def format (d : Disk) (heap : Heap) : Except Stop FileSystem := do
  let (mapHdr, freeMap) ← assertAllocate (.new (heap 2))
    (((FreeMap.new (heap 0)).mark FreeMapSector).mark DirectorySector)
    (BitVec.ofNat 32 FreeMapFileSize)
  let (dirHdr, freeMap) ← assertAllocate (.new (heap 3)) freeMap (BitVec.ofNat 32 DirectoryFileSize)
  let d ← d.writeSector FreeMapSector.val mapHdr.writeBack
  let d ← d.writeSector DirectorySector.val dirHdr.writeBack
  let freeMapFile ← d.fetchHeader FreeMapSector.val
  let directoryFile ← d.fetchHeader DirectorySector.val
  let d ← freeMap.writeBack d freeMapFile (heap 4)
  let d ← (Directory.new (heap 1)).writeBack d directoryFile (heap 5)
  .ok ⟨d, freeMapFile, directoryFile, []⟩

/-- `directory->FetchFrom(directoryFile)`, into a new one. -/
def fetchDirectory (fs : FileSystem) (heap : Heap) : Except Stop Directory :=
  (Directory.new (heap 0)).fetchFrom fs.disk fs.directoryFile (heap 1)

/-- `freeMap->FetchFrom(freeMapFile)`, into a new one. -/
def fetchFreeMap (fs : FileSystem) (heap : Heap) : Except Stop FreeMap :=
  (FreeMap.new (heap 2)).fetchFrom fs.disk fs.freeMapFile (heap 3)

/-- The changes `Create` flushes back to disk. -/
def flushCreate (fs : FileSystem) (hdr : FileHeader) (sector : Sector) (directory : Directory)
    (freeMap : FreeMap) (heap : Heap) : Except Stop (Bool × FileSystem) := do
  let d ← fs.disk.writeSector sector.val hdr.writeBack
  let d ← directory.writeBack d fs.directoryFile (heap 5)
  let d ← freeMap.writeBack d fs.freeMapFile (heap 6)
  .ok (true, { fs with disk := d })

/-- `Create`, once there are a sector for the header and an entry. -/
def createIn (fs : FileSystem) (sector : Sector) (directory : Directory) (freeMap : FreeMap)
    (initialSize : Word) (heap : Heap) : Except Stop (Bool × FileSystem) := do
  let r ← (FileHeader.new (heap 4)).allocate freeMap initialSize
  r.elim (.ok (false, fs)) fun r => fs.flushCreate r.1 sector directory r.2 heap

/-- `Create`, on a free map that has been fetched. -/
def createWith (fs : FileSystem) (directory : Directory) (freeMap : FreeMap) (name : List Byte)
    (initialSize : Word) (heap : Heap) : Except Stop (Bool × FileSystem) :=
  freeMap.find.1.elim (.ok (false, fs)) fun sector =>
    (directory.add name (BitVec.ofNat 32 sector.val)).elim (.ok (false, fs)) fun directory =>
      fs.createIn sector directory freeMap.find.2 initialSize heap

/-- `FileSystem::Create`. -/
def create (fs : FileSystem) (name : List Byte) (initialSize : Word) (heap : Heap) :
    Except Stop (Bool × FileSystem) := do
  let directory ← fs.fetchDirectory heap
  if directory.find name ≠ -1 then .ok (false, fs)
  else do
    let freeMap ← fs.fetchFreeMap heap
    fs.createWith directory freeMap name initialSize heap

/-- `FileSystem::Open`. -/
def openFile (fs : FileSystem) (name : List Byte) (heap : Heap) : Except Stop FileSystem := do
  let directory ← fs.fetchDirectory heap
  if 0 ≤ directory.find name then do
    let hdr ← fs.disk.fetchHeader (directory.find name)
    .ok { fs with openFiles := fs.openFiles ++ [⟨directory.find name, hdr⟩] }
  else .ok fs

/-- `Remove`, of a file whose header is in the sector `sector`. -/
def removeAt (fs : FileSystem) (directory : Directory) (sector : Int) (name : List Byte)
    (heap : Heap) : Except Stop (Bool × FileSystem) := do
  let fileHdr ← fs.disk.fetchHeader sector
  let freeMap ← fs.fetchFreeMap heap
  let freeMap ← fileHdr.deallocate freeMap
  let freeMap ← freeMap.clearAt sector
  let d ← freeMap.writeBack fs.disk fs.freeMapFile (heap 4)
  let d ← ((directory.remove name).getD directory).writeBack d fs.directoryFile (heap 5)
  .ok (true, { fs with disk := d, openFiles := fs.openFiles.filter fun f => f.sector ≠ sector })

/-- `FileSystem::Remove`. -/
def remove (fs : FileSystem) (name : List Byte) (heap : Heap) : Except Stop (Bool × FileSystem) := do
  let directory ← fs.fetchDirectory heap
  if directory.find name = -1 then .ok (false, fs)
  else fs.removeAt directory (directory.find name) name heap

/-- The sizes of the files that are created. -/
abbrev FileSize := { size : Word // 0 ≤ size.toInt ∧ size.toInt ≤ MaxFileSize }

inductive Action where
  | create (name : List Byte) (initialSize : FileSize)
  | openFile (name : List Byte)
  | close (k : Nat)
  | remove (name : List Byte)
  | readAt (k : Nat) (numBytes position : Word)
  | writeAt (k : Nat) (fromBuf : Nat → Byte) (numBytes position : Word)

/-- It is no request at a negative position. -/
def Action.NonNegative : Action → Prop
  | readAt _ _ position | writeAt _ _ _ position => 0 ≤ position.toInt
  | create _ _ | openFile _ | close _ | remove _ => True

def stepWith (fs : FileSystem) (heap : Heap) : Action → Except Stop FileSystem
  | .create name initialSize => (fs.create name initialSize.val heap).map Prod.snd
  | .openFile name => fs.openFile name heap
  | .close k => .ok { fs with openFiles := fs.openFiles.eraseIdx k }
  | .remove name => (fs.remove name heap).map Prod.snd
  | .readAt k numBytes position => (fs.openFiles[k]?).elim (.error .disabled) fun f =>
      (OpenFile.readAt fs.disk f.hdr (heap 0) numBytes.toInt position.toInt).map fun _ => fs
  | .writeAt k fromBuf numBytes position => (fs.openFiles[k]?).elim (.error .disabled) fun f =>
      (OpenFile.writeAt fs.disk f.hdr (heap 0) fromBuf numBytes.toInt position.toInt).map fun r =>
        { fs with disk := r.2 }

/-- An operation, with the heap it finds. -/
def step (fs : FileSystem) (a : Action × Heap) : Except Stop FileSystem := fs.stepWith a.2 a.1

end FileSystem

end Nachos
