import Mathlib.Algebra.Ring.Int.Defs
import Nachos.Filesys.FileTable
import Nachos.Machine.HostFile
import Nachos.Userprog.AddrSpace
import Nachos.Userprog.Exception

/-!
# Filesys — HostFiles

`class OpenFile` of the stub (filesys/openfile.h) over the files of the host (machine/sysdep.cc),
whose `read` may fail or come up short.  `currentOffset` is an `int`: what is added to it is taken
modulo 2³².  `Lseek` asserts that the position is not negative.
-/

namespace Nachos.Syscall
open Filesys

/-- The objects of the table of open files, the file of the host behind a descriptor, and the files
of the host. -/
structure HostFiles where
  files : Int → Option OpenFile
  inode : Int → Nat
  contents : Nat → List Byte

/-- What the devices answer to one call.  `read` is how many bytes `read` finds at most, `none` when
it fails; `written` is whether `write` writes all; `console` is what the console answers. -/
structure Devices where
  read : Option Nat
  written : Bool
  console : Answer

namespace HostFiles

def content (s : HostFiles) (f : OpenFile) : List Byte := s.contents (s.inode f.file)

def setOffset (s : HostFiles) (fid : Int) (f : OpenFile) (off : Int) : HostFiles :=
  { s with files := Function.update s.files fid (some { f with currentOffset := off }) }

def setContent (s : HostFiles) (f : OpenFile) (content : List Byte) : HostFiles :=
  { s with contents := Function.update s.contents (s.inode f.file) content }

/-- What `read` finds at a position, when it finds `k` bytes at most. -/
def found (s : HostFiles) (f : OpenFile) (numBytes position k : Nat) : List Byte :=
  (readPartial (s.content f) position numBytes).take k

/-- `OpenFile::ReadAt`. -/
def ReadAt (s : HostFiles) (f : OpenFile) (numBytes position : Int) (host : Devices) :
    Except Stop Answer :=
  if position < 0 then .error .assertFails
  else
    match host.read with
    | none => .ok ⟨-1, []⟩
    | some k =>
        let bytes := s.found f numBytes.toNat position.toNat k
        .ok ⟨bytes.length, bytes⟩

/-- `OpenFile::Read`. -/
def Read (s : HostFiles) (fid : Int) (f : OpenFile) (numBytes : Int) (host : Devices) :
    Except Stop (Answer × HostFiles) :=
  match s.ReadAt f numBytes f.currentOffset host with
  -- the -1 of a `read` that fails is added too
  | .ok numRead => .ok (numRead, s.setOffset fid f (asInt (f.currentOffset + numRead.value)))
  | .error e => .error e

/-- `OpenFile::WriteAt`. -/
def WriteAt (s : HostFiles) (f : OpenFile) (src : List Byte) (numBytes position : Int)
    (host : Devices) : Except Stop (Int × HostFiles) :=
  if f.type = 1 then .ok (-1, s)
  else if position < 0 then .error .assertFails
  -- `WriteFile` asserts that `write` writes all
  else if host.written then
    .ok (numBytes,
      s.setContent f (writeFile (s.content f) position.toNat (src.take numBytes.toNat)))
  else .error .assertFails

/-- `OpenFile::Write`. -/
def Write (s : HostFiles) (fid : Int) (f : OpenFile) (src : List Byte) (numBytes : Int)
    (host : Devices) : Except Stop (Answer × HostFiles) :=
  if f.type = 1 then .ok (⟨-1, []⟩, s)
  else
    match s.WriteAt f src numBytes f.currentOffset host with
    | .ok (numWritten, s) =>
        .ok (⟨numWritten, []⟩, s.setOffset fid f (asInt (f.currentOffset + numWritten)))
    | .error e => .error e

/-- `OpenFile::Length`: the answer of `lseek` is an `int`. -/
def Length (s : HostFiles) (f : OpenFile) : Except Stop Int :=
  let retVal := asInt (s.content f).length
  if 0 ≤ retVal then .ok retVal else .error .assertFails

/-- `OpenFile::Seek`. -/
def Seek (s : HostFiles) (fid : Int) (f : OpenFile) (position : Int) :
    Except Stop (Answer × HostFiles) :=
  if position = -1 then
    match s.Length f with
    | .ok length => .ok (⟨length, []⟩, s.setOffset fid f length)
    | .error e => .error e
  else if position < 0 then .ok (⟨-1, []⟩, s)
  else if f.type = 1 then
    match s.Length f with
    | .ok length =>
        if length < position then .ok (⟨length, []⟩, s.setOffset fid f length)
        else .ok (⟨position, []⟩, s.setOffset fid f position)
    | .error e => .error e
  else .ok (⟨position, []⟩, s.setOffset fid f position)

/-- `FileSystem::getOpenFile`. -/
def getOpenFile (s : HostFiles) (fid : Int) : Option OpenFile :=
  if fid < 2 then none else s.files fid

/-- An operation on an open file; the handlers ask for the file before. -/
def onFile (s : HostFiles) (fid : Int) (k : OpenFile → Except Stop (Answer × HostFiles)) :
    Except Stop (Answer × HostFiles) :=
  match s.getOpenFile fid with
  | none => .error .nullDeref
  | some f => k f

/-- The operations the three handlers call. -/
def call (host : Devices) : Call → HostFiles → Except Stop (Answer × HostFiles)
  | .read _, s | .write _ _, s => .ok (host.console, s)
  | .getOpenFile fid, s => .ok (⟨if (s.getOpenFile fid).isSome then 1 else 0, []⟩, s)
  | .fileRead fid numBytes, s => s.onFile fid fun f => s.Read fid f numBytes host
  | .fileWrite fid src numBytes, s => s.onFile fid fun f => s.Write fid f src numBytes host
  | .seek fid pos, s => s.onFile fid fun f => s.Seek fid f pos
  | _, _ => .error .disabled

end HostFiles

section
variable {host : Devices} {s s' : HostFiles} {f : OpenFile}

theorem getOpenFile_eq {fid : Int} (hi : 2 ≤ fid) (hf : s.files fid = some f) :
    s.getOpenFile fid = some f := by
  rw [HostFiles.getOpenFile, if_neg (by omega), hf]

theorem onFile_some {fid : Int} {k : OpenFile → Except Stop (Answer × HostFiles)}
    (hf : s.getOpenFile fid = some f) : s.onFile fid k = k f := by
  rw [HostFiles.onFile, hf]

theorem files_of_getOpenFile {fid : Int} (h : s.getOpenFile fid = some f) :
    s.files fid = some f := by
  unfold HostFiles.getOpenFile at h
  split at h
  · cases h
  · exact h

/-- A host that finds all it is asked for. -/
theorem found_all (s : HostFiles) (f : OpenFile) (numBytes position : Nat) :
    s.found f numBytes position numBytes = readPartial (s.content f) position numBytes :=
  List.take_of_length_le (List.length_take_le ..)

theorem length_found (s : HostFiles) (f : OpenFile) (numBytes position k : Nat) :
    (s.found f numBytes position k).length ≤ numBytes := by
  simp only [HostFiles.found, readPartial, List.length_take]
  omega

/-- `OpenFile::Read` fails and goes back by one, or goes on by what it has found. -/
theorem Read_spec {fid numBytes : Int} {r : Answer}
    (h : s.Read fid f numBytes host = .ok (r, s')) :
    (host.read = none ∧ r.value = -1 ∧ s' = s.setOffset fid f (asInt (f.currentOffset - 1))) ∨
    ∃ k bytes, host.read = some k ∧ bytes = s.found f numBytes.toNat f.currentOffset.toNat k ∧
      r.value = bytes.length ∧ s' = s.setOffset fid f (asInt (f.currentOffset + bytes.length)) := by
  unfold HostFiles.Read HostFiles.ReadAt at h
  split_ifs at h
  cases hk : host.read with
  | none =>
      rw [hk] at h
      cases h
      exact .inl ⟨rfl, rfl, rfl⟩
  | some k =>
      rw [hk] at h
      cases h
      exact .inr ⟨k, _, rfl, rfl, rfl, rfl⟩

theorem Length_spec {length : Int} (h : s.Length f = .ok length) :
    0 ≤ length ∧ length < 2 ^ 31 := by
  unfold HostFiles.Length at h
  dsimp only at h
  split_ifs at h with hpos
  cases h
  exact ⟨hpos, BitVec.toInt_lt⟩

/-- `OpenFile::Seek` answers -1 and does nothing, or answers the new position. -/
theorem Seek_spec {fid position : Int} {r : Answer} (hlt : position < 2 ^ 31)
    (h : s.Seek fid f position = .ok (r, s')) :
    (s' = s ∧ r.value = -1) ∨
      ∃ pos, 0 ≤ pos ∧ pos < 2 ^ 31 ∧ r.value = pos ∧ s' = s.setOffset fid f pos := by
  unfold HostFiles.Seek at h
  split at h
  · split at h
    · rename_i length hlen
      obtain ⟨h₁, h₂⟩ := Length_spec hlen
      cases h
      exact .inr ⟨length, h₁, h₂, rfl, rfl⟩
    · cases h
  split at h
  · cases h
    exact .inl ⟨rfl, rfl⟩
  rename_i hpos
  rw [not_lt] at hpos
  split at h
  · split at h
    · rename_i length hlen
      obtain ⟨h₁, h₂⟩ := Length_spec hlen
      split at h
      · cases h
        exact .inr ⟨length, h₁, h₂, rfl, rfl⟩
      · cases h
        exact .inr ⟨position, hpos, hlt, rfl, rfl⟩
    · cases h
  · cases h
    exact .inr ⟨position, hpos, hlt, rfl, rfl⟩

end

end Nachos.Syscall
