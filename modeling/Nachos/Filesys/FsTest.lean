import Nachos.Filesys.Volume

/-!
# Filesys — the test routines of the file system

`Copy`, `Print` and `PerformanceTest` (filesys/fstest.cc), clients of the file system that move a file
in pieces of ten bytes through `OpenFile::Read` and `Write`, which keep a position.

* `copy_print`: what is copied in is what is printed, and no other file changes.
* `performanceTest_fails`: a file keeps the length it was created with, so that the test never gets
  through, and ends without its file.

`heap` gives each operation a heap of its own.
-/

namespace Nachos
open Lib
open Lib.CString

namespace FileSystem

def TransferSize : Nat := 10

/-- `OpenFile::Write`, through the open file `k`: what it returns, and the position behind it. -/
def write (fs : FileSystem) (heap : Heap) (k : Nat) (seekPosition : Word) (fromBuf : Nat → Byte)
    (numBytes : Word) : Except Stop (Int × Word × FileSystem) :=
  (fs.openFiles[k]?).elim (.error .disabled) fun g => do
    let r ← OpenFile.writeAt fs.disk g.hdr (heap 0) fromBuf numBytes.toInt seekPosition.toInt
    .ok (r.1, seekPosition + BitVec.ofInt 32 r.1, { fs with disk := r.2 })

/-- `OpenFile::Read`, and the bytes it delivers. -/
def read (fs : FileSystem) (heap : Heap) (k : Nat) (seekPosition numBytes : Word) :
    Except Stop (Int × Word × List Byte) :=
  (fs.openFiles[k]?).elim (.error .disabled) fun g => do
    let r ← OpenFile.readAt fs.disk g.hdr (heap 0) numBytes.toInt seekPosition.toInt
    .ok (r.1, seekPosition + BitVec.ofInt 32 r.1, r.2)

/-- `Open`, with the index of the open file, or `NULL`. -/
def openIndex (fs : FileSystem) (name : List Byte) (heap : Heap) :
    Except Stop (Option Nat × FileSystem) := do
  let fs' ← fs.openFile name heap
  .ok (if fs.openFiles.length < fs'.openFiles.length then some fs.openFiles.length else none, fs')

/-- `delete openFile`. -/
def close (fs : FileSystem) (k : Nat) : FileSystem :=
  { fs with openFiles := fs.openFiles.eraseIdx k }

/-! ### Copy and Print -/

/-- The loop of `Copy`: `fread` delivers the next bytes of what is left of the UNIX file. -/
def copyLoop (k : Nat) (heap : Nat → Heap) (fs : FileSystem) (seekPosition : Word) :
    (rest : List Byte) → Except Stop FileSystem
  | [] => .ok fs
  | b :: rest => do
      let buffer := (b :: rest).take TransferSize
      let (_, seekPosition, fs) ← fs.write (heap rest.length) k seekPosition
        (fun j => buffer.getD j (heap rest.length 1 j)) (BitVec.ofNat 32 buffer.length)
      copyLoop k heap fs seekPosition ((b :: rest).drop TransferSize)
termination_by rest => rest.length
decreasing_by
  rw [List.length_drop, List.length_cons]
  unfold TransferSize
  omega

/-- How `Copy` ends: it could not open the input file or create the output file, or it is done. -/
inductive CopyEnd where
  | noInput | noOutput | copied
  deriving DecidableEq, Repr

/-- `Copy`; `unix` is the UNIX file `from`, if it can be opened. -/
def copy (fs : FileSystem) (unix : Option (List Byte)) (to' : List Byte) (heap : Nat → Heap) :
    Except Stop (CopyEnd × FileSystem) :=
  unix.elim (.ok (.noInput, fs)) fun bytes => do
    let (ok, fs) ← fs.create to' (BitVec.ofNat 32 bytes.length) (heap 0)
    if ok then do
      let (openFile, fs) ← fs.openIndex to' (heap 1)
      openFile.elim (.error .assertFails) fun k => do
        let fs ← copyLoop k (fun i => heap (i + 2)) fs 0 bytes
        .ok (.copied, fs.close k)
    else .ok (.noOutput, fs)

/-- The loop of `Print`: what it prints, or `none` when it has not ended yet. -/
def printLoop (fs : FileSystem) (k : Nat) (heap : Nat → Heap) :
    Nat → Word → Except Stop (Option (List Byte))
  | 0, _ => .ok none
  | fuel + 1, seekPosition => do
      let (amountRead, seekPosition, buffer) ← fs.read (heap fuel) k seekPosition
        (BitVec.ofNat 32 TransferSize)
      if amountRead > 0 then do
        let out ← fs.printLoop k heap fuel seekPosition
        .ok (out.map (buffer.take amountRead.toNat ++ ·))
      else .ok (some [])

/-- `Print`: what it prints of the file, or that it is unable to open it; `none` is as above. -/
def print (fs : FileSystem) (name : List Byte) (heap : Nat → Heap) (fuel : Nat) :
    Except Stop (Option (Option (List Byte)) × FileSystem) := do
  let (openFile, fs) ← fs.openIndex name (heap 0)
  openFile.elim (.ok (some none, fs)) fun k => do
    let out ← fs.printLoop k (fun i => heap (i + 1)) fuel 0
    .ok (out.map some, fs.close k)

/-! ### PerformanceTest -/

/-- `"TestFile"`. -/
def FileName : List Byte := [84, 101, 115, 116, 70, 105, 108, 101]

/-- `"1234567890"`. -/
def Contents : List Byte := [49, 50, 51, 52, 53, 54, 55, 56, 57, 48]

def ContentSize : Nat := Contents.length

/-- What the test prints, but for the statistics. -/
inductive Message where
  | starting
  | sequentialWrite | cantCreate | unableToOpen | unableToWrite
  | sequentialRead | unableToOpenFile | unableToRead
  | unableToRemove
  deriving DecidableEq, Repr

/-- The loop of `FileWrite`, with the number of turns that are left; `false` when it gives up. -/
def fileWriteLoop (k : Nat) (heap : Nat → Heap) :
    Nat → FileSystem → Word → Except Stop (Bool × FileSystem)
  | 0, fs, _ => .ok (true, fs)
  | n + 1, fs, seekPosition => do
      let (numBytes, seekPosition, fs) ← fs.write (heap n) k seekPosition
        (fun j => Contents.getD j 0) (BitVec.ofNat 32 ContentSize)
      if numBytes < 10 then .ok (false, fs) else fileWriteLoop k heap n fs seekPosition

/-- `FileWrite`: what it prints. -/
def fileWrite (fs : FileSystem) (heap : Nat → Heap) : Except Stop (List Message × FileSystem) := do
  let (ok, fs) ← fs.create FileName 0 (heap 0)
  if ok then do
    let (openFile, fs) ← fs.openIndex FileName (heap 1)
    openFile.elim (.ok ([.sequentialWrite, .unableToOpen], fs)) fun k => do
      let (ok, fs) ← fileWriteLoop k (fun i => heap (i + 2)) 5000 fs 0
      .ok (.sequentialWrite :: if ok then [] else [.unableToWrite], fs.close k)
  else .ok ([.sequentialWrite, .cantCreate], fs)

/-- The loop of `FileRead`. -/
def fileReadLoop (fs : FileSystem) (k : Nat) (heap : Nat → Heap) :
    Nat → Word → Except Stop Bool
  | 0, _ => .ok true
  | n + 1, seekPosition => do
      let (numBytes, seekPosition, buffer) ← fs.read (heap n) k seekPosition
        (BitVec.ofNat 32 ContentSize)
      if numBytes < 10 ∨ strncmp ContentSize buffer Contents ≠ 0 then .ok false
      else fs.fileReadLoop k heap n seekPosition

/-- `FileRead`. -/
def fileRead (fs : FileSystem) (heap : Nat → Heap) : Except Stop (List Message × FileSystem) := do
  let (openFile, fs) ← fs.openIndex FileName (heap 0)
  openFile.elim (.ok ([.sequentialRead, .unableToOpenFile], fs)) fun k => do
    let ok ← fs.fileReadLoop k (fun i => heap (i + 1)) 5000 0
    .ok (.sequentialRead :: if ok then [] else [.unableToRead], fs.close k)

/-- `PerformanceTest`; `heap` is that of its three parts. -/
def performanceTest (fs : FileSystem) (heap : Nat → Nat → Heap) :
    Except Stop (List Message × FileSystem) := do
  let (out₁, fs) ← fs.fileWrite (heap 0)
  let (out₂, fs) ← fs.fileRead (heap 1)
  let (ok, fs) ← fs.remove FileName (heap 2 0)
  .ok (.starting :: out₁ ++ out₂ ++ if ok then [] else [.unableToRemove], fs)

section
variable {fs fs' : FileSystem} {v : Store (List Byte) Byte} {key : List Byte} {k pos : Nat}

/-- The position behind a request. -/
theorem ofNat_add (pos n : Nat) :
    BitVec.ofNat 32 pos + BitVec.ofInt 32 (n : Int) = BitVec.ofNat 32 (pos + n) := by
  rw [BitVec.ofInt_natCast, BitVec.ofNat_add]

/-- **`Read`** delivers the next elements of the array. -/
theorem Refines.read (h : Refines fs v) (hk : v.opened[k]? = some key) (heap : Heap) {n : Nat}
    (hover : pos + n < 2 ^ 31) : fs.read heap k (BitVec.ofNat 32 pos) (BitVec.ofNat 32 n) =
      .ok ((Store.inside (v.content key).length n pos : Nat),
        BitVec.ofNat 32 (pos + Store.inside (v.content key).length n pos),
        ((v.content key).drop pos).take n) := by
  obtain ⟨g, i, hg, hi, rfl, hhdr⟩ := h.openFiles hk
  have hp := toInt_ofNat (show pos < 2 ^ 31 by omega)
  have hn := toInt_ofNat (show n < 2 ^ 31 by omega)
  have hlaid := (h.inv.consistent.entry i hi).2
  have hr := OpenFile.readAt_eq hlaid fs.disk (heap 0)
    (show 0 ≤ (BitVec.ofNat 32 pos).toInt by omega)
    (show (BitVec.ofNat 32 pos).toInt + (BitVec.ofNat 32 n).toInt < 2 ^ 31 by omega)
  have hbytes := OpenFile.readAt_bytesOf hlaid (h.holds.sized i hi) (by omega) hr
  have hcont := h.holds.content i hi
  rw [Disk.content] at hcont
  rw [hbytes, ← hcont, hn, hp, Int.toNat_natCast, Int.toNat_natCast] at hr
  rw [FileSystem.read, hg, Option.elim_some, hhdr, hn, hp, hr]
  simp only [bind, Except.bind, ofNat_add]

/-- **`Write`** of bytes that the array has room for. -/
theorem Refines.write (h : Refines fs v) (hk : v.opened[k]? = some key) (heap : Heap)
    {bs : List Byte} {fromBuf : Nat → Byte} (hfrom : ∀ j b, bs[j]? = some b → fromBuf j = b)
    (hover : pos + bs.length < 2 ^ 31) (hfit : pos + bs.length ≤ (v.content key).length) :
    ∃ fs', fs.write heap k (BitVec.ofNat 32 pos) fromBuf (BitVec.ofNat 32 bs.length) =
      .ok (bs.length, BitVec.ofNat 32 (pos + bs.length), fs') ∧ Refines fs' (v.write key pos bs) := by
  have hp := toInt_ofNat (show pos < 2 ^ 31 by omega)
  have hn := toInt_ofNat (show bs.length < 2 ^ 31 by omega)
  obtain ⟨g, i, hg, -⟩ := h.openFiles hk
  have hlt : k < fs.openFiles.length := (List.getElem?_eq_some_iff.mp hg).1
  let c : Call :=
    .op (.writeAt k fromBuf (BitVec.ofNat 32 bs.length) (BitVec.ofNat 32 pos))
  have hok : c.Ok fs := ⟨hlt, by omega, by omega⟩
  obtain ⟨r, fs', hr⟩ := h.returns hok heap
  obtain ⟨v', hst, href⟩ := h.step (c := (c, heap)) hok.2.1 hr
  have hin : Store.inside (v.content key).length bs.length pos = bs.length := by
    unfold Store.inside
    omega
  have hmap : (List.range bs.length).map fromBuf = bs := by
    refine List.ext_getElem (by rw [List.length_map, List.length_range]) fun j h₁ h₂ => ?_
    rw [List.getElem_map, List.getElem_range]
    exact hfrom j _ (List.getElem?_eq_getElem h₂)
  simp only [c, Call.abs, hp, hn, Int.toNat_natCast] at hst
  cases hst with
  | @writeAt _ _ _ _ key' hk' =>
      obtain rfl : key' = key := Option.some.inj (hk'.symm.trans hk)
      rw [hin, hmap] at href
      simp only [c, call, answer, hg, Option.elim_some] at hr
      obtain ⟨⟨m, d'⟩, hw, he⟩ := map_ok hr
      rw [hin] at he
      cases he
      refine ⟨_, ?_, href⟩
      rw [FileSystem.write, hg, Option.elim_some, hw]
      simp only [bind, Except.bind, Int.ofNat_eq_natCast, ofNat_add]

theorem Refines.openIndex (h : Refines fs v) {name : List Byte} (heap : Heap)
    (hk : nameKey name ∈ v.names) : ∃ fs', fs.openIndex name heap = .ok (some v.opened.length, fs') ∧
      Refines fs' { v with opened := v.opened ++ [nameKey name] } ∧ fs'.close v.opened.length = fs := by
  obtain ⟨g, he, href⟩ := h.openFile_done heap hk
  have hlen := h.length_opened
  refine ⟨_, ?_, href, ?_⟩
  · rw [FileSystem.openIndex, he]
    simp only [bind, Except.bind]
    rw [if_pos (by rw [List.length_append, List.length_singleton]; omega), hlen]
  · rw [close, ← hlen]
    dsimp only
    rw [List.eraseIdx_append_of_length_le (Nat.le_refl _), Nat.sub_self, List.eraseIdx_cons_zero,
      List.append_nil]

theorem Refines.openIndex_none (h : Refines fs v) {name : List Byte} (heap : Heap)
    (hk : nameKey name ∉ v.names) : fs.openIndex name heap = .ok (none, fs) := by
  rw [FileSystem.openIndex, h.openFile_none heap hk]
  simp only [bind, Except.bind]
  rw [if_neg (Nat.lt_irrefl _)]

/-- **The loop of `Copy`.** -/
theorem Refines.copyLoop (h : Refines fs v) (hk : v.opened[k]? = some key) (heap : Nat → Heap)
    {rest : List Byte} (hover : pos + rest.length < 2 ^ 31)
    (hfit : pos + rest.length ≤ (v.content key).length) :
    ∃ fs', FileSystem.copyLoop k heap fs (BitVec.ofNat 32 pos) rest = .ok fs' ∧
      Refines fs' (v.write key pos rest) := by
  induction hlen : rest.length using Nat.strong_induction_on generalizing fs v pos rest with
  | h n ih =>
      cases rest with
      | nil =>
          rw [FileSystem.copyLoop, Store.write_nil]
          exact ⟨fs, rfl, h⟩
      | cons b rest =>
          have hsplit := List.take_append_drop TransferSize (b :: rest)
          have hsum := congrArg List.length hsplit
          have hshort := List.length_take_le TransferSize (b :: rest)
          rw [FileSystem.copyLoop]
          generalize hbuf : (b :: rest).take TransferSize = buffer at *
          generalize htail : (b :: rest).drop TransferSize = tail at *
          rw [List.length_append] at hsum
          have hfrom : ∀ j x, buffer[j]? = some x →
              buffer.getD j (heap rest.length 1 j) = x := fun j x hx => by
            rw [List.getD_eq_getElem?_getD, hx]
            rfl
          obtain ⟨fs₁, hw, href⟩ := h.write hk (heap rest.length) hfrom
            (show pos + buffer.length < 2 ^ 31 by omega) (by omega)
          have htl : tail.length < n := by
            have := congrArg List.length htail
            rw [List.length_drop, hlen] at this
            unfold TransferSize at this
            rw [List.length_cons] at hlen
            omega
          obtain ⟨fs₂, hc, href₂⟩ := ih _ htl href hk
            (show pos + buffer.length + tail.length < 2 ^ 31 by omega)
            (by rw [Store.content_write_self, length_overlay]; omega) rfl
          rw [Store.write_write, hsplit] at href₂
          refine ⟨fs₂, ?_, href₂⟩
          simp only [bind, Except.bind, hw]
          exact hc

/-- No file is longer than there is room for in a header. -/
theorem Refines.length_le (h : Refines fs v) (hk : key ∈ v.names) :
    (v.content key).length ≤ MaxFileSize := by
  obtain ⟨i, hi, rfl⟩ := (h.holds.names key).mp hk
  have hlaid := (h.inv.consistent.entry i hi).2
  have hlen := hlaid.length_le
  have hdirect := hlaid.direct
  rw [h.holds.content i hi, Disk.content, OpenFile.length_bytesOf]
  unfold MaxFileSize NumDirect SectorSize at *
  omega

/-- **The loop of `Print`** prints the rest of the file. -/
theorem Refines.printLoop (h : Refines fs v) (hk : v.opened[k]? = some key) (heap : Nat → Heap)
    {fuel : Nat} (hover : (v.content key).length + TransferSize < 2 ^ 31)
    (hpos : pos ≤ (v.content key).length)
    (hfuel : (v.content key).length < pos + fuel) :
    fs.printLoop k heap fuel (BitVec.ofNat 32 pos) = .ok (some ((v.content key).drop pos)) := by
  induction fuel generalizing pos with
  | zero => omega
  | succ fuel ih =>
      have hread := h.read hk (heap fuel) (show pos + TransferSize < 2 ^ 31 by omega)
      rw [FileSystem.printLoop]
      simp only [bind, Except.bind, hread]
      have hin : Store.inside (v.content key).length TransferSize pos =
          min TransferSize ((v.content key).length - pos) := rfl
      generalize Store.inside (v.content key).length TransferSize pos = n at *
      by_cases hn : n = 0
      · subst hn
        have hend : (v.content key).drop pos = [] := by
          rw [List.drop_eq_nil_iff]
          unfold TransferSize at hin
          omega
        rw [if_neg (by simp), hend]
      · rw [if_pos (by omega), ih (by omega) (by omega)]
        dsimp only
        rw [Option.map_some, Int.toNat_natCast, List.take_take, min_eq_left (by omega),
          ← List.drop_drop, List.take_append_drop]

/-- **`Copy`** makes a file of the bytes, where there is room for it. -/
theorem Refines.copy (h : Refines fs v) {bytes name : List Byte} (hlen : bytes.length ≤ MaxFileSize)
    (heap : Nat → Heap) (hfit : v.Fits volume (nameKey name) bytes.length) :
    ∃ fs', fs.copy (some bytes) name heap = .ok (.copied, fs') ∧
      Refines fs' (v.put (nameKey name) bytes) := by
  have hmax : MaxFileSize = 3840 := rfl
  have hint := toInt_ofNat (show bytes.length < 2 ^ 31 by omega)
  have hnat : (BitVec.ofNat 32 bytes.length).toInt.toNat = bytes.length := by
    rw [hint, Int.toNat_natCast]
  obtain ⟨fs₁, bs, hc, hbs, h₁⟩ := h.create_done name ⟨BitVec.ofNat 32 bytes.length, by omega, by omega⟩
    (heap 0) (by rw [hnat]; exact hfit)
  rw [hnat] at hbs
  obtain ⟨fs₂, ho, h₂, -⟩ := h₁.openIndex (heap 1) (Store.mem_put.mpr (.inl rfl))
  have hk : (v.opened ++ [nameKey name])[v.opened.length]? = some (nameKey name) :=
    List.getElem?_concat_length
  obtain ⟨fs₃, hl, h₃⟩ := h₂.copyLoop hk (fun i => heap (i + 2))
    (show 0 + bytes.length < 2 ^ 31 by omega)
    (by
      show 0 + bytes.length ≤ ((v.put (nameKey name) bs).content (nameKey name)).length
      rw [Store.content_put_self]
      omega)
  have h₄ := h₃.close_last (show _ = v.opened ++ [nameKey name] from rfl)
  have hput : ({ ({ v.put (nameKey name) bs with opened := v.opened ++ [nameKey name] } :
      Store (List Byte) Byte).write (nameKey name) 0 bytes with opened := v.opened } :
        Store (List Byte) Byte) = v.put (nameKey name) bytes :=
    Store.write_put v (nameKey name) hbs
  refine ⟨_, ?_, hput ▸ h₄⟩
  have hl' : FileSystem.copyLoop (v.put (nameKey name) bs).opened.length (fun i => heap (i + 2)) fs₂
    0 bytes = .ok fs₃ := hl
  rw [FileSystem.copy, Option.elim_some]
  simp only [bind, Except.bind, hc, if_pos, ho, Option.elim_some]
  rw [hl']
  rfl

theorem Refines.copy_refused (h : Refines fs v) {bytes name : List Byte}
    (hlen : bytes.length ≤ MaxFileSize) (heap : Nat → Heap)
    (hfit : ¬ v.Fits volume (nameKey name) bytes.length) :
    fs.copy (some bytes) name heap = .ok (.noOutput, fs) := by
  have hmax : MaxFileSize = 3840 := rfl
  have hint := toInt_ofNat (show bytes.length < 2 ^ 31 by omega)
  have hc := h.create_refused name ⟨BitVec.ofNat 32 bytes.length, by omega, by omega⟩
    (heap 0) (by rw [hint, Int.toNat_natCast]; exact hfit)
  rw [FileSystem.copy, Option.elim_some]
  simp only [bind, Except.bind, hc]
  rw [if_neg Bool.false_ne_true]

/-- **`Print`** prints the file, and leaves the system as it was. -/
theorem Refines.print (h : Refines fs v) (name : List Byte) (heap : Nat → Heap) {fuel : Nat}
    (hfuel : MaxFileSize < fuel) :
    fs.print name heap fuel = .ok (some (FileSystem.fileOf fs.disk name), fs) := by
  rw [h.fileOf]
  by_cases hk : nameKey name ∈ v.names
  · obtain ⟨fs₁, ho, h₁, hclose⟩ := h.openIndex (heap 0) hk
    have hopen : (v.opened ++ [nameKey name])[v.opened.length]? = some (nameKey name) :=
      List.getElem?_concat_length
    have hlen := h.length_le hk
    have hmax : MaxFileSize = 3840 := rfl
    have hl : fs₁.printLoop v.opened.length (fun i => heap (i + 1)) fuel 0 =
        .ok (some ((v.content (nameKey name)).drop 0)) :=
      h₁.printLoop hopen (fun i => heap (i + 1))
        (show (v.content (nameKey name)).length + TransferSize < 2 ^ 31 by unfold TransferSize; omega)
        (Nat.zero_le _) (show (v.content (nameKey name)).length < 0 + fuel by omega)
    rw [FileSystem.print, if_pos hk]
    simp only [bind, Except.bind, ho, Option.elim_some, hl, hclose, Option.map_some, List.drop_zero]
  · rw [FileSystem.print, h.openIndex_none (heap 0) hk, if_neg hk]
    rfl

/-- **What `Copy` puts into a file, `Print` prints.**  In every reachable state, for a UNIX file of at
most 3840 bytes, `Copy` fails exactly when `Create` does, and then changes nothing; or else the new
file holds the bytes of the UNIX file and every other file is what it was.  `Print` prints the bytes
of a file, or that there is none, and leaves the system as it was. -/
theorem copy_print (h : Reached fs) {bytes : List Byte} (hlen : bytes.length ≤ MaxFileSize)
    (name : List Byte) (heap : Nat → Heap) :
    ∃ r fs', fs.copy (some bytes) name heap = .ok (r, fs') ∧
      (r = .noOutput ∧ Refused fs.disk name (BitVec.ofNat 32 bytes.length) ∧ fs' = fs ∨
        r = .copied ∧ ¬ Refused fs.disk name (BitVec.ofNat 32 bytes.length) ∧
          fileOf fs'.disk name = some bytes ∧ ∀ name', nameKey name' ≠ nameKey name →
            fileOf fs'.disk name' = fileOf fs.disk name') ∧
      ∀ name' heap' fuel, MaxFileSize < fuel →
        fs'.print name' heap' fuel = .ok (some (fileOf fs'.disk name'), fs') := by
  obtain ⟨v, hv⟩ := h.refines
  have hmax : MaxFileSize = 3840 := rfl
  have hint := toInt_ofNat (show bytes.length < 2 ^ 31 by omega)
  have hfit := hv.holds.refused_iff hv.inv.consistent name
    ⟨BitVec.ofNat 32 bytes.length, by omega, by omega⟩
  dsimp only at hfit
  rw [hint, Int.toNat_natCast] at hfit
  by_cases hroom : v.Fits volume (nameKey name) bytes.length
  · obtain ⟨fs', hc, hv'⟩ := hv.copy hlen heap hroom
    refine ⟨_, fs', hc, .inr ⟨rfl, fun hn => hfit.mp hn hroom, ?_, fun name' hne => ?_⟩,
      fun name' heap' fuel hfuel => hv'.print name' heap' hfuel⟩
    · rw [hv'.fileOf, if_pos (Store.mem_put.mpr (.inl rfl)), Store.content_put_self]
    · rw [hv'.fileOf, hv.fileOf]
      refine if_congr (Store.mem_put.trans (or_iff_right hne)) (congrArg some ?_) rfl
      rw [Store.content_put_of_ne v hne]
  · exact ⟨_, fs, hv.copy_refused hlen heap hroom, .inl ⟨rfl, hfit.mpr hroom, rfl⟩,
      fun name' heap' fuel hfuel => hv.print name' heap' hfuel⟩

end

/-- Three bytes are copied to a disk of zeros, and what is there is printed. -/
theorem copy_print_formatted : ∃ fs fs', format (fun _ _ => 0) (fun _ _ => 0) = .ok fs ∧
    fs.copy (some [1, 2, 3]) [97] (fun _ _ _ => 0) = .ok (.copied, fs') ∧
    fs'.print [97] (fun _ _ _ => 0) 4000 = .ok (some (some [1, 2, 3]), fs') := by
  obtain ⟨fs, hf, href⟩ := format_refines (fun _ _ => 0) fun _ _ => 0
  have hlen : [(1 : Byte), 2, 3].length ≤ MaxFileSize := by decide
  obtain ⟨r, fs', hc, hr, hp⟩ := copy_print ⟨_, _, fs, hf, .refl⟩ hlen [97] fun _ _ _ => 0
  rcases hr with ⟨-, hno, -⟩ | ⟨rfl, -, hfile, -⟩
  · exact absurd hno (href.not_refused [97] ⟨3, by decide⟩)
  · exact ⟨fs, fs', hf, hc, hfile ▸ hp [97] (fun _ _ _ => 0) 4000 (by decide)⟩

section
variable {fs : FileSystem} {v : Store (List Byte) Byte} {key : List Byte} {k pos : Nat}

/-! ### The test gives up -/

/-- A `Write` behind the end. -/
theorem Refines.write_end (h : Refines fs v) (hk : v.opened[k]? = some key) (heap : Heap)
    (fromBuf : Nat → Byte) (n : Nat) (hpos : pos < 2 ^ 31) (hend : (v.content key).length ≤ pos) :
    fs.write heap k (BitVec.ofNat 32 pos) fromBuf (BitVec.ofNat 32 n) =
      .ok (0, BitVec.ofNat 32 pos, fs) := by
  obtain ⟨g, i, hg, hi, rfl, hhdr⟩ := h.openFiles hk
  rw [h.holds.content i hi, Disk.content, OpenFile.length_bytesOf] at hend
  rw [FileSystem.write, hg, Option.elim_some, hhdr, OpenFile.writeAt, toInt_ofNat hpos,
    if_pos (.inr (by omega))]
  simp only [bind, Except.bind]
  rw [show BitVec.ofInt 32 0 = BitVec.ofInt 32 ((0 : Nat) : Int) from rfl, ofNat_add, Nat.add_zero]

/-- **`FileRead` gives up**, as no file is so long. -/
theorem Refines.fileReadLoop (h : Refines fs v) (hk : v.opened[k]? = some key) (heap : Nat → Heap)
    {n : Nat} (hover : (v.content key).length + ContentSize < 2 ^ 31)
    (hpos : pos ≤ (v.content key).length) (hshort : (v.content key).length < pos + ContentSize * n) :
    fs.fileReadLoop k heap n (BitVec.ofNat 32 pos) = .ok false := by
  have hsize : ContentSize = 10 := rfl
  induction n generalizing pos with
  | zero => omega
  | succ n ih =>
      have hread := h.read hk (heap n) (show pos + ContentSize < 2 ^ 31 by omega)
      rw [FileSystem.fileReadLoop]
      simp only [bind, Except.bind, hread]
      split
      · rfl
      · rename_i hnot
        rw [not_or, not_lt] at hnot
        have hin : Store.inside (v.content key).length ContentSize pos =
          min ContentSize ((v.content key).length - pos) := rfl
        exact ih (by omega) (by rw [Nat.mul_succ] at hshort; omega)

theorem Refines.fileRead (h : Refines fs v) (heap : Nat → Heap) (hk : nameKey FileName ∈ v.names) :
    fs.fileRead heap = .ok ([.sequentialRead, .unableToRead], fs) := by
  obtain ⟨fs₁, ho, h₁, hclose⟩ := h.openIndex (heap 0) hk
  have hopen : (v.opened ++ [nameKey FileName])[v.opened.length]? = some (nameKey FileName) :=
    List.getElem?_concat_length
  have hlen := h.length_le hk
  have hmax : MaxFileSize = 3840 := rfl
  have hsize : ContentSize = 10 := rfl
  have hl : fs₁.fileReadLoop v.opened.length (fun i => heap (i + 1)) 5000 0 = .ok false :=
    h₁.fileReadLoop hopen (fun i => heap (i + 1))
      (show (v.content (nameKey FileName)).length + ContentSize < 2 ^ 31 by omega) (Nat.zero_le _)
      (show (v.content (nameKey FileName)).length < 0 + ContentSize * 5000 by omega)
  rw [FileSystem.fileRead]
  simp only [bind, Except.bind, ho, Option.elim_some, hl, hclose]
  rfl

theorem Refines.fileRead_none (h : Refines fs v) (heap : Nat → Heap)
    (hk : nameKey FileName ∉ v.names) :
    fs.fileRead heap = .ok ([.sequentialRead, .unableToOpenFile], fs) := by
  rw [FileSystem.fileRead, h.openIndex_none (heap 0) hk]
  rfl

/-- **`FileWrite`** makes an empty file, which it cannot write to. -/
theorem Refines.fileWrite (h : Refines fs v) (heap : Nat → Heap)
    (hfit : v.Fits volume (nameKey FileName) 0) :
    ∃ fs', fs.fileWrite heap = .ok ([.sequentialWrite, .unableToWrite], fs') ∧
      Refines fs' (v.put (nameKey FileName) []) := by
  obtain ⟨fs₁, bs, hc, hbs, h₁⟩ := h.create_done FileName ⟨0, by decide, by decide⟩ (heap 0) hfit
  obtain rfl : bs = [] := List.eq_nil_of_length_eq_zero hbs
  obtain ⟨fs₂, ho, h₂, hclose⟩ := h₁.openIndex (heap 1) (Store.mem_put.mpr (.inl rfl))
  have hopen : ((v.put (nameKey FileName) []).opened ++ [nameKey FileName])[
      (v.put (nameKey FileName) []).opened.length]? = some (nameKey FileName) :=
    List.getElem?_concat_length
  have hw := h₂.write_end hopen (heap (4999 + 2)) (fun j => Contents.getD j 0)
    ContentSize (show 0 < 2 ^ 31 by decide) (by
      show ((v.put (nameKey FileName) []).content (nameKey FileName)).length ≤ 0
      rw [Store.content_put_self]
      exact Nat.le_refl 0)
  have hl : fileWriteLoop (v.put (nameKey FileName) []).opened.length (fun i => heap (i + 2))
      (4999 + 1) fs₂ 0 = .ok (false, fs₂) := by
    have hw' : fs₂.write (heap (4999 + 2)) (v.put (nameKey FileName) []).opened.length 0
      (fun j => Contents.getD j 0) (BitVec.ofNat 32 ContentSize) = .ok (0, _, fs₂) := hw
    rw [fileWriteLoop]
    simp only [bind, Except.bind, hw']
    rfl
  refine ⟨fs₁, ?_, h₁⟩
  rw [FileSystem.fileWrite]
  simp only [bind, Except.bind, hc, if_pos, ho, Option.elim_some, hl, hclose]
  rfl

theorem Refines.fileWrite_refused (h : Refines fs v) (heap : Nat → Heap)
    (hfit : ¬ v.Fits volume (nameKey FileName) 0) :
    fs.fileWrite heap = .ok ([.sequentialWrite, .cantCreate], fs) := by
  have hc := h.create_refused FileName ⟨0, by decide, by decide⟩ (heap 0) hfit
  rw [FileSystem.fileWrite]
  simp only [bind, Except.bind, hc]
  rfl

/-- **`PerformanceTest` does not work on this file system.**  In every reachable state, either there
is a file of the name: the test cannot create its own, fails to read this one to its end and removes
it; or it creates its file empty, can neither write nor read it and removes it; or there is no room
for it and nothing changes.  No file of the name is left, and every other file is what it was. -/
theorem performanceTest_fails (h : Reached fs) (heap : Nat → Nat → Heap) :
    ∃ out fs', fs.performanceTest heap = .ok (out, fs') ∧
      ((fileOf fs.disk FileName ≠ none ∧
          out = [.starting, .sequentialWrite, .cantCreate, .sequentialRead, .unableToRead]) ∨
        (fileOf fs.disk FileName = none ∧ ¬ Refused fs.disk FileName 0 ∧
          out = [.starting, .sequentialWrite, .unableToWrite, .sequentialRead, .unableToRead]) ∨
        (fileOf fs.disk FileName = none ∧ Refused fs.disk FileName 0 ∧ fs' = fs ∧
          out = [.starting, .sequentialWrite, .cantCreate, .sequentialRead, .unableToOpenFile,
            .unableToRemove])) ∧
      fileOf fs'.disk FileName = none ∧
      ∀ name, nameKey name ≠ nameKey FileName → fileOf fs'.disk name = fileOf fs.disk name := by
  obtain ⟨v, hv⟩ := h.refines
  have hfit : Refused fs.disk FileName 0 ↔ ¬ v.Fits volume (nameKey FileName) 0 :=
    hv.holds.refused_iff hv.inv.consistent FileName ⟨0, by decide, by decide⟩
  have hfile := hv.fileOf FileName
  -- the file is removed, from a state that differs in it alone
  have hremove : ∀ {fs₁ v₁}, Refines fs₁ v₁ → nameKey FileName ∈ v₁.names →
      (∀ key, key ≠ nameKey FileName → (key ∈ v₁.names ↔ key ∈ v.names) ∧
        v₁.content key = v.content key) →
      ∃ fs', fs₁.remove FileName (heap 2 0) = .ok (true, fs') ∧ fileOf fs'.disk FileName = none ∧
        ∀ name, nameKey name ≠ nameKey FileName → fileOf fs'.disk name = fileOf fs.disk name := by
    intro fs₁ v₁ h₁ hk hsame
    obtain ⟨fs', hr, h'⟩ := h₁.remove_done (heap 2 0) hk
    refine ⟨fs', hr, ?_, fun name hne => ?_⟩
    · rw [h'.fileOf, if_neg fun hm => (Store.mem_drop.mp hm).1 rfl]
    · obtain ⟨hmem, hcont⟩ := hsame _ hne
      rw [h'.fileOf, hv.fileOf]
      exact if_congr (Store.mem_drop.trans ((and_iff_right hne).trans hmem)) (congrArg some hcont) rfl
  by_cases hk : nameKey FileName ∈ v.names
  · obtain ⟨fs', hr, hnone, hother⟩ := hremove hv hk fun _ _ => ⟨Iff.rfl, rfl⟩
    have hw := hv.fileWrite_refused (heap 0) fun hn => hn.1 hk
    refine ⟨_, fs', ?_, .inl ⟨?_, rfl⟩, hnone, hother⟩
    · rw [FileSystem.performanceTest]
      simp only [bind, Except.bind, hw, hv.fileRead (heap 1) hk, hr]
      rfl
    · rw [hfile, if_pos hk]
      exact Option.some_ne_none _
  rw [if_neg hk] at hfile
  by_cases hroom : v.Fits volume (nameKey FileName) 0
  · obtain ⟨fs₁, hw, h₁⟩ := hv.fileWrite (heap 0) hroom
    have hk₁ : nameKey FileName ∈ (v.put (nameKey FileName) []).names := Store.mem_put.mpr (.inl rfl)
    obtain ⟨fs', hr, hnone, hother⟩ := hremove h₁ hk₁ fun key hne =>
      ⟨Store.mem_put.trans (or_iff_right hne), Store.content_put_of_ne v hne []⟩
    refine ⟨_, fs', ?_, .inr (.inl ⟨hfile, fun hn => hfit.mp hn hroom, rfl⟩), hnone, hother⟩
    rw [FileSystem.performanceTest]
    simp only [bind, Except.bind, hw, h₁.fileRead (heap 1) hk₁, hr]
    rfl
  · have hw := hv.fileWrite_refused (heap 0) hroom
    refine ⟨_, fs, ?_, .inr (.inr ⟨hfile, hfit.mpr hroom, rfl, rfl⟩), hfile, fun _ _ => rfl⟩
    rw [FileSystem.performanceTest]
    simp only [bind, Except.bind, hw, hv.fileRead_none (heap 1) hk, hv.remove_none (heap 2 0) hk]
    rfl

end

/-- The test on a disk of zeros. -/
theorem performanceTest_fails_formatted : ∃ fs fs',
    format (fun _ _ => 0) (fun _ _ => 0) = .ok fs ∧
    fs.performanceTest (fun _ _ _ _ => 0) =
      .ok ([.starting, .sequentialWrite, .unableToWrite, .sequentialRead, .unableToRead], fs') ∧
    fileOf fs'.disk FileName = none := by
  obtain ⟨fs, hf, href⟩ := format_refines (fun _ _ => 0) fun _ _ => 0
  have hreach : Reached fs := ⟨_, _, fs, hf, .refl⟩
  obtain ⟨out, fs', hp, hout, hnone, -⟩ := performanceTest_fails hreach fun _ _ _ _ => 0
  rcases hout with ⟨hsome, -⟩ | ⟨-, -, rfl⟩ | ⟨-, hno, -⟩
  · exact absurd ((href.fileOf FileName).trans (if_neg (Finset.notMem_empty _))) hsome
  · exact ⟨fs, fs', hf, hp, hnone⟩
  · exact absurd hno (href.not_refused FileName ⟨0, by decide⟩)

end FileSystem

end Nachos
