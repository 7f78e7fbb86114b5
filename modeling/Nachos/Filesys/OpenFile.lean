import Nachos.Filesys.Disk
import Nachos.Lib.Traces

/-!
# Filesys — OpenFile

`OpenFile::ReadAt` and `OpenFile::WriteAt` (filesys/openfile.cc) on the disk.  A request is widened
to whole sectors: `ReadAt` reads them all and copies out the part it was asked for; `WriteAt` first
reads the sectors it changes only in part, puts its bytes over them and writes them all back.

`heap` is what a buffer from `new` holds.  `byteAt` is the file as a byte array, and `readAt_eq` and
`writeAt_eq` say what a request does to it.
-/

namespace Nachos
open Lib

namespace OpenFile

/-- The bytes a request transfers that is not refused. -/
def clamp (fileLength numBytes position : Int) : Int :=
  if asInt (position + numBytes) > fileLength then fileLength - position else numBytes

def firstSector (position : Int) : Int := position.tdiv SectorSize

def lastSector (numBytes position : Int) : Int :=
  (asInt (position + numBytes - 1)).tdiv SectorSize

/-- `1 + lastSector - firstSector`. -/
def numSectors (numBytes position : Int) : Int :=
  1 + lastSector numBytes position - firstSector position

/-- Where the bytes of a request lie in a buffer for its sectors, which has to hold them. -/
def offset (numBytes position : Int) : Except Stop Nat :=
  if 0 ≤ position - firstSector position * SectorSize ∧
      position - firstSector position * SectorSize + numBytes ≤
        numSectors numBytes position * SectorSize then
    .ok (position - firstSector position * SectorSize).toNat
  else .error .outOfBounds

/-- A sector read to `&buf[off]`. -/
def place (buf : Nat → Byte) (off : Nat) (data : SectorData) : Nat → Byte := fun j =>
  if h : off ≤ j ∧ j - off < SectorSize then data ⟨j - off, h.2⟩ else buf j

/-- `bcopy` to `&buf[off]`. -/
def bcopy (bytes : List Byte) (buf : Nat → Byte) (off : Nat) : Nat → Byte := fun j =>
  if off ≤ j then (bytes[j - off]?).getD (buf j) else buf j

/-- The loop that reads `n` sectors of the file from the sector `first` on. -/
def readSectors (d : Disk) (hdr : FileHeader) (first : Int) :
    (n : Nat) → (Nat → Byte) → Except Stop (Nat → Byte)
  | 0, buf => .ok buf
  | n + 1, buf => do
      let buf ← readSectors d hdr first n buf
      let sector ← hdr.byteToSector ((first + n) * SectorSize)
      let data ← d.readSector sector
      .ok (place buf (n * SectorSize) data)

/-- The loop that writes them. -/
def writeSectors (d : Disk) (hdr : FileHeader) (first : Int) (buf : Nat → Byte) :
    (n : Nat) → Except Stop Disk
  | 0 => .ok d
  | n + 1 => do
      let d ← writeSectors d hdr first buf n
      let sector ← hdr.byteToSector ((first + n) * SectorSize)
      d.writeSector sector fun x => buf (n * SectorSize + x)

/-- `ReadAt` behind its checks. -/
def readChecked (d : Disk) (hdr : FileHeader) (heap : Nat → Byte) (numBytes position : Int) :
    Except Stop (Int × List Byte) := do
  let buf ← readSectors d hdr (firstSector position) (numSectors numBytes position).toNat heap
  let off ← offset numBytes position
  .ok (numBytes, (List.range numBytes.toNat).map fun j => buf (off + j))

/-- `OpenFile::ReadAt`: what it returns, and the bytes it puts into `into`. -/
def readAt (d : Disk) (hdr : FileHeader) (heap : Nat → Byte) (numBytes position : Int) :
    Except Stop (Int × List Byte) :=
  if numBytes ≤ 0 ∨ hdr.fileLength ≤ position then .ok (0, [])
  else readChecked d hdr heap (clamp hdr.fileLength numBytes position) position

def firstAligned (position : Int) : Bool := position == firstSector position * SectorSize

def lastAligned (numBytes position : Int) : Bool :=
  asInt (position + numBytes) == (lastSector numBytes position + 1) * SectorSize

/-- A sector of the file read by `ReadAt` to `&buf[off]`. -/
def readPart (d : Disk) (hdr : FileHeader) (heap buf : Nat → Byte) (off : Nat) (sector : Int) :
    Except Stop (Nat → Byte) := do
  let r ← readAt d hdr heap SectorSize (sector * SectorSize)
  .ok (bcopy r.2 buf off)

/-- The buffer of `WriteAt`, with the first sector if it is to be partially modified. -/
def readFirst (d : Disk) (hdr : FileHeader) (heap : Nat → Byte) (position : Int) :
    Except Stop (Nat → Byte) :=
  if firstAligned position then .ok heap else readPart d hdr heap heap 0 (firstSector position)

/-- And with the last one, unless it is the first one and has been read. -/
def readLast (d : Disk) (hdr : FileHeader) (heap buf : Nat → Byte) (numBytes position : Int) :
    Except Stop (Nat → Byte) :=
  if !lastAligned numBytes position &&
      (firstSector position != lastSector numBytes position || firstAligned position) then
    readPart d hdr heap buf
      ((lastSector numBytes position - firstSector position) * SectorSize).toNat
      (lastSector numBytes position)
  else .ok buf

def widen (d : Disk) (hdr : FileHeader) (heap : Nat → Byte) (numBytes position : Int) :
    Except Stop (Nat → Byte) := do
  let buf ← readFirst d hdr heap position
  readLast d hdr heap buf numBytes position

/-- `WriteAt` behind its checks. -/
def writeChecked (d : Disk) (hdr : FileHeader) (heap fromBuf : Nat → Byte)
    (numBytes position : Int) : Except Stop (Int × Disk) := do
  let buf ← widen d hdr heap numBytes position
  let off ← offset numBytes position
  let d ← writeSectors d hdr (firstSector position)
    (bcopy ((List.range numBytes.toNat).map fromBuf) buf off)
    (numSectors numBytes position).toNat
  .ok (numBytes, d)

/-- `OpenFile::WriteAt`: what it returns, and the disk. -/
def writeAt (d : Disk) (hdr : FileHeader) (heap fromBuf : Nat → Byte) (numBytes position : Int) :
    Except Stop (Int × Disk) :=
  if numBytes ≤ 0 ∨ hdr.fileLength ≤ position then .ok (0, d)
  else writeChecked d hdr heap fromBuf (clamp hdr.fileLength numBytes position) position

/-! ### The file as an array -/

/-- Byte `x` of a file whose data sectors are `l`. -/
def byteAt (d : Disk) (l : List Sector) (x : Nat) : Byte :=
  (l[x / SectorSize]?).elim 0 fun s => d s ⟨x % SectorSize, Nat.mod_lt _ (by decide)⟩

/-- The bytes a request transfers. -/
def transferred (fileLength numBytes position : Int) : Int :=
  if numBytes ≤ 0 ∨ fileLength ≤ position then 0 else min numBytes (fileLength - position)

section
variable {d : Disk} {hdr : FileHeader} {l : List Sector} {heap buf fromBuf : Nat → Byte}
  {numBytes position : Int}

theorem readSectors_eq (h : hdr.Laid l) (d : Disk) (buf : Nat → Byte) {first n : Nat}
    (hn : first + n ≤ l.length) :
    readSectors d hdr first n buf = .ok fun j =>
      if j < n * SectorSize then byteAt d l (first * SectorSize + j) else buf j := by
  induction n with
  | zero => simp [readSectors]
  | succ n ih =>
      obtain ⟨s, hs⟩ : ∃ s, l[first + n]? = some s := ⟨_, List.getElem?_eq_getElem (by omega)⟩
      have hsec := h.byteToSector_eq hs
      rw [Int.natCast_add] at hsec
      rw [readSectors, ih (by omega)]
      simp only [bind, Except.bind, hsec, Disk.readSector_eq]
      congr 1
      funext j
      unfold place
      by_cases hj : n * SectorSize ≤ j ∧ j - n * SectorSize < SectorSize
      · have hdiv : (first * SectorSize + j) / SectorSize = first + n := by
          unfold SectorSize at *
          omega
        have hmod : (first * SectorSize + j) % SectorSize = j - n * SectorSize := by
          unfold SectorSize at *
          omega
        rw [dif_pos hj, if_pos (by unfold SectorSize at *; omega)]
        unfold byteAt
        simp only [hdiv, hs, hmod, Option.elim_some]
      · rw [dif_neg hj]
        refine if_congr ?_ rfl rfl
        unfold SectorSize at *
        omega

theorem byteAt_update (d : Disk) (hl : l.Nodup) {i : Nat} {s : Sector} (hs : l[i]? = some s)
    (data : SectorData) (x : Nat) : byteAt (Function.update d s data) l x =
      if x / SectorSize = i then data ⟨x % SectorSize, Nat.mod_lt _ (by decide)⟩
      else byteAt d l x := by
  unfold byteAt
  split
  · rename_i hx
    rw [hx, hs, Option.elim_some, Function.update_self]
  · rename_i hx
    cases hk : l[x / SectorSize]? with
    | none => rfl
    | some k =>
        have hne : k ≠ s := by
          rintro rfl
          obtain ⟨hlt, -⟩ := List.getElem?_eq_some_iff.mp hk
          exact hx ((List.getElem?_inj hlt hl).mp (hk.trans hs.symm))
        rw [Option.elim_some, Option.elim_some, Function.update_of_ne hne]

theorem writeSectors_eq (h : hdr.Laid l) (d : Disk) (buf : Nat → Byte) {first n : Nat}
    (hn : first + n ≤ l.length) :
    ∃ d', writeSectors d hdr first buf n = .ok d' ∧ (∀ s, s ∉ l → d' s = d s) ∧
      ∀ x, byteAt d' l x = if first * SectorSize ≤ x ∧ x < (first + n) * SectorSize then
        buf (x - first * SectorSize) else byteAt d l x := by
  induction n with
  | zero =>
      refine ⟨d, rfl, fun _ _ => rfl, fun x => ?_⟩
      rw [if_neg (by unfold SectorSize; omega)]
  | succ n ih =>
      obtain ⟨s, hs⟩ : ∃ s, l[first + n]? = some s := ⟨_, List.getElem?_eq_getElem (by omega)⟩
      obtain ⟨d₁, hd, hout, hin⟩ := ih (by omega)
      have hsec := h.byteToSector_eq hs
      rw [Int.natCast_add] at hsec
      rw [writeSectors, hd]
      simp only [bind, Except.bind, hsec, Disk.writeSector_eq]
      refine ⟨_, rfl, fun k hk => ?_, fun x => ?_⟩
      · have hne : k ≠ s := by
          rintro rfl
          exact hk (List.mem_of_getElem? hs)
        rw [Function.update_of_ne hne, hout k hk]
      · rw [byteAt_update d₁ h.nodup hs, hin]
        by_cases hx : x / SectorSize = first + n
        · rw [if_pos hx, if_pos (by unfold SectorSize at *; omega)]
          dsimp only
          congr 1
          unfold SectorSize at *
          omega
        · rw [if_neg hx]
          refine if_congr ?_ rfl rfl
          unfold SectorSize at *
          omega

theorem firstSector_eq (h : 0 ≤ position) :
    firstSector position = (position.toNat / SectorSize : Nat) := by
  rw [firstSector, Int.tdiv_eq_ediv_of_nonneg h]
  unfold SectorSize
  omega

theorem fileLength_lt (hdr : FileHeader) : hdr.fileLength < 2 ^ 31 := BitVec.toInt_lt

theorem lastSector_eq (h : 0 ≤ position) (hn : 0 < numBytes)
    (hle : position + numBytes ≤ hdr.fileLength) :
    lastSector numBytes position = ((position + numBytes - 1).toNat / SectorSize : Nat) := by
  have hlt := fileLength_lt hdr
  rw [lastSector, asInt_eq (by omega) (by omega), Int.tdiv_eq_ediv_of_nonneg (by omega)]
  unfold SectorSize
  omega

theorem offset_eq (h : 0 ≤ position) (hn : 0 < numBytes)
    (hle : position + numBytes ≤ hdr.fileLength) :
    offset numBytes position = .ok (position.toNat % SectorSize) := by
  unfold offset numSectors
  rw [firstSector_eq h, lastSector_eq h hn hle, if_pos (by unfold SectorSize; omega)]
  congr 1
  unfold SectorSize
  omega

theorem numSectors_eq (h : 0 ≤ position) (hn : 0 < numBytes)
    (hle : position + numBytes ≤ hdr.fileLength) :
    position.toNat / SectorSize + (numSectors numBytes position).toNat =
      1 + (position + numBytes - 1).toNat / SectorSize := by
  rw [numSectors, firstSector_eq h, lastSector_eq h hn hle]
  unfold SectorSize
  omega

/-- The sectors of a request inside the file. -/
theorem first_add_le (h : hdr.Laid l) (hp : 0 ≤ position) (hn : 0 < numBytes)
    (hle : position + numBytes ≤ hdr.fileLength) :
    position.toNat / SectorSize + (numSectors numBytes position).toNat ≤ l.length := by
  have hlen := h.length_le
  rw [numSectors_eq hp hn hle]
  unfold SectorSize at *
  omega

theorem readChecked_eq (h : hdr.Laid l) (hp : 0 ≤ position) (hn : 0 < numBytes)
    (hle : position + numBytes ≤ hdr.fileLength) :
    readChecked d hdr heap numBytes position = .ok (numBytes,
      (List.range numBytes.toNat).map fun j => byteAt d l (position.toNat + j)) := by
  have hread := readSectors_eq h d heap (first_add_le h hp hn hle)
  unfold readChecked
  rw [firstSector_eq hp, hread, offset_eq hp hn hle]
  simp only [bind, Except.bind]
  congr 2
  refine List.map_congr_left fun j hj => ?_
  have hj' := List.mem_range.mp hj
  have hnum := numSectors_eq hp hn hle
  rw [if_pos (by unfold SectorSize at *; omega)]
  congr 1
  unfold SectorSize
  omega

theorem clamp_eq (hp : 0 ≤ position) (hn : 0 < numBytes) (hover : position + numBytes < 2 ^ 31)
    (fileLength : Int) :
    clamp fileLength numBytes position = min numBytes (fileLength - position) := by
  unfold clamp
  rw [asInt_eq (by omega) hover]
  split <;> omega

/-- **What `ReadAt` delivers.** -/
theorem readAt_eq (h : hdr.Laid l) (d : Disk) (heap : Nat → Byte) (hp : 0 ≤ position)
    (hover : position + numBytes < 2 ^ 31) :
    readAt d hdr heap numBytes position =
      .ok (transferred hdr.fileLength numBytes position,
        (List.range (transferred hdr.fileLength numBytes position).toNat).map fun j =>
          byteAt d l (position.toNat + j)) := by
  unfold readAt transferred
  split
  · rfl
  · rw [clamp_eq hp (by omega) hover, readChecked_eq h hp (by omega) (by omega)]

/-- A sector read by `ReadAt`: its bytes up to the end of the file, in their place. -/
theorem readPart_eq (h : hdr.Laid l) {off i : Nat} (hi : i * SectorSize < hdr.fileLength) :
    readPart d hdr heap buf off i = .ok fun j =>
      if off ≤ j ∧ j < off + SectorSize ∧ ((i * SectorSize + (j - off) : Nat) : Int) < hdr.fileLength
      then byteAt d l (i * SectorSize + (j - off)) else buf j := by
  have hlen := h.length_le
  have hd := h.direct
  have hread := readAt_eq h d heap (show (0 : Int) ≤ i * SectorSize by unfold SectorSize; omega)
    (show (i * SectorSize : Int) + SectorSize < 2 ^ 31 by unfold SectorSize NumDirect at *; omega)
  have htr : transferred hdr.fileLength SectorSize (i * SectorSize) =
      min (SectorSize : Int) (hdr.fileLength - i * SectorSize) :=
    if_neg (by unfold SectorSize at *; omega)
  have hpos : ((i : Int) * SectorSize).toNat = i * SectorSize := by
    rw [← Int.natCast_mul, Int.toNat_natCast]
  unfold readPart
  rw [hread, htr, hpos]
  simp only [bind, Except.bind]
  congr 1
  funext j
  unfold bcopy
  by_cases hoff : off ≤ j
  · rw [if_pos hoff, List.getElem?_map]
    by_cases hj : j - off < (min (SectorSize : Int) (hdr.fileLength - i * SectorSize)).toNat
    · rw [List.getElem?_range hj, if_pos (by unfold SectorSize at *; omega)]
      rfl
    · rw [List.getElem?_eq_none (by rw [List.length_range]; omega),
        if_neg (by unfold SectorSize at *; omega)]
      rfl
  · rw [if_neg hoff, if_neg (by omega)]

theorem firstAligned_iff (hp : 0 ≤ position) :
    firstAligned position = true ↔ position.toNat % SectorSize = 0 := by
  unfold firstAligned
  rw [beq_iff_eq, firstSector_eq hp]
  unfold SectorSize
  omega

theorem lastAligned_iff (hp : 0 ≤ position) (hn : 0 < numBytes)
    (hle : position + numBytes ≤ hdr.fileLength) :
    lastAligned numBytes position = true ↔ (position + numBytes).toNat % SectorSize = 0 := by
  have hlt := fileLength_lt hdr
  unfold lastAligned
  rw [beq_iff_eq, asInt_eq (by omega) (by omega), lastSector_eq hp hn hle]
  unfold SectorSize
  omega

/-- The first sector is read when the bytes to be written do not begin with it. -/
theorem readFirst_eq (h : hdr.Laid l) (d : Disk) (heap : Nat → Byte) (hp : 0 ≤ position)
    (hlt : position < hdr.fileLength) : ∃ b, readFirst d hdr heap position = .ok b ∧
      (firstAligned position = false → ∀ j, j < SectorSize →
        ((position.toNat / SectorSize * SectorSize + j : Nat) : Int) < hdr.fileLength →
        b j = byteAt d l (position.toNat / SectorSize * SectorSize + j)) := by
  unfold readFirst
  split
  · rename_i hf
    exact ⟨heap, rfl, fun hf' => by rw [hf] at hf'; cases hf'⟩
  · rw [firstSector_eq hp, readPart_eq h (by unfold SectorSize; omega)]
    refine ⟨_, rfl, fun _ j hj hlt => ?_⟩
    simp only [Nat.sub_zero, Nat.zero_add]
    rw [if_pos ⟨Nat.zero_le _, hj, hlt⟩]

/-- The buffer holds what is not to be changed, up to the end of the file. -/
theorem widen_eq (h : hdr.Laid l) (d : Disk) (heap : Nat → Byte) (hp : 0 ≤ position) (hn : 0 < numBytes)
    (hle : position + numBytes ≤ hdr.fileLength) :
    ∃ buf, widen d hdr heap numBytes position = .ok buf ∧
      ∀ j x, x = position.toNat / SectorSize * SectorSize + j →
        x / SectorSize ≤ (position + numBytes - 1).toNat / SectorSize →
        (x : Int) < hdr.fileLength → ¬ (position ≤ x ∧ x < position + numBytes) →
        buf j = byteAt d l x := by
  have hfA := firstAligned_iff hp
  have hlA := lastAligned_iff hp hn hle
  obtain ⟨b, hb, hv⟩ := readFirst_eq h d heap hp (by omega)
  unfold widen readLast
  simp only [bind, Except.bind, hb]
  rw [firstSector_eq hp, lastSector_eq hp hn hle]
  split
  · -- the last sector, which is another one or the first one, not read yet
    rename_i hcond
    simp only [Bool.and_eq_true, Bool.not_eq_eq_eq_not, Bool.not_true, Bool.or_eq_true,
      bne_iff_ne, ne_eq] at hcond
    rw [readPart_eq h (by unfold SectorSize; omega)]
    refine ⟨_, rfl, fun j x hx hlast hlt hout => ?_⟩
    have hoff : (((((position + numBytes - 1).toNat / SectorSize : Nat) : Int) -
        (position.toNat / SectorSize : Nat)) * SectorSize).toNat =
        ((position + numBytes - 1).toNat / SectorSize - position.toNat / SectorSize) *
          SectorSize := by
      unfold SectorSize
      omega
    rw [hoff]
    by_cases hin : x / SectorSize = (position + numBytes - 1).toNat / SectorSize
    · have hpos : (position + numBytes - 1).toNat / SectorSize * SectorSize +
          (j - ((position + numBytes - 1).toNat / SectorSize - position.toNat / SectorSize) *
            SectorSize) = x := by
        unfold SectorSize at *
        omega
      rw [if_pos ⟨by unfold SectorSize at *; omega, by unfold SectorSize at *; omega,
        by rw [hpos]; exact hlt⟩, hpos]
    · rw [if_neg (by unfold SectorSize at *; omega)]
      have hfirst : firstAligned position = false := by
        by_contra hf
        have := hfA.mp (by simpa using hf)
        unfold SectorSize at *
        omega
      rw [hx]
      exact hv hfirst j (by unfold SectorSize at *; omega) (by rw [← hx]; exact hlt)
  · rename_i hcond
    refine ⟨b, rfl, fun j x hx hlast hlt hout => ?_⟩
    simp only [Bool.and_eq_true, Bool.not_eq_eq_eq_not, Bool.not_true, Bool.or_eq_true,
      bne_iff_ne, ne_eq, not_and_or, not_or] at hcond
    have hfirst : firstAligned position = false := by
      by_contra hf
      have hf' := hfA.mp (by simpa using hf)
      have hl' : lastAligned numBytes position = true := by
        by_contra hl
        rcases hcond with hc | ⟨-, hc⟩
        · exact hc (by simpa using hl)
        · exact hc (by simpa using hf)
      have := hlA.mp hl'
      unfold SectorSize at *
      omega
    rw [hx]
    refine hv hfirst j ?_ (by rw [← hx]; exact hlt)
    rcases hcond with hc | ⟨hc, -⟩
    · have := hlA.mp (by simpa using hc)
      unfold SectorSize at *
      omega
    · have hc' := not_not.mp hc
      unfold SectorSize at *
      omega

/-- `bcopy` of the first bytes of another buffer. -/
theorem bcopy_range (n : Nat) (fromBuf buf : Nat → Byte) (off j : Nat) :
    bcopy ((List.range n).map fromBuf) buf off j =
      if off ≤ j ∧ j < off + n then fromBuf (j - off) else buf j := by
  unfold bcopy
  by_cases hoff : off ≤ j
  · rw [if_pos hoff, List.getElem?_map]
    by_cases hj : j < off + n
    · rw [List.getElem?_range (by omega), if_pos ⟨hoff, hj⟩]
      rfl
    · rw [List.getElem?_eq_none (by rw [List.length_range]; omega), if_neg fun h => hj h.2]
      rfl
  · rw [if_neg hoff, if_neg fun h => hoff h.1]

/-- `WriteAt` behind its checks writes its bytes, and leaves the rest of the file. -/
theorem writeChecked_eq (h : hdr.Laid l) (hp : 0 ≤ position) (hn : 0 < numBytes)
    (hle : position + numBytes ≤ hdr.fileLength) :
    ∃ d', writeChecked d hdr heap fromBuf numBytes position = .ok (numBytes, d') ∧
      (∀ s, s ∉ l → d' s = d s) ∧ ∀ x : Nat, (x : Int) < hdr.fileLength →
        byteAt d' l x = if position ≤ x ∧ x < position + numBytes then
          fromBuf (x - position.toNat) else byteAt d l x := by
  obtain ⟨buf, hbuf, hkeep⟩ := widen_eq h d heap hp hn hle
  obtain ⟨d', hd', hout, hin⟩ := writeSectors_eq h d
    (bcopy ((List.range numBytes.toNat).map fromBuf) buf (position.toNat % SectorSize))
    (first_add_le h hp hn hle)
  unfold writeChecked
  simp only [bind, Except.bind, hbuf, offset_eq hp hn hle]
  rw [firstSector_eq hp, hd']
  refine ⟨d', rfl, hout, fun x hx => ?_⟩
  have hnum := numSectors_eq hp hn hle
  rw [hin]
  by_cases hx' : position ≤ x ∧ x < position + numBytes
  · rw [if_pos hx', if_pos (by unfold SectorSize at *; omega), bcopy_range,
      if_pos (by unfold SectorSize at *; omega)]
    congr 1
    unfold SectorSize at *
    omega
  · rw [if_neg hx']
    split
    · rw [bcopy_range, if_neg (by unfold SectorSize at *; omega)]
      exact hkeep (x - position.toNat / SectorSize * SectorSize) x (by omega)
        (by unfold SectorSize at *; omega) hx hx'
    · rfl

/-- **What `WriteAt` writes.** -/
theorem writeAt_eq (h : hdr.Laid l) (d : Disk) (heap fromBuf : Nat → Byte) (hp : 0 ≤ position)
    (hover : position + numBytes < 2 ^ 31) :
    ∃ d', writeAt d hdr heap fromBuf numBytes position =
        .ok (transferred hdr.fileLength numBytes position, d') ∧
      (∀ s, s ∉ l → d' s = d s) ∧ ∀ x : Nat, (x : Int) < hdr.fileLength →
        byteAt d' l x = if position ≤ x ∧
            x < position + transferred hdr.fileLength numBytes position then
          fromBuf (x - position.toNat) else byteAt d l x := by
  unfold writeAt transferred
  split
  · refine ⟨d, rfl, fun _ _ => rfl, fun x _ => ?_⟩
    rw [if_neg (by omega)]
  · rw [clamp_eq hp (by omega) hover]
    exact writeChecked_eq h hp (by omega) (by omega)

/-! Where the arguments are two `int`s and the position is not negative, a request that is carried out
is one inside the file. -/

theorem byteToSector_index {i r : Int} (h : hdr.byteToSector (i * SectorSize) = .ok r) :
    i < NumDirect := by
  have hdiv : (i * SectorSize).tdiv SectorSize = i := Int.mul_tdiv_cancel _ (by decide)
  unfold FileHeader.byteToSector at h
  split at h
  · rename_i hi
    rw [hdiv] at hi
    exact hi.2
  · cases h

theorem writeSectors_index {first : Int} {n : Nat} {d' : Disk}
    (h : writeSectors d hdr first buf (n + 1) = .ok d') : first + n < NumDirect := by
  rw [writeSectors] at h
  simp only [bind, Except.bind] at h
  split at h
  · cases h
  split at h
  · cases h
  rename_i hb
  exact byteToSector_index hb

/-- What the indices say of a request that is carried out: its bytes fit into the buffer, and its last
sector is one of the header. -/
structure Indexed (numBytes position : Int) : Prop where
  fits : position - firstSector position * SectorSize + numBytes ≤
    numSectors numBytes position * SectorSize
  last : lastSector numBytes position < NumDirect

theorem offset_fits {off : Nat} (h : offset numBytes position = .ok off) :
    0 ≤ position - firstSector position * SectorSize ∧
      position - firstSector position * SectorSize + numBytes ≤
        numSectors numBytes position * SectorSize := by
  unfold offset at h
  split at h
  · rename_i ho
    exact ho
  · cases h

/-- There is a sector to be read or written. -/
theorem numSectors_succ {off : Nat} (hn : 0 < numBytes) (h : offset numBytes position = .ok off) :
    ∃ k, (numSectors numBytes position).toNat = k + 1 := by
  obtain ⟨h₁, h₂⟩ := offset_fits h
  refine Nat.exists_eq_succ_of_ne_zero ?_
  unfold SectorSize at *
  omega

theorem writeChecked_indexed {r : Int × Disk} (hn : 0 < numBytes)
    (h : writeChecked d hdr heap fromBuf numBytes position = .ok r) : Indexed numBytes position := by
  unfold writeChecked at h
  simp only [bind, Except.bind] at h
  split at h
  · cases h
  split at h
  · cases h
  rename_i off hoff
  split at h
  · cases h
  rename_i d' hd'
  obtain ⟨k, hk⟩ := numSectors_succ hn hoff
  rw [hk] at hd'
  have hi := writeSectors_index hd'
  refine ⟨(offset_fits hoff).2, ?_⟩
  unfold numSectors at *
  omega

theorem clamp_pos {fileLength n p : Int} (hn : ¬ (n ≤ 0 ∨ fileLength ≤ p)) :
    0 < clamp fileLength n p := by
  unfold clamp
  split <;> omega

/-- The sum of such a request does not overflow. -/
theorem Indexed.inside {fileLength : Int} {n p : Word} (hpos : 0 ≤ p.toInt)
    (hn : ¬ (n.toInt ≤ 0 ∨ fileLength ≤ p.toInt))
    (h : Indexed (clamp fileLength n.toInt p.toInt) p.toInt) : p.toInt + n.toInt < 2 ^ 31 := by
  obtain ⟨h₁, h₂⟩ := h
  have hnlt : n.toInt < 2 ^ 31 := BitVec.toInt_lt
  have hplt : p.toInt < 2 ^ 31 := BitVec.toInt_lt
  obtain ⟨hq, hq₀, hq₁⟩ := tdiv_add_tmod p.toInt
  have hs : ((SectorSize : Nat) : Int) = 128 := rfl
  have hd : NumDirect = 30 := rfl
  unfold numSectors lastSector firstSector at *
  simp only [hs] at h₁ h₂
  by_contra hover
  -- the sum overflows, so that nothing is cut off
  have hcl : clamp fileLength n.toInt p.toInt = n.toInt := by
    unfold clamp
    rw [asInt, BitVec.toInt_ofInt, Int.bmod_def, if_neg (by omega)]
  rw [hcl] at h₁ h₂
  obtain ⟨he, -, he₁⟩ := tdiv_add_tmod (asInt (p.toInt + n.toInt - 1))
  have hsum : asInt (p.toInt + n.toInt - 1) =
      if p.toInt + n.toInt = 2 ^ 31 then 2 ^ 31 - 1 else p.toInt + n.toInt - 1 - 2 ^ 32 := by
    rw [asInt, BitVec.toInt_ofInt, Int.bmod_def]
    split <;> split <;> omega
  split at hsum <;> omega

/-- A `WriteAt` that returns has refused its request, or the request lies in the file. -/
theorem writeAt_inside {n p : Word} (hpos : 0 ≤ p.toInt) {r : Int × Disk}
    (h : writeAt d hdr heap fromBuf n.toInt p.toInt = .ok r) :
    (n.toInt ≤ 0 ∨ hdr.fileLength ≤ p.toInt) ∨ p.toInt + n.toInt < 2 ^ 31 := by
  unfold writeAt at h
  split at h
  · rename_i href
    exact .inl href
  · rename_i hn
    exact .inr ((writeChecked_indexed (clamp_pos hn) h).inside hpos hn)

/-- A `WriteAt` that returns touches no other sector, at whatever position that is not negative. -/
theorem writeAt_frame (h : hdr.Laid l) {n p : Word} (hpos : 0 ≤ p.toInt) {r : Int × Disk}
    (hw : writeAt d hdr heap fromBuf n.toInt p.toInt = .ok r) : ∀ s, s ∉ l → r.2 s = d s := by
  rcases writeAt_inside hpos hw with href | hover
  · rw [writeAt, if_pos href] at hw
    cases hw
    exact fun _ _ => rfl
  · obtain ⟨d', hd', hout, -⟩ := writeAt_eq h d heap fromBuf hpos hover
    rw [hd'] at hw
    cases hw
    exact hout

/-- A request for the 128 bytes before a file of one sector reads that sector, the last one of the
request, behind the bytes to be written. -/
theorem widen_before {s : Sector} (h : hdr.Laid [s]) (hlen : hdr.numBytes = 128) (d : Disk)
    (heap : Nat → Byte) : ∃ b, widen d hdr heap 128 (-128) = .ok b ∧
      ∀ x : Fin SectorSize, b (128 + x.val) = d s x := by
  have hfile : hdr.fileLength = 128 := by rw [FileHeader.fileLength, hlen]; rfl
  have hpart : readPart d hdr heap heap 128 0 = .ok fun j =>
      if 128 ≤ j ∧ j < 128 + SectorSize ∧ ((0 * SectorSize + (j - 128) : Nat) : Int) < hdr.fileLength
      then byteAt d [s] (0 * SectorSize + (j - 128)) else heap j :=
    readPart_eq h (by rw [hfile]; decide)
  refine ⟨_, hpart, fun x => ?_⟩
  have hx : x.val < 128 := x.isLt
  rw [hfile, if_pos (by unfold SectorSize; omega), Nat.zero_mul, Nat.zero_add,
    Nat.add_sub_cancel_left, byteAt, Nat.div_eq_of_lt x.isLt]
  exact congrArg (d s) (Fin.ext (Nat.mod_eq_of_lt x.isLt))

/-- **A request before the beginning of a file** of one sector: its bytes go to the sector whose number
is `numSectors`, that is 1, and it returns as one that is carried out. -/
theorem writeAt_before {s : Sector} (h : hdr.Laid [s]) (hlen : hdr.numBytes = 128) (hs : s ≠ 1)
    (d : Disk) (heap fromBuf : Nat → Byte) :
    ∃ d', writeAt d hdr heap fromBuf 128 (-128) = .ok (128, d') ∧
      (d' 1 = fun x => fromBuf x.val) ∧ ∀ k, k ≠ 1 → d' k = d k := by
  have hfile : hdr.fileLength = 128 := by rw [FileHeader.fileLength, hlen]; rfl
  have hnum : hdr.numSectors.toInt = 1 := by
    rw [h.roundUp, hlen]
    rfl
  -- `dataSectors[-1]` is `numSectors`
  have hbefore : hdr.byteToSector (-1 * SectorSize) = .ok 1 := by
    rw [FileHeader.byteToSector, if_pos (by decide)]
    exact congrArg Except.ok hnum
  have hfirst : hdr.byteToSector (0 * SectorSize) = .ok (s.val : Int) := h.byteToSector_eq rfl
  obtain ⟨b, hwiden, hkeep⟩ := widen_before h hlen d heap
  have hone : ((1 : Sector).val : Int) = 1 := rfl
  refine ⟨Function.update (Function.update d 1 fun x => fromBuf x.val) s (d s), ?_, ?_, fun k hk => ?_⟩
  · have hwrite : writeSectors d hdr (-1) (bcopy ((List.range 128).map fromBuf) b 0) 2 =
        .ok (Function.update (Function.update d 1 fun x => fromBuf x.val) s (d s)) := by
      have h₁ : writeSectors d hdr (-1) (bcopy ((List.range 128).map fromBuf) b 0) 1 =
          .ok (Function.update d 1 fun x => fromBuf x.val) := by
        rw [writeSectors, writeSectors, Int.natCast_zero, Int.add_zero, hbefore, ← hone]
        simp only [bind, Except.bind, Disk.writeSector_eq]
        congr 2
        funext x
        rw [Nat.zero_mul, Nat.zero_add, bcopy_range, if_pos ⟨Nat.zero_le _, by
          have := x.isLt
          unfold SectorSize at *
          omega⟩, Nat.sub_zero]
      -- the one sector of the file is given the bytes it has
      rw [writeSectors, h₁, show (-1 : Int) + (1 : Nat) = 0 from rfl, hfirst]
      simp only [bind, Except.bind, Disk.writeSector_eq]
      congr 2
      funext x
      rw [bcopy_range, if_neg (by unfold SectorSize; omega)]
      exact hkeep x
    rw [writeAt, hfile, if_neg (by decide), show clamp 128 128 (-128) = 128 by decide, writeChecked,
      hwiden, show offset 128 (-128) = .ok 0 by decide]
    simp only [bind, Except.bind]
    rw [show firstSector (-128) = -1 by decide, show (numSectors 128 (-128)).toNat = 2 by decide,
      show (128 : Int).toNat = 128 from rfl, hwrite]
  · rw [Function.update_of_ne hs.symm, Function.update_self]
  · by_cases e : k = s
    · rw [e, Function.update_self]
    · rw [Function.update_of_ne e, Function.update_of_ne hk]

end

/-! ### Any sequence of requests -/

inductive Request where
  | read (numBytes position : Int)
  | write (fromBuf : Nat → Byte) (numBytes position : Int)

/-- The request is at a position of a file, and its end is an `int`. -/
def Request.Ok : Request → Prop
  | read numBytes position | write _ numBytes position =>
      0 ≤ position ∧ position + numBytes < 2 ^ 31

/-- What a request returns, and the bytes it delivers. -/
inductive Answer where
  | read (numBytes : Int) (bytes : List Byte)
  | written (numBytes : Int)
  deriving DecidableEq, Repr

/-- A request to the file, with the heap it finds. -/
def step (hdr : FileHeader) (d : Disk) : Request × (Nat → Byte) → Except Stop (Answer × Disk)
  | (.read numBytes position, heap) => do
      let (n, bytes) ← readAt d hdr heap numBytes position
      .ok (.read n bytes, d)
  | (.write fromBuf numBytes position, heap) => do
      let (n, d) ← writeAt d hdr heap fromBuf numBytes position
      .ok (.written n, d)

/-- What a request has written at `x`. -/
def wrote (x : Nat) : (Request × (Nat → Byte)) × Answer → Option Byte
  | ((.write fromBuf _ position, _), .written n) =>
      if position ≤ x ∧ x < position + n then some (fromBuf (x - position.toNat)) else none
  | _ => none

section
variable {d d' : Disk} {hdr : FileHeader} {l : List Sector}
  {calls : List ((Request × (Nat → Byte)) × Answer)}

theorem step_read (h : hdr.Laid l) {numBytes position : Int} (heap : Nat → Byte)
    (hr : (Request.read numBytes position).Ok) :
    step hdr d (.read numBytes position, heap) =
      .ok (.read (transferred hdr.fileLength numBytes position)
        ((List.range (transferred hdr.fileLength numBytes position).toNat).map fun j =>
          byteAt d l (position.toNat + j)), d) := by
  simp only [step, readAt_eq h d heap hr.1 hr.2, bind, Except.bind]

theorem step_write (h : hdr.Laid l) {fromBuf : Nat → Byte} {numBytes position : Int}
    (heap : Nat → Byte) (hr : (Request.write fromBuf numBytes position).Ok) :
    ∃ d', step hdr d (.write fromBuf numBytes position, heap) =
        .ok (.written (transferred hdr.fileLength numBytes position), d') ∧
      (∀ s, s ∉ l → d' s = d s) ∧ ∀ x : Nat, (x : Int) < hdr.fileLength →
        byteAt d' l x = if position ≤ x ∧
            x < position + transferred hdr.fileLength numBytes position then
          fromBuf (x - position.toNat) else byteAt d l x := by
  obtain ⟨d', hd', hout, hin⟩ := writeAt_eq h d heap fromBuf hr.1 hr.2
  refine ⟨d', ?_, hout, hin⟩
  simp only [step, hd', bind, Except.bind]

/-- **The file holds what was last written.** -/
theorem trace_lastWrite (h : hdr.Laid l) (ht : Trace (step hdr) d calls d')
    (hok : ∀ c ∈ calls, c.1.1.Ok) : (∀ s, s ∉ l → d' s = d s) ∧
      ∀ x : Nat, (x : Int) < hdr.fileLength →
        byteAt d' l x = lastWrite (wrote x) calls (byteAt d l x) := by
  induction ht with
  | nil => exact ⟨fun _ _ => rfl, fun _ _ => rfl⟩
  | @snoc calls d₁ d₂ a r _ hs ih =>
      obtain ⟨hout, hin⟩ := ih fun c hc => hok c (List.mem_append_left _ hc)
      have hr := hok (a, r) (List.mem_append_right _ (List.mem_singleton_self _))
      obtain ⟨req, heap⟩ := a
      cases req with
      | read numBytes position =>
          rw [step_read h heap hr] at hs
          cases hs
          refine ⟨hout, fun x hx => ?_⟩
          rw [lastWrite_snoc, hin x hx]
          rfl
      | write fromBuf numBytes position =>
          obtain ⟨d', hd', hout', hin'⟩ := step_write (d := d₁) h heap hr
          rw [hd'] at hs
          cases hs
          refine ⟨fun s hs => (hout' s hs).trans (hout s hs), fun x hx => ?_⟩
          rw [lastWrite_snoc, hin' x hx, hin x hx, wrote]
          split <;> rfl

/-- **A disk file is an array of bytes.**  The data sectors of the file are those of `l`.  After any
requests, the sectors of no other file have changed and the next request succeeds.  It transfers what
lies in the file.  A read changes nothing and delivers at each position the byte last written there,
or else the initial one; a write changes these bytes and no other one of the file, and no other
sector. -/
theorem openFile_array (h : hdr.Laid l) (ht : Trace (step hdr) d calls d')
    (hok : ∀ c ∈ calls, c.1.1.Ok) (heap : Nat → Byte) :
    (∀ s, s ∉ l → d' s = d s) ∧
    (∀ numBytes position, (Request.read numBytes position).Ok →
      step hdr d' (.read numBytes position, heap) =
        .ok (.read (transferred hdr.fileLength numBytes position)
          ((List.range (transferred hdr.fileLength numBytes position).toNat).map fun j =>
            lastWrite (wrote (position.toNat + j)) calls (byteAt d l (position.toNat + j))), d')) ∧
    ∀ fromBuf numBytes position, (Request.write fromBuf numBytes position).Ok →
      ∃ d'', step hdr d' (.write fromBuf numBytes position, heap) =
          .ok (.written (transferred hdr.fileLength numBytes position), d'') ∧
        (∀ s, s ∉ l → d'' s = d' s) ∧ ∀ x : Nat, (x : Int) < hdr.fileLength →
          byteAt d'' l x = if position ≤ x ∧
              x < position + transferred hdr.fileLength numBytes position then
            fromBuf (x - position.toNat) else byteAt d' l x := by
  obtain ⟨hout, hin⟩ := trace_lastWrite h ht hok
  refine ⟨hout, fun numBytes position hr => ?_, fun fromBuf numBytes position hr => ?_⟩
  · rw [step_read h heap hr]
    congr 3
    refine List.map_congr_left fun j hj => hin _ ?_
    have hj' := List.mem_range.mp hj
    have hp : 0 ≤ position := hr.1
    unfold transferred at hj'
    split at hj' <;> omega
  · exact step_write h heap hr

end

/-- A file of 200 bytes in the sectors 5 and 9. -/
def twoSectors : FileHeader := ⟨200, 2, fun i => if i.val = 0 then 5 else 9⟩

theorem twoSectors_laid : twoSectors.Laid [5, 9] where
  length := rfl
  roundUp := by decide
  direct := by decide
  sector i h s hs := by
    rcases i with _ | _ | i
    · cases hs
      rfl
    · cases hs
      rfl
    · cases hs
  nodup := by decide

/-- Three bytes are written over the boundary of the sectors, and read back. -/
theorem openFile_array_crossing : ∃ d', Trace (step twoSectors) (fun _ _ => 1)
    [((.write (fun j => BitVec.ofNat 8 (j + 7)) 3 126, fun _ => 0), .written 3)] d' ∧
    step twoSectors d' (.read 5 125, fun _ => 0) = .ok (.read 5 [1, 7, 8, 9, 1], d') ∧
    step twoSectors d' (.read 100 198, fun _ => 0) = .ok (.read 2 [1, 1], d') := by
  have hok : (Request.write (fun j => BitVec.ofNat 8 (j + 7)) 3 126).Ok := ⟨by decide, by decide⟩
  obtain ⟨d', hd', -⟩ := step_write (d := fun _ _ => 1) twoSectors_laid (fun _ => 0) hok
  have ht : Trace (step twoSectors) (fun _ _ => 1) _ d' := .snoc .nil hd'
  obtain ⟨-, hread, -⟩ := openFile_array twoSectors_laid ht
    (fun c hc => by
      obtain rfl := List.mem_singleton.mp hc
      exact ⟨by decide, by decide⟩) fun _ => 0
  exact ⟨d', ht, hread 5 125 ⟨by decide, by decide⟩, hread 100 198 ⟨by decide, by decide⟩⟩

end OpenFile

end Nachos
