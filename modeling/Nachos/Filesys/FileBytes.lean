import Nachos.Filesys.OpenFile
import Nachos.Lib.Store

/-!
# Filesys — a file as a list

`bytesOf` are the bytes of a file as a list, and `ReadAt` and `WriteAt` on it are `List.take` and
`Lib.overlay`, whenever they return from a position that is not negative: such a request either
returns 0, or leaves its header or its buffer, or lies in the file (`readAt_inside`,
`writeAt_inside`).
-/

namespace Nachos
open Lib

/-! ### Requests that return -/

namespace OpenFile
section
variable {d : Disk} {hdr : FileHeader} {l : List Sector} {heap buf fromBuf : Nat → Byte}

theorem readSectors_index {first : Int} {n : Nat} {b : Nat → Byte}
    (h : readSectors d hdr first (n + 1) buf = .ok b) : first + n < NumDirect := by
  rw [readSectors] at h
  simp only [bind, Except.bind] at h
  split at h
  · cases h
  split at h
  · cases h
  rename_i hb
  exact byteToSector_index hb

theorem readChecked_indexed {numBytes position : Int} {r : Int × List Byte} (hn : 0 < numBytes)
    (h : readChecked d hdr heap numBytes position = .ok r) : Indexed numBytes position := by
  unfold readChecked at h
  simp only [bind, Except.bind] at h
  split at h
  · cases h
  rename_i b hb
  split at h
  · cases h
  rename_i off hoff
  obtain ⟨k, hk⟩ := numSectors_succ hn hoff
  rw [hk] at hb
  have hi := readSectors_index hb
  refine ⟨(offset_fits hoff).2, ?_⟩
  unfold numSectors at *
  omega

/-- A `ReadAt` that returns has refused its request, or the request lies in the file. -/
theorem readAt_inside {n p : Word} (hpos : 0 ≤ p.toInt) {r : Int × List Byte}
    (h : readAt d hdr heap n.toInt p.toInt = .ok r) :
    (n.toInt ≤ 0 ∨ hdr.fileLength ≤ p.toInt) ∨ p.toInt + n.toInt < 2 ^ 31 := by
  unfold readAt at h
  split at h
  · rename_i href
    exact .inl href
  · rename_i hn
    exact .inr ((readChecked_indexed (clamp_pos hn) h).inside hpos hn)

/-! ### A file as a list -/

/-- The bytes of a file whose data sectors are `l`. -/
def bytesOf (d : Disk) (hdr : FileHeader) (l : List Sector) : List Byte :=
  (List.range hdr.fileLength.toNat).map (byteAt d l)

@[simp] theorem length_bytesOf : (bytesOf d hdr l).length = hdr.fileLength.toNat := by
  rw [bytesOf, List.length_map, List.length_range]

theorem getElem?_bytesOf {x : Nat} : (bytesOf d hdr l)[x]? =
    if x < hdr.fileLength.toNat then some (byteAt d l x) else none := by
  rw [bytesOf, List.getElem?_map]
  split
  · rename_i hx
    rw [List.getElem?_range hx]
    rfl
  · rw [List.getElem?_eq_none (by rw [List.length_range]; omega)]
    rfl

theorem transferred_eq {fileLength : Int} {n p : Int} (hlen : 0 ≤ fileLength) (hp : 0 ≤ p) :
    transferred fileLength n p = Store.inside fileLength.toNat n.toNat p.toNat := by
  unfold transferred Store.inside
  split <;> omega

/-- **`ReadAt` of a list.** -/
theorem readAt_bytesOf (h : hdr.Laid l) (hlen : 0 ≤ hdr.fileLength) {n p : Word}
    (hp : 0 ≤ p.toInt) {r : Int × List Byte} (hr : readAt d hdr heap n.toInt p.toInt = .ok r) :
    r = (((Store.inside (bytesOf d hdr l).length n.toInt.toNat p.toInt.toNat : Nat) : Int),
      ((bytesOf d hdr l).drop p.toInt.toNat).take n.toInt.toNat) := by
  rw [length_bytesOf]
  have hin := readAt_inside hp hr
  have ht := transferred_eq (n := n.toInt) hlen hp
  by_cases href : n.toInt ≤ 0 ∨ hdr.fileLength ≤ p.toInt
  · have hzero : transferred hdr.fileLength n.toInt p.toInt = 0 := if_pos href
    rw [readAt, if_pos href] at hr
    cases hr
    rw [← ht, hzero]
    congr 1
    refine (List.eq_nil_of_length_eq_zero ?_).symm
    rw [List.length_take, List.length_drop, length_bytesOf]
    omega
  · have hover := hin.resolve_left href
    rw [readAt_eq h d heap hp hover, ht] at hr
    cases hr
    congr 1
    apply List.ext_getElem?
    intro j
    rw [Int.toNat_natCast, List.getElem?_map, List.getElem?_take, List.getElem?_drop,
      getElem?_bytesOf]
    unfold Store.inside
    by_cases hj : j < min n.toInt.toNat (hdr.fileLength.toNat - p.toInt.toNat)
    · rw [List.getElem?_range hj, if_pos (by omega), if_pos (by omega)]
      rfl
    · rw [List.getElem?_eq_none (by rw [List.length_range]; omega)]
      split
      · rw [if_neg (by omega)]
        rfl
      · rfl

/-- **`WriteAt` of a list.** -/
theorem writeAt_bytesOf (h : hdr.Laid l) (hlen : 0 ≤ hdr.fileLength) {n p : Word}
    (hp : 0 ≤ p.toInt) {r : Int × Disk} (hw : writeAt d hdr heap fromBuf n.toInt p.toInt = .ok r) :
    r.1 = (Store.inside (bytesOf d hdr l).length n.toInt.toNat p.toInt.toNat : Nat) ∧
      bytesOf r.2 hdr l = overlay (bytesOf d hdr l) p.toInt.toNat
        ((List.range (Store.inside (bytesOf d hdr l).length n.toInt.toNat p.toInt.toNat)).map
          fromBuf) := by
  rw [length_bytesOf]
  have hin := writeAt_inside hp hw
  have ht := transferred_eq (n := n.toInt) hlen hp
  by_cases href : n.toInt ≤ 0 ∨ hdr.fileLength ≤ p.toInt
  · have hzero : transferred hdr.fileLength n.toInt p.toInt = 0 := if_pos href
    rw [writeAt, if_pos href] at hw
    cases hw
    have hnone : Store.inside hdr.fileLength.toNat n.toInt.toNat p.toInt.toNat = 0 := by omega
    rw [hnone]
    exact ⟨rfl, overlay_nil.symm⟩
  · have hover := hin.resolve_left href
    obtain ⟨d', hd', -, hbytes⟩ := writeAt_eq h d heap fromBuf hp hover
    rw [hd', ht] at hw
    cases hw
    refine ⟨rfl, ?_⟩
    apply List.ext_getElem?
    intro x
    rw [getElem?_bytesOf, getElem?_overlay, getElem?_bytesOf, length_bytesOf, List.length_map,
      List.length_range]
    by_cases hx : x < hdr.fileLength.toNat
    · rw [if_pos hx, if_pos hx, hbytes x (by omega), ht]
      by_cases hin' : p.toInt ≤ x ∧
          x < p.toInt + (Store.inside hdr.fileLength.toNat n.toInt.toNat p.toInt.toNat : Nat)
      · rw [if_pos hin', if_pos (by omega), List.getElem?_map, List.getElem?_range (by omega)]
        rfl
      · rw [if_neg hin', if_neg (by omega)]
    · rw [if_neg hx, if_neg fun hx' => hx hx'.2.2, if_neg hx]

end
end OpenFile

end Nachos
