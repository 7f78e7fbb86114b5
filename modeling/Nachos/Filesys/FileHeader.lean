import Nachos.Filesys.OpenFile

/-!
# Filesys — sectors taken and given back

`FileHeader::Allocate` and `Deallocate` (filesys/filehdr.cc) on the map of free sectors, and the map
as it lies in a file: `BitMap::FetchFrom` and `WriteBack` (userprog/bitmap.cc).

`allocate_spec` says that a new header gets as many different clear sectors as its length needs, and
marks exactly these; `deallocate_spec` that its sectors are cleared again, and that no `ASSERT`
fails where they are marked.  `allocate_valid_iff` says for which sizes a new header is valid:
`Allocate` compares the size with the free space only, not with `MaxFileSize` and not with 0.
-/

namespace Nachos
open Lib

/-- The map of free sectors. -/
abbrev FreeMap := BitMap NumSectors

namespace FileHeader

/-- `divRoundUp(fileSize, SectorSize)`, of an `int`. -/
def sectorsFor (fileSize : Int) : Int :=
  fileSize.tdiv SectorSize + if fileSize.tmod SectorSize > 0 then 1 else 0

def setSector (hdr : FileHeader) (i : Fin NumDirect) (sector : Word) : FileHeader :=
  { hdr with dataSectors := Function.update hdr.dataSectors i sector }

/-- `dataSectors[i] = freeMap->Find()`. -/
def findSector (hdr : FileHeader) (freeMap : FreeMap) (i : Nat) :
    Except Stop (FileHeader × FreeMap) :=
  if h : i < NumDirect then
    .ok (hdr.setSector ⟨i, h⟩ (freeMap.find.1.elim (-1) fun s => BitVec.ofNat 32 s.val),
      freeMap.find.2)
  else .error .outOfBounds

/-- The loop of `Allocate`. -/
def findSectors (hdr : FileHeader) (freeMap : FreeMap) : Nat → Except Stop (FileHeader × FreeMap)
  | 0 => .ok (hdr, freeMap)
  | n + 1 => do
      let (hdr, freeMap) ← findSectors hdr freeMap n
      findSector hdr freeMap n

/-- `FileHeader::Allocate`; `none` is `FALSE`. -/
def allocate (hdr : FileHeader) (freeMap : FreeMap) (fileSize : Word) :
    Except Stop (Option (FileHeader × FreeMap)) :=
  if (freeMap.numClear : Int) < sectorsFor fileSize.toInt then .ok none
  else do
    let r ← findSectors { hdr with
      numBytes := fileSize
      numSectors := BitVec.ofInt 32 (sectorsFor fileSize.toInt) } freeMap
      (sectorsFor fileSize.toInt).toNat
    .ok (some r)

/-- `ASSERT(freeMap->Test(dataSectors[i]))` and `Clear`, which assert that there is such a bit. -/
def clearSector (hdr : FileHeader) (freeMap : FreeMap) (i : Nat) : Except Stop FreeMap :=
  if h : i < NumDirect then
    if h' : 0 ≤ (hdr.dataSectors ⟨i, h⟩).toInt ∧ (hdr.dataSectors ⟨i, h⟩).toInt < NumSectors then
      if freeMap.test ⟨(hdr.dataSectors ⟨i, h⟩).toInt.toNat, by omega⟩ then
        .ok (freeMap.clear ⟨(hdr.dataSectors ⟨i, h⟩).toInt.toNat, by omega⟩)
      else .error .assertFails
    else .error .assertFails
  else .error .outOfBounds

/-- The loop of `Deallocate`. -/
def clearSectors (hdr : FileHeader) (freeMap : FreeMap) : Nat → Except Stop FreeMap
  | 0 => .ok freeMap
  | n + 1 => do
      let freeMap ← clearSectors hdr freeMap n
      clearSector hdr freeMap n

/-- `FileHeader::Deallocate`. -/
def deallocate (hdr : FileHeader) (freeMap : FreeMap) : Except Stop FreeMap :=
  clearSectors hdr freeMap hdr.numSectors.toInt.toNat

/-- The data sectors of a header. -/
def sectors (hdr : FileHeader) : List Sector :=
  ((List.finRange NumDirect).take hdr.numSectors.toInt.toNat).map fun i =>
    Fin.ofNat NumSectors (hdr.dataSectors i).toNat

section
variable {hdr hdr' : FileHeader} {freeMap freeMap' : FreeMap} {l : List Sector}

theorem ofNat_toNat {w : Word} {s : Sector} (h : w.toInt = s.val) :
    Fin.ofNat NumSectors w.toNat = s := by
  have hs : s.val < 1024 := s.isLt
  have hw : w.toNat = s.val := by
    have := BitVec.toInt_eq_toNat_cond w
    have hlt := w.isLt
    split at this <;> omega
  rw [hw]
  exact Fin.ext (Nat.mod_eq_of_lt s.isLt)

theorem Laid.sectors_eq (h : hdr.Laid l) : hdr.sectors = l := by
  have hd := h.direct
  apply List.ext_getElem?
  intro i
  unfold sectors
  rw [← h.length, List.getElem?_map, List.getElem?_take]
  split
  · rename_i hi
    have hl := List.getElem?_eq_getElem hi
    rw [List.getElem?_eq_getElem (by rw [List.length_finRange]; omega), hl]
    simp only [List.getElem_finRange, Option.map_some]
    exact congrArg some (ofNat_toNat (h.sector i (by omega) _ hl))
  · rw [List.getElem?_eq_none (by omega)]
    rfl

theorem sectorsFor_eq {n : Int} (h : 0 ≤ n) : sectorsFor n = (n + (SectorSize - 1)) / SectorSize := by
  have hs : ((SectorSize : Nat) : Int) = 128 := rfl
  obtain ⟨hq, hr, -⟩ := tdiv_add_tmod n
  unfold sectorsFor
  rw [hs]
  split <;> omega

theorem toInt_ofNat_sector (s : Sector) : (BitVec.ofNat 32 s.val).toInt = s.val := by
  have hs : s.val < 1024 := s.isLt
  exact toInt_ofNat (by omega)

theorem numClear_eq_zero (h : ∀ s, freeMap.test s = true) : freeMap.numClear = 0 := by
  rw [BitMap.numClear_eq, Finset.card_eq_zero, BitMap.clears]
  refine Finset.filter_false_of_mem fun s _ => ?_
  rw [h s]
  exact Bool.noConfusion

/-- What the loop of `Allocate` has done when it has found the sectors `l`: they were clear and are
different, and exactly they have been marked. -/
structure Found (hdr hdr' : FileHeader) (freeMap freeMap' : FreeMap) (l : List Sector) : Prop where
  numBytes : hdr'.numBytes = hdr.numBytes
  numSectors : hdr'.numSectors = hdr.numSectors
  sector : ∀ (i : Nat) (h : i < NumDirect) (s : Sector), l[i]? = some s →
    (hdr'.dataSectors ⟨i, h⟩).toInt = s.val
  nodup : l.Nodup
  clear : ∀ s ∈ l, freeMap.test s = false
  mark : ∀ s, freeMap'.test s = true ↔ freeMap.test s = true ∨ s ∈ l
  numClear : freeMap'.numClear + l.length = freeMap.numClear

theorem Found.nil (hdr : FileHeader) (freeMap : FreeMap) : Found hdr hdr freeMap freeMap [] where
  numBytes := rfl
  numSectors := rfl
  sector _ _ _ h := by cases h
  nodup := List.nodup_nil
  clear s h := absurd h List.not_mem_nil
  mark s := ⟨.inl, fun h => h.resolve_right List.not_mem_nil⟩
  numClear := by rw [List.length_nil, Nat.add_zero]

/-- One turn of the loop. -/
theorem Found.snoc (h : Found hdr hdr' freeMap freeMap' l) (hl : l.length < NumDirect) {f : Sector}
    (hf : freeMap'.test f = false) :
    Found hdr (hdr'.setSector ⟨l.length, hl⟩ (BitVec.ofNat 32 f.val)) freeMap (freeMap'.mark f)
      (l ++ [f]) where
  numBytes := h.numBytes
  numSectors := h.numSectors
  sector i hi s his := by
    by_cases e : i = l.length
    · subst e
      rw [List.getElem?_concat_length] at his
      cases his
      unfold setSector
      dsimp only
      rw [Function.update_self]
      exact toInt_ofNat_sector f
    · have hne : (⟨i, hi⟩ : Fin NumDirect) ≠ ⟨l.length, hl⟩ := fun h => e (congrArg Fin.val h)
      have hlt : i < l.length := by
        obtain ⟨hi', -⟩ := List.getElem?_eq_some_iff.mp his
        rw [List.length_append, List.length_singleton] at hi'
        omega
      rw [List.getElem?_append_left hlt] at his
      unfold setSector
      dsimp only
      rw [Function.update_of_ne hne]
      exact h.sector i hi s his
  nodup := by
    refine List.nodup_append.mpr ⟨h.nodup, List.nodup_singleton f, ?_⟩
    rintro a ha b hb rfl
    rw [List.mem_singleton] at hb
    rw [(h.mark f).mpr (.inr (hb ▸ ha))] at hf
    cases hf
  clear s hs := by
    rcases List.mem_append.mp hs with hs | hs
    · exact h.clear s hs
    · rw [List.mem_singleton.mp hs]
      cases ht : freeMap.test f with
      | false => rfl
      | true =>
          rw [(h.mark f).mpr (.inl ht)] at hf
          cases hf
  mark s := by
    rw [BitMap.test_mark, Bool.or_eq_true, decide_eq_true_eq, h.mark, List.mem_append,
      List.mem_singleton, or_comm, or_assoc]
  numClear := by
    have := BitMap.numClear_mark hf
    have hn := h.numClear
    rw [List.length_append, List.length_singleton]
    omega

/-- **The loop of `Allocate` finds as many sectors as there are.** -/
theorem findSectors_spec (hdr : FileHeader) (freeMap : FreeMap) {n : Nat} (hn : n ≤ NumDirect)
    (hc : n ≤ freeMap.numClear) : ∃ hdr' freeMap' l,
      hdr.findSectors freeMap n = .ok (hdr', freeMap') ∧ l.length = n ∧
      Found hdr hdr' freeMap freeMap' l := by
  induction n with
  | zero => exact ⟨hdr, freeMap, [], rfl, rfl, .nil hdr freeMap⟩
  | succ n ih =>
      obtain ⟨hdr', freeMap', l, he, hlen, h⟩ := ih (by omega) (by omega)
      subst hlen
      have hnum := h.numClear
      rcases freeMap'.find_spec with ⟨f, hf, hclear, -⟩ | ⟨-, hall⟩
      · refine ⟨_, _, l ++ [f], ?_, List.length_append, h.snoc (by omega) hclear⟩
        rw [findSectors, he]
        simp only [bind, Except.bind]
        rw [findSector, dif_pos (show l.length < NumDirect by omega), hf]
        rfl
      · have := numClear_eq_zero hall
        omega

theorem toInt_ofInt_sectorsFor {n : Int} (h₀ : 0 ≤ n) (h : n ≤ MaxFileSize) :
    (BitVec.ofInt 32 (sectorsFor n)).toInt = sectorsFor n ∧ 0 ≤ sectorsFor n ∧
      sectorsFor n ≤ NumDirect := by
  have hm : ((MaxFileSize : Nat) : Int) = 3840 := rfl
  have hd : ((NumDirect : Nat) : Int) = 30 := rfl
  have hs : ((SectorSize : Nat) : Int) = 128 := rfl
  rw [sectorsFor_eq h₀, BitVec.toInt_ofInt, Int.bmod_def, hs]
  split <;> omega

/-- **`Allocate` gives a header as many clear sectors as its length needs, and marks exactly these;
or there are not so many.** -/
theorem allocate_spec (hdr : FileHeader) (freeMap : FreeMap) (fileSize : Word)
    (h₀ : 0 ≤ fileSize.toInt) (h : fileSize.toInt ≤ MaxFileSize) :
    (hdr.allocate freeMap fileSize = .ok none ∧
      (freeMap.numClear : Int) < sectorsFor fileSize.toInt) ∨
    ∃ hdr' freeMap' l, hdr.allocate freeMap fileSize = .ok (some (hdr', freeMap')) ∧
      hdr'.numBytes = fileSize ∧ hdr'.Laid l ∧ (∀ s ∈ l, freeMap.test s = false) ∧
      (∀ s, freeMap'.test s = true ↔ freeMap.test s = true ∨ s ∈ l) ∧
      freeMap'.numClear + l.length = freeMap.numClear := by
  obtain ⟨hint, hpos, hle⟩ := toInt_ofInt_sectorsFor h₀ h
  unfold allocate
  split
  · rename_i hlt
    exact .inl ⟨rfl, hlt⟩
  · obtain ⟨hdr', freeMap', l, he, hlen, hf⟩ := findSectors_spec { hdr with
      numBytes := fileSize
      numSectors := BitVec.ofInt 32 (sectorsFor fileSize.toInt) } freeMap
      (n := (sectorsFor fileSize.toInt).toNat) (by omega) (by omega)
    refine .inr ⟨hdr', freeMap', l, ?_, hf.numBytes, ⟨?_, ?_, by omega, hf.sector, hf.nodup⟩,
      hf.clear, hf.mark, hf.numClear⟩
    · rw [he]
      rfl
    · rw [hf.numSectors, hint, hlen]
    · rw [hf.numSectors, hf.numBytes, hint, sectorsFor_eq h₀]

/-- **The loop of `Allocate` leaves the table when there are more sectors than it has entries.** -/
theorem findSectors_outOfBounds (hdr : FileHeader) (freeMap : FreeMap) {n : Nat} (hn : NumDirect < n) :
    hdr.findSectors freeMap n = .error .outOfBounds := by
  have hin : ∀ n ≤ NumDirect, ∃ x, hdr.findSectors freeMap n = .ok x := by
    intro n hn
    induction n with
    | zero => exact ⟨_, rfl⟩
    | succ n ih =>
        obtain ⟨x, hx⟩ := ih (by omega)
        rw [findSectors, hx]
        simp only [bind, Except.bind]
        rw [findSector, dif_pos (show n < NumDirect by omega)]
        exact ⟨_, rfl⟩
  induction n with
  | zero => omega
  | succ n ih =>
      by_cases e : n = NumDirect
      · obtain ⟨x, hx⟩ := hin n (by omega)
        rw [findSectors, hx]
        simp only [bind, Except.bind]
        rw [findSector, dif_neg (show ¬ n < NumDirect by omega)]
      · rw [findSectors, ih (by omega)]
        rfl

/-- The loop of `Allocate` writes sectors only. -/
theorem findSectors_keeps {n : Nat} {x : FileHeader × FreeMap}
    (h : hdr.findSectors freeMap n = .ok x) :
    x.1.numBytes = hdr.numBytes ∧ x.1.numSectors = hdr.numSectors := by
  induction n generalizing x with
  | zero => cases h; exact ⟨rfl, rfl⟩
  | succ n ih =>
      rw [findSectors] at h
      cases he : hdr.findSectors freeMap n with
      | error e => rw [he] at h; cases h
      | ok y =>
          rw [he] at h
          simp only [bind, Except.bind, findSector] at h
          split at h
          · cases h
            exact ih (x := y) he
          · cases h

/-- What `Allocate` is to do: it returns `FALSE`, or it stays within the table of the header and
makes a header of a file that may be, with as many sectors as its bytes need. -/
def Allocates (hdr : FileHeader) (freeMap : FreeMap) (fileSize : Word) : Prop :=
  hdr.allocate freeMap fileSize = .ok none ∨
  ∃ hdr' freeMap', hdr.allocate freeMap fileSize = .ok (some (hdr', freeMap')) ∧
    0 ≤ hdr'.numBytes.toInt ∧ hdr'.numBytes.toInt ≤ MaxFileSize ∧
    hdr'.numSectors.toInt = (hdr'.numBytes.toInt + (SectorSize - 1)) / SectorSize

/-- A size for which there is room, but that no header can have. -/
theorem not_allocates {fileSize : Word}
    (hroom : sectorsFor fileSize.toInt ≤ freeMap.numClear)
    (hsize : ¬ (0 ≤ fileSize.toInt ∧ fileSize.toInt ≤ MaxFileSize)) :
    ¬ Allocates hdr freeMap fileSize := by
  have hnot : ¬ (freeMap.numClear : Int) < sectorsFor fileSize.toInt := by omega
  unfold Allocates allocate
  rw [if_neg hnot]
  rintro (h | ⟨hdr', freeMap', h, h₀, hmax, -⟩)
  · revert h
    cases findSectors _ _ _ <;> rintro ⟨⟩
  · cases he : findSectors { hdr with
      numBytes := fileSize
      numSectors := BitVec.ofInt 32 (sectorsFor fileSize.toInt) } freeMap
      (sectorsFor fileSize.toInt).toNat with
    | error e => rw [he] at h; cases h
    | ok x =>
        rw [he] at h
        cases h
        have hbytes : hdr'.numBytes = fileSize := (findSectors_keeps he).1
        rw [hbytes] at h₀ hmax
        exact hsize ⟨h₀, hmax⟩

/-- **For which sizes a new header is valid.**  `Allocate` does what it is to do exactly when there
are too few free sectors for the size, or the size is one a file may have. -/
theorem allocate_valid_iff (hdr : FileHeader) (freeMap : FreeMap) (fileSize : Word) :
    Allocates hdr freeMap fileSize ↔
      (freeMap.numClear : Int) < sectorsFor fileSize.toInt ∨
      (0 ≤ fileSize.toInt ∧ fileSize.toInt ≤ MaxFileSize) := by
  constructor
  · intro h
    by_contra hc
    rw [not_or] at hc
    exact not_allocates (by omega) hc.2 h
  · rintro (h | ⟨h₀, hmax⟩)
    · exact .inl (if_pos h)
    · rcases allocate_spec hdr freeMap fileSize h₀ hmax with ⟨hn, -⟩ | ⟨hdr', freeMap', l, he, hb, hl, -⟩
      · exact .inl hn
      · rw [← hb] at h₀ hmax
        exact .inr ⟨hdr', freeMap', he, h₀, hmax, hl.roundUp⟩

/-- On an empty disk a file of 3841 bytes, one more than `MaxFileSize`, is written a 31st sector
outside its header; and one of -1 bytes gets a header that says so. -/
theorem allocate_overruns :
    let hdr : FileHeader := ⟨0, 0, fun _ => 0⟩
    let freeMap : FreeMap := BitMap.new fun _ => 0
    hdr.allocate freeMap 3841 = .error .outOfBounds ∧ ¬ Allocates hdr freeMap 3841 ∧
      ¬ Allocates hdr freeMap (-1) := by
  intro hdr freeMap
  have hclear : freeMap.numClear = 1024 :=
    (BitMap.numClear_eq_all_iff _).mpr fun i => BitMap.test_new _ i
  have hn : sectorsFor (3841 : Word).toInt = 31 := by decide
  refine ⟨?_, not_allocates (by rw [hclear, hn]; decide) (by decide),
    not_allocates (by rw [hclear]; decide) (by decide)⟩
  rw [allocate, if_neg (by rw [hclear, hn]; decide), hn]
  rw [findSectors_outOfBounds _ _ (show NumDirect < Int.toNat 31 by decide)]
  rfl

/-- The loop of `Deallocate` clears the sectors one after another. -/
theorem clearSectors_spec (h : hdr.Laid l) (hm : ∀ s ∈ l, freeMap.test s = true) {n : Nat}
    (hn : n ≤ l.length) : ∃ freeMap', hdr.clearSectors freeMap n = .ok freeMap' ∧
      ∀ s, freeMap'.test s = true ↔ freeMap.test s = true ∧ s ∉ l.take n := by
  have hd := h.direct
  induction n with
  | zero => exact ⟨freeMap, rfl, fun s => ⟨fun ht => ⟨ht, List.not_mem_nil⟩, And.left⟩⟩
  | succ n ih =>
      obtain ⟨freeMap', he, hi⟩ := ih (by omega)
      obtain ⟨f, hf⟩ : ∃ f, l[n]? = some f := ⟨_, List.getElem?_eq_getElem (by omega)⟩
      have hval := h.sector n (by omega) f hf
      have hnat : (hdr.dataSectors ⟨n, by omega⟩).toInt.toNat = f.val := by
        rw [hval, Int.toNat_natCast]
      have hidx : (⟨(hdr.dataSectors ⟨n, by omega⟩).toInt.toNat, by omega⟩ : Sector) = f :=
        Fin.ext hnat
      -- it has not been cleared yet, as the sectors are different
      have hnew : f ∉ l.take n := by
        intro hmem
        obtain ⟨k, hk⟩ := List.mem_iff_getElem?.mp hmem
        rw [List.getElem?_take] at hk
        split at hk
        · rename_i hkn
          have := (List.getElem?_inj (by omega) h.nodup).mp (hk.trans hf.symm)
          omega
        · cases hk
      refine ⟨freeMap'.clear f, ?_, fun s => ?_⟩
      · rw [clearSectors, he]
        simp only [bind, Except.bind]
        rw [clearSector, dif_pos (show n < NumDirect by omega), dif_pos (by rw [hval]; omega),
          if_pos (by rw [hidx]; exact (hi f).mpr ⟨hm f (List.mem_of_getElem? hf), hnew⟩), hidx]
      · rw [BitMap.test_clear, Bool.and_eq_true, hi, List.take_add_one, hf, List.mem_append,
          Option.toList_some, List.mem_singleton, Bool.not_eq_true', decide_eq_false_iff_not,
          not_or, and_left_comm, and_comm (a := s ≠ f)]

/-- **`Deallocate` clears the sectors of a header that are marked, and its `ASSERT` holds.** -/
theorem deallocate_spec (h : hdr.Laid l) (hm : ∀ s ∈ l, freeMap.test s = true) :
    ∃ freeMap', hdr.deallocate freeMap = .ok freeMap' ∧
      ∀ s, freeMap'.test s = true ↔ freeMap.test s = true ∧ s ∉ l := by
  obtain ⟨freeMap', he, hi⟩ := clearSectors_spec h hm le_rfl
  refine ⟨freeMap', ?_, fun s => ?_⟩
  · rw [deallocate, ← h.length, he]
  · rw [hi, List.take_length]

end

end FileHeader

end Nachos
