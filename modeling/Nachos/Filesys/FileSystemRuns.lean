import Nachos.Filesys.CreateRemove

/-!
# Filesys — the file system over whole runs

From a formatted disk, any sequence of `Create` and `Remove`, with reads and writes through open files
between them, leaves the disk consistent: `create_inv`, `remove_inv` and `writeAt_inv` are the steps,
and none of the first two stops.  A request at a negative position is none of them: it may put its
bytes over the header of the directory (`writeAt_overwrites`).

`create_all_or_nothing` says when `Create` fails, and that it has then changed nothing; what it does
when it succeeds, `Remove` undoes.
-/

namespace Nachos
open Lib

namespace FileSystem
section
variable {fs : FileSystem} {d' : Disk} {name : List Byte} {heap : Heap} {i : Directory.Index}
  {f : Sector} {l : List Sector}

/-- A file system that keeps the invariant is the one of its disk. -/
theorem Inv.eq_mounted (h : Inv fs) : fs = mounted fs.disk fs.openFiles := by
  obtain ⟨d, mapFile, dirFile, openFiles⟩ := fs
  rw [mounted, ← h.freeMapFile, ← h.directoryFile]

/-- What the changed disk has to meet for the open files to stay open. -/
theorem Inv.congr (h : Inv fs) (openFiles : List Handle) (hc : d'.Consistent)
    (h₀ : d' FreeMapSector = fs.disk FreeMapSector)
    (h₁ : d' DirectorySector = fs.disk DirectorySector)
    (hfiles : ∀ g ∈ openFiles, HandleOk d' g) :
    Inv { fs with disk := d', openFiles := openFiles } where
  consistent := hc
  freeMapFile := by rw [Disk.header_congr h₀]; exact h.freeMapFile
  directoryFile := by rw [Disk.header_congr h₁]; exact h.directoryFile
  handle := hfiles

/-- **`Create` keeps the disk consistent, whether it succeeds or not.** -/
theorem create_inv (h : Inv fs) (name : List Byte) (heap : Heap) (initialSize : FileSize) :
    ∃ r, fs.create name initialSize.val heap = .ok r ∧ Inv r.2 := by
  have hc := h.consistent
  rcases create_spec hc fs.openFiles name initialSize heap with ⟨-, he⟩ | ⟨-, d', i, f, l, hcr, he⟩ <;>
    rw [← h.eq_mounted] at he
  · exact ⟨_, he, h⟩
  · obtain ⟨h₀, h₁, hent⟩ := hc.headers hcr.out
    refine ⟨_, he, ?_⟩
    rw [← mounted_congr h₀ h₁, ← h.freeMapFile, ← h.directoryFile]
    refine h.congr fs.openFiles hcr.consistent h₀ h₁ fun g hg => ?_
    obtain ⟨k, hk, hsec, hhdr⟩ := h.handle g hg
    have hki : k ≠ i := by
      rintro rfl
      rw [hcr.unused] at hk
      cases hk
    refine ⟨k, ?_⟩
    rw [hcr.directory, Disk.headerSector_setEntry_of_ne _ hki, Directory.inUse_setEntry, hk,
      Bool.or_true, Disk.header_congr (hent k hk)]
    exact ⟨rfl, hsec, hhdr⟩

/-- `Open` finds no file of the name, or opens one of its entries. -/
theorem openFile_spec (h : Inv fs) (name : List Byte) (heap : Heap) :
    ((∀ i, ¬ fs.disk.directory.entries.Matches name i) ∧ fs.openFile name heap = .ok fs) ∨
    ∃ i, fs.disk.directory.entries.Matches name i ∧ fs.openFile name heap = .ok { fs with
      openFiles := fs.openFiles ++ [⟨(fs.disk.directory.headerSector i).val,
        fs.disk.header (fs.disk.directory.headerSector i)⟩] } := by
  rw [openFile, h.fetchDirectory]
  simp only [bind, Except.bind]
  rcases fs.disk.directory.entries.findIndex_cases name with ⟨i, hf, hi⟩ | ⟨hf, hnone⟩ <;>
    rw [← Directory.findIndex_entries] at hf
  · obtain ⟨hsec, -⟩ := h.consistent.entry i hi.1
    rw [Directory.find, hf, Option.elim_some, hsec, if_pos (Int.natCast_nonneg _),
      Disk.fetchHeader_eq]
    exact .inr ⟨i, hi, rfl⟩
  · rw [Directory.find, hf, Option.elim_none, if_neg (by decide)]
    exact .inl ⟨hnone, rfl⟩

/-- **`Open` gives a header that is on the disk.** -/
theorem openFile_inv (h : Inv fs) (name : List Byte) (heap : Heap) :
    ∃ fs', fs.openFile name heap = .ok fs' ∧ Inv fs' := by
  rcases openFile_spec h name heap with ⟨-, he⟩ | ⟨i, hi, he⟩
  · exact ⟨fs, he, h⟩
  · refine ⟨_, he, h.consistent, h.freeMapFile, h.directoryFile, fun g hg => ?_⟩
    rcases List.mem_append.mp hg with hg | hg
    · exact h.handle g hg
    · rw [List.mem_singleton.mp hg]
      exact ⟨i, hi.1, rfl, rfl⟩

/-- **`Remove` keeps the disk consistent, and no `ASSERT` fails.** -/
theorem remove_inv (h : Inv fs) (name : List Byte) (heap : Heap) :
    ∃ r, fs.remove name heap = .ok r ∧ Inv r.2 := by
  have hc := h.consistent
  rcases remove_spec hc fs.openFiles name heap with ⟨-, he⟩ | ⟨d', i, hi, hrem, he⟩ <;>
    rw [← h.eq_mounted] at he
  · exact ⟨_, he, h⟩
  · obtain ⟨h₀, h₁, hent⟩ := hc.headers hrem.out
    refine ⟨_, he, ?_⟩
    rw [← mounted_congr h₀ h₁, ← h.freeMapFile, ← h.directoryFile]
    refine h.congr _ hrem.consistent h₀ h₁ fun g hg => ?_
    -- a file that stays open is that of another entry
    obtain ⟨hg, hne⟩ := List.mem_filter.mp hg
    obtain ⟨k, hk, hsec, hhdr⟩ := h.handle g hg
    have hki : k ≠ i := by
      rintro rfl
      exact of_decide_eq_true hne hsec
    refine ⟨k, ?_⟩
    rw [hrem.directory, Disk.headerSector_clearEntry, Directory.inUse_clearEntry,
      decide_eq_false hki, hk, Disk.header_congr (hent k hk)]
    exact ⟨rfl, hsec, hhdr⟩

/-- **A write through an open file**, at a position that is not negative. -/
theorem writeAt_inv (h : Inv fs) {g : Handle} (hg : g ∈ fs.openFiles) {buf fromBuf : Nat → Byte}
    {numBytes position : Word} (hp : 0 ≤ position.toInt) {r : Int × Disk}
    (hw : OpenFile.writeAt fs.disk g.hdr buf fromBuf numBytes.toInt position.toInt = .ok r) :
    Inv { fs with disk := r.2 } := by
  obtain ⟨i, hi, -, hhdr⟩ := h.handle g hg
  obtain ⟨-, hok⟩ := h.consistent.entry i hi
  rw [hhdr] at hw
  obtain ⟨hc, hdir, h₀, h₁, hent⟩ :=
    h.consistent.writeData hi (OpenFile.writeAt_frame hok hp hw)
  refine h.congr fs.openFiles hc h₀ h₁ fun g' hg' => ?_
  obtain ⟨k, hk, hsec, hhdr'⟩ := h.handle g' hg'
  refine ⟨k, ?_⟩
  rw [hdir, Disk.header_congr (hent k hk)]
  exact ⟨hk, hsec, hhdr'⟩

theorem step_inv {a : Action × Heap} {fs' : FileSystem} (h : Inv fs) (ha : a.1.NonNegative)
    (hs : step fs a = .ok fs') : Inv fs' := by
  obtain ⟨a, heap⟩ := a
  cases a with
  | create name initialSize =>
      obtain ⟨r, hr, hinv⟩ := create_inv h name heap initialSize
      simp only [step, stepWith, hr, Except.map] at hs
      cases hs
      exact hinv
  | openFile name =>
      obtain ⟨r, hr, hinv⟩ := openFile_inv h name heap
      simp only [step, stepWith, hr] at hs
      cases hs
      exact hinv
  | close k =>
      cases hs
      exact ⟨h.consistent, h.freeMapFile, h.directoryFile, fun g hg =>
        h.handle g (List.mem_of_mem_eraseIdx hg)⟩
  | remove name =>
      obtain ⟨r, hr, hinv⟩ := remove_inv h name heap
      simp only [step, stepWith, hr, Except.map] at hs
      cases hs
      exact hinv
  | readAt k numBytes position =>
      simp only [step, stepWith] at hs
      cases hk : fs.openFiles[k]? with
      | none => rw [hk] at hs; cases hs
      | some g =>
          rw [hk, Option.elim_some] at hs
          cases hr : OpenFile.readAt fs.disk g.hdr (heap 0) numBytes.toInt position.toInt with
          | error e => rw [hr] at hs; cases hs
          | ok r => rw [hr] at hs; cases hs; exact h
  | writeAt k fromBuf numBytes position =>
      simp only [step, stepWith] at hs
      cases hk : fs.openFiles[k]? with
      | none => rw [hk] at hs; cases hs
      | some g =>
          rw [hk, Option.elim_some] at hs
          cases hr : OpenFile.writeAt fs.disk g.hdr (heap 0) fromBuf numBytes.toInt
            position.toInt with
          | error e => rw [hr] at hs; cases hs
          | ok r =>
              rw [hr] at hs
              cases hs
              exact writeAt_inv h (List.mem_of_getElem? hk) ha hr

/-! ### A formatted disk -/

/-- There is enough space. -/
theorem assertAllocate_spec (hdr : FileHeader) (freeMap : FreeMap) {n : Nat} (hn : n ≤ MaxFileSize)
    (hclear : (n + (SectorSize - 1)) / SectorSize ≤ freeMap.numClear) :
    ∃ hdr' freeMap' l, assertAllocate hdr freeMap (BitVec.ofNat 32 n) = .ok (hdr', freeMap') ∧
      hdr'.fileLength = n ∧ hdr'.Laid l ∧ (∀ s ∈ l, freeMap.test s = false) ∧
      (∀ s, freeMap'.test s = true ↔ freeMap.test s = true ∨ s ∈ l) ∧
      freeMap'.numClear + (n + (SectorSize - 1)) / SectorSize = freeMap.numClear := by
  have hmax : MaxFileSize = 3840 := rfl
  have hint : (BitVec.ofNat 32 n).toInt = n := toInt_ofNat (by omega)
  rcases FileHeader.allocate_spec hdr freeMap (BitVec.ofNat 32 n) (by omega) (by omega)
    with ⟨-, hlt⟩ | ⟨hdr', freeMap', l, ha, hnum, hlaid, hfree, hmark, hcl⟩
  · rw [hint, FileHeader.sectorsFor_eq (by omega)] at hlt
    unfold SectorSize at *
    omega
  · refine ⟨hdr', freeMap', l, ?_, ?_, hlaid, hfree, hmark, ?_⟩
    · rw [assertAllocate, ha]
      rfl
    · rw [FileHeader.fileLength, hnum, hint]
    · have h₁ := hlaid.length
      have h₂ := hlaid.roundUp
      rw [hnum, hint] at h₂
      unfold SectorSize at *
      omega

theorem new_test (bytes : Nat → Byte) (s : Sector) : (FreeMap.new bytes).test s = false :=
  BitMap.test_new _ s

/-- The headers are written back, and fetched again. -/
theorem headers_layout (d : Disk) {mapHdr dirHdr : FileHeader} {l₀ l₁ : List Sector}
    (hl₀ : mapHdr.Laid l₀) (hl₁ : dirHdr.Laid l₁) (hlen₀ : mapHdr.fileLength = FreeMapFileSize)
    (hlen₁ : dirHdr.fileLength = DirectoryFileSize)
    (hnodup : (FreeMapSector :: l₀ ++ DirectorySector :: l₁).Nodup) :
    ∃ d' : Disk, d' = Function.update (Function.update d FreeMapSector mapHdr.writeBack)
        DirectorySector dirHdr.writeBack ∧ d'.header FreeMapSector = mapHdr ∧
      d'.header DirectorySector = dirHdr ∧ d'.Layout := by
  refine ⟨_, rfl, ?_⟩
  generalize hd : Function.update (Function.update d FreeMapSector mapHdr.writeBack)
    DirectorySector dirHdr.writeBack = d'
  have hne : FreeMapSector ≠ DirectorySector := by decide
  have hh₀ : Disk.header d' FreeMapSector = mapHdr := by
    rw [Disk.header, ← hd, Function.update_of_ne hne, Function.update_self,
      FileHeader.fetchFrom_writeBack]
  have hh₁ : Disk.header d' DirectorySector = dirHdr := by
    rw [Disk.header, ← hd, Function.update_self, FileHeader.fetchFrom_writeBack]
  refine ⟨hh₀, hh₁, ?_, by rw [hh₀, hlen₀], ?_, by rw [hh₁, hlen₁], ?_⟩
  · rw [Disk.HeaderOk, hh₀, hl₀.sectors_eq]
    exact hl₀
  · rw [Disk.HeaderOk, hh₁, hl₁.sectors_eq]
    exact hl₁
  · rw [Disk.sectorsOf, Disk.sectorsOf, hh₀, hh₁, hl₀.sectors_eq, hl₁.sectors_eq]
    exact hnodup

/-- The sectors of the two headers. -/
theorem headers_test (bytes : Nat → Byte) (s : Sector) :
    (((FreeMap.new bytes).mark FreeMapSector).mark DirectorySector).test s = true ↔
      s = FreeMapSector ∨ s = DirectorySector := by
  rw [BitMap.test_mark, BitMap.test_mark, new_test, Bool.or_false, Bool.or_eq_true,
    decide_eq_true_eq, decide_eq_true_eq, or_comm]

theorem headers_numClear (bytes : Nat → Byte) :
    (((FreeMap.new bytes).mark FreeMapSector).mark DirectorySector).numClear = 1022 := by
  have hall : (FreeMap.new bytes).numClear = 1024 :=
    (BitMap.numClear_eq_all_iff (FreeMap.new bytes)).mpr (new_test bytes)
  have h₀ := BitMap.numClear_mark (new_test bytes FreeMapSector)
  have ht₁ : ((FreeMap.new bytes).mark FreeMapSector).test DirectorySector = false := by
    rw [BitMap.test_mark, decide_eq_false (by decide), new_test]
    rfl
  have h₁ := BitMap.numClear_mark ht₁
  omega

/-- The data of the free map and of the directory get sectors of their own. -/
theorem format_allocates (heap : Heap) :
    ∃ mapHdr map₁ l₀ dirHdr map₂ l₁, assertAllocate (.new (heap 2))
        (((FreeMap.new (heap 0)).mark FreeMapSector).mark DirectorySector)
        (BitVec.ofNat 32 FreeMapFileSize) = .ok (mapHdr, map₁) ∧
      assertAllocate (.new (heap 3)) map₁ (BitVec.ofNat 32 DirectoryFileSize) =
        .ok (dirHdr, map₂) ∧
      mapHdr.fileLength = FreeMapFileSize ∧ mapHdr.Laid l₀ ∧
      dirHdr.fileLength = DirectoryFileSize ∧ dirHdr.Laid l₁ ∧
      (FreeMapSector :: l₀ ++ DirectorySector :: l₁).Nodup ∧
      (∀ s, map₂.test s = true ↔ s ∈ FreeMapSector :: l₀ ++ DirectorySector :: l₁) ∧
      map₂.numClear = 1019 := by
  have hclear := headers_numClear (heap 0)
  have hneed₀ : (FreeMapFileSize + (SectorSize - 1)) / SectorSize = 1 := by decide
  have hneed₁ : (DirectoryFileSize + (SectorSize - 1)) / SectorSize = 2 := by decide
  obtain ⟨mapHdr, map₁, l₀, ha₀, hlen₀, hl₀, hfree₀, hm₀, hn₀⟩ := assertAllocate_spec
    (.new (heap 2)) (((FreeMap.new (heap 0)).mark FreeMapSector).mark DirectorySector)
    (n := FreeMapFileSize) (by decide) (by omega)
  obtain ⟨dirHdr, map₂, l₁, ha₁, hlen₁, hl₁, hfree₁, hm₁, hn₁⟩ := assertAllocate_spec
    (.new (heap 3)) map₁ (n := DirectoryFileSize) (by decide) (by omega)
  have hin : ∀ s, map₁.test s = true ↔ s ∈ FreeMapSector :: l₀ ∨ s = DirectorySector := by
    intro s
    rw [hm₀, headers_test, List.mem_cons, or_right_comm]
  have hnot₀ : ∀ s ∈ l₀, s ≠ FreeMapSector ∧ s ≠ DirectorySector := by
    intro s hs
    rw [← not_or, ← headers_test (heap 0), hfree₀ s hs]
    exact Bool.noConfusion
  have hnot₁ : ∀ s ∈ l₁, s ∉ FreeMapSector :: l₀ ∧ s ≠ DirectorySector := by
    intro s hs
    rw [← not_or, ← hin, hfree₁ s hs]
    exact Bool.noConfusion
  refine ⟨mapHdr, map₁, l₀, dirHdr, map₂, l₁, ha₀, ha₁, hlen₀, hl₀, hlen₁, hl₁, ?_, fun s => ?_,
    by omega⟩
  · refine List.nodup_append.mpr ⟨List.nodup_cons.mpr ⟨fun hm => (hnot₀ _ hm).1 rfl, hl₀.nodup⟩,
      List.nodup_cons.mpr ⟨fun hm => (hnot₁ _ hm).2 rfl, hl₁.nodup⟩, ?_⟩
    rintro s hs t ht rfl
    rcases List.mem_cons.mp ht with rfl | ht
    · rcases List.mem_cons.mp hs with e | hs
      · exact absurd e (by decide)
      · exact (hnot₀ _ hs).2 rfl
    · exact (hnot₁ _ ht).1 hs
  · rw [hm₁, hin, List.mem_append, List.mem_cons (b := DirectorySector), or_assoc]

/-- **Formatting succeeds, whatever is on the disk, and leaves it consistent**, with an empty directory
and all but five sectors free. -/
theorem format_spec (d : Disk) (heap : Heap) : ∃ fs, format d heap = .ok fs ∧ Inv fs ∧
    (∀ i, fs.disk.directory.inUse i = false) ∧ fs.disk.freeMap.numClear = 1019 := by
  obtain ⟨mapHdr, map₁, l₀, dirHdr, map₂, l₁, ha₀, ha₁, hlen₀, hl₀, hlen₁, hl₁, hnodup, hm₂, hn₂⟩ :=
    format_allocates heap
  obtain ⟨d₁, hd₁, hh₀, hh₁, hlay⟩ := headers_layout d hl₀ hl₁ hlen₀ hlen₁ hnodup
  have hs₀ : d₁.sectorsOf FreeMapSector = FreeMapSector :: l₀ := by
    rw [Disk.sectorsOf, hh₀, hl₀.sectors_eq]
  have hs₁ : d₁.sectorsOf DirectorySector = DirectorySector :: l₁ := by
    rw [Disk.sectorsOf, hh₁, hl₁.sectors_eq]
  -- the free map and the directory
  obtain ⟨d₂, he₂, hlay₂, hmap₂, -, hout₂⟩ := hlay.writeFreeMap map₂ (heap 4)
  have h₁₂ : d₂ DirectorySector = d₁ DirectorySector :=
    hout₂ _ fun hm => hlay.disjoint (List.mem_cons_of_mem _ hm) List.mem_cons_self
  have h₀₂ : d₂ FreeMapSector = d₁ FreeMapSector := hout₂ _ hlay.freeMap_not_mem
  obtain ⟨d₃, he₃, hlay₃, hmap₃, hdir₃, hout₃⟩ := hlay₂.writeDirectory (.new (heap 1)) (heap 5)
  have h₁₃ : d₃ DirectorySector = d₁ DirectorySector :=
    (hout₃ _ hlay₂.directory_not_mem).trans h₁₂
  have h₀₃ : d₃ FreeMapSector = d₁ FreeMapSector :=
    (hout₃ _ fun hm => hlay₂.disjoint List.mem_cons_self (List.mem_cons_of_mem _ hm)).trans h₀₂
  rw [Disk.header_congr h₁₂, hh₁] at he₃
  rw [hh₀] at he₂
  have hempty : ∀ i, d₃.directory.inUse i = false := fun i => by
    rw [hdir₃, Directory.inUse_new]
  refine ⟨⟨d₃, mapHdr, dirHdr, []⟩, ?_, ⟨hlay₃.consistent hempty (fun s => ?_), ?_, ?_,
    fun g hg => absurd hg List.not_mem_nil⟩, hempty, ?_⟩
  · rw [format, ha₀]
    simp only [bind, Except.bind]
    rw [ha₁]
    simp only [Disk.writeSector_eq]
    rw [← hd₁]
    simp only [Disk.fetchHeader_eq, hh₀, hh₁, he₂, he₃]
  · rw [hmap₃, hmap₂, hm₂, Disk.sectorsOf_congr h₀₃, Disk.sectorsOf_congr h₁₃, hs₀, hs₁]
  · rw [Disk.header_congr h₀₃, hh₀]
  · rw [Disk.header_congr h₁₃, hh₁]
  · show d₃.freeMap.numClear = 1019
    rw [hmap₃, hmap₂, hn₂]

theorem format_inv (d : Disk) (heap : Heap) : ∃ fs, format d heap = .ok fs ∧ Inv fs := by
  obtain ⟨fs, hf, hinv, -⟩ := format_spec d heap
  exact ⟨fs, hf, hinv⟩

/-! ### Every run -/

/-- **The free map, the directory and the headers fit together**, from the formatting of a disk on,
through any run without a request at a negative position.  The marked sectors are those of the two
files of the system and of the entries in use, which are all different; every header has as many
sectors as its length needs; and `Remove` and `Create` run to their end, so that the `ASSERT` of
`Deallocate` holds. -/
theorem fileSystem_consistent {d : Disk} {heap₀ : Heap} {fs₀ : FileSystem}
    (hf : format d heap₀ = .ok fs₀) (h : Steps step (fun _ a => a.1.NonNegative) fs₀ fs) :
    (∀ s, fs.disk.freeMap.test s = true ↔ s ∈ fs.disk.usedSectors) ∧ fs.disk.usedSectors.Nodup ∧
      fs.disk.HeaderOk FreeMapSector ∧ fs.disk.HeaderOk DirectorySector ∧
      (∀ i, fs.disk.directory.inUse i = true → fs.disk.EntryOk i) ∧
      ∀ name heap, (∃ r, fs.remove name heap = .ok r) ∧
        ∀ initialSize : FileSize, ∃ r, fs.create name initialSize.val heap = .ok r := by
  have hinv : Inv fs := by
    obtain ⟨fs₁, hf₁, hinv⟩ := format_inv d heap₀
    rw [hf₁] at hf
    cases hf
    exact h.inv hinv fun _ _ _ hinv ha hs => step_inv hinv ha hs
  obtain ⟨hnodup, hmark⟩ := hinv.consistent.usedSectors
  refine ⟨hmark, hnodup, hinv.consistent.freeMap, hinv.consistent.directory,
    hinv.consistent.entry, fun name heap => ⟨?_, fun initialSize => ?_⟩⟩
  · obtain ⟨r, hr, -⟩ := remove_inv hinv name heap
    exact ⟨r, hr⟩
  · obtain ⟨r, hr, -⟩ := create_inv hinv name heap initialSize
    exact ⟨r, hr⟩

end

/-- A file of 100 bytes is created and removed again. -/
theorem fileSystem_consistent_created : ∃ fs₀ fs₁ fs₂ : FileSystem,
    format (fun _ _ => 0) (fun _ _ => 0) = .ok fs₀ ∧
    step fs₀ (.create [97] ⟨100, by decide⟩, fun _ _ => 0) = .ok fs₁ ∧
    step fs₁ (.remove [97], fun _ _ => 0) = .ok fs₂ ∧ fs₂.disk.usedSectors.Nodup := by
  obtain ⟨fs₀, hf, hinv₀⟩ := format_inv (fun _ _ => 0) fun _ _ => 0
  obtain ⟨r₁, hr₁, hinv₁⟩ := create_inv hinv₀ [97] (fun _ _ => 0)
    ⟨100, by decide⟩
  obtain ⟨r₂, hr₂, -⟩ := remove_inv hinv₁ [97] fun _ _ => 0
  have h₁ : step fs₀ (.create [97] ⟨100, by decide⟩, fun _ _ => 0) = .ok r₁.2 := by
    simp only [step, stepWith, hr₁, Except.map]
  have h₂ : step r₁.2 (.remove [97], fun _ _ => 0) = .ok r₂.2 := by
    simp only [step, stepWith, hr₂, Except.map]
  have hrun : Steps step (fun _ a => a.1.NonNegative) fs₀ r₂.2 := by
    refine .tail (.tail .refl ?_ h₁) ?_ h₂ <;> trivial
  exact ⟨fs₀, r₁.2, r₂.2, hf, h₁, h₂, (fileSystem_consistent hf hrun).2.1⟩

/-- A formatted disk has room for a file of any size. -/
theorem not_refused {d : Disk} (hempty : ∀ i, d.directory.inUse i = false)
    (hnum : d.freeMap.numClear = 1019) (name : List Byte) (size : FileSize) :
    ¬ Refused d name size.val := by
  obtain ⟨size, -, hsize⟩ := size
  have hmax : MaxFileSize = 3840 := rfl
  have hsec : SectorSize = 128 := rfl
  rintro (⟨i, hi, -⟩ | h | h | h)
  · rw [Directory.entries_inUse, hempty] at hi
    cases hi
  · rw [FileHeader.numClear_eq_zero h] at hnum
    cases hnum
  · have := h ⟨0, by decide⟩
    rw [hempty] at this
    cases this
  · rw [hnum, hsec] at h
    dsimp only at h
    omega

section
variable {d d' : Disk} {i : Directory.Index}

/-- A header of ones is none of a file. -/
theorem not_headerOk {s : Sector} (h : d s = fun _ => 0xFF) : ¬ d.HeaderOk s := by
  intro hok
  have hround := hok.roundUp
  rw [Disk.header, h] at hround
  exact absurd hround (by decide)

/-- It has no data. -/
theorem sectorsOf_ones {s : Sector} (h : d s = fun _ => 0xFF) : d.sectorsOf s = [s] := by
  have hnum : (d.header s).numSectors.toInt.toNat = 0 := by
    rw [Disk.header, h]
    decide
  rw [Disk.sectorsOf, FileHeader.sectors, hnum, List.take_zero, List.map_nil]

/-- Behind a header of ones the directory is lost, and the sectors of a file are marked and nobody's. -/
theorem marked_ne_used (hc : d.Consistent) (hi : d.directory.inUse i = true)
    (hones : d' DirectorySector = fun _ => 0xFF) (hout : ∀ s, s ≠ DirectorySector → d' s = d s) :
    ¬ ∀ s, d'.freeMap.test s = true ↔ s ∈ d'.usedSectors := by
  have hfile := Disk.holdings_entry hi
  have hmapSectors : ∀ s ∈ d.sectorsOf FreeMapSector, d' s = d s := fun s hs => hout s fun e =>
    hc.apart (show Holder.freeMap ≠ .directory from Holder.noConfusion) rfl rfl hs
      (e ▸ List.mem_cons_self)
  have hmap : d'.freeMap = d.freeMap := by
    unfold Disk.freeMap
    rw [Disk.fileBytes_congr hmapSectors]
  have hdata : (d'.header DirectorySector).sectors = [] :=
    (List.cons.inj (sectorsOf_ones hones)).2
  intro h
  have hmem := (h (d.directory.headerSector i)).mp (by
    rw [hmap]
    exact marked_of_holder hc hfile List.mem_cons_self)
  obtain ⟨o, -, hmem⟩ := List.mem_flatMap.mp hmem
  cases o with
  | freeMap =>
      have hsec := Disk.sectorsOf_congr (hmapSectors _ List.mem_cons_self)
      exact hc.apart (show _ ≠ Holder.freeMap from Holder.noConfusion) hfile rfl List.mem_cons_self
        (hsec ▸ hmem)
  | directory =>
      have hmem : d.directory.headerSector i ∈ d'.sectorsOf DirectorySector := hmem
      rw [sectorsOf_ones hones, List.mem_singleton] at hmem
      exact hc.apart (show _ ≠ Holder.directory from Holder.noConfusion) hfile rfl
        List.mem_cons_self
        (hmem ▸ List.mem_cons_self)
  | entry j =>
      have hunused : d'.directory.inUse j = false := by
        have hzero : OpenFile.byteAt d' [] = fun _ => 0 := funext fun x => by
          rw [OpenFile.byteAt, List.getElem?_nil, Option.elim_none]
        unfold Disk.directory Disk.fileBytes
        rw [hdata, hzero]
        simp [Directory.inUse, Directory.bytes, Directory.ofBytes]
      rw [Disk.holdings, hunused] at hmem
      cases hmem

end

/-- On a formatted disk a file of 128 bytes is created and opened, and 128 bytes are written to it at
the position -128: they go to the sector 1, which is the header of the directory, and the file is as
it was. -/
theorem writeAt_overwrites : ∃ fs₀ fs₁ fs₂ fs₃ : FileSystem,
    format (fun _ _ => 0) (fun _ _ => 0) = .ok fs₀ ∧
    step fs₀ (.create [97] ⟨128, by decide⟩, fun _ _ => 0) = .ok fs₁ ∧
    step fs₁ (.openFile [97], fun _ _ => 0) = .ok fs₂ ∧
    step fs₂ (.writeAt 0 (fun _ => 0xFF) 128 (-128), fun _ _ => 0) = .ok fs₃ ∧
    Steps step always fs₀ fs₃ ∧ fs₃.disk DirectorySector = (fun _ => 0xFF) ∧
    ¬ fs₃.disk.HeaderOk DirectorySector ∧
    ¬ ∀ s, fs₃.disk.freeMap.test s = true ↔ s ∈ fs₃.disk.usedSectors := by
  obtain ⟨fs₀, hf, hinv₀, hempty, hnum⟩ := format_spec (fun _ _ => 0) fun _ _ => 0
  have hc₀ := hinv₀.consistent
  have href := not_refused hempty hnum [97] ⟨128, by decide⟩
  have hopen : fs₀.openFiles = [] := List.eq_nil_iff_forall_not_mem.mpr fun g hg => by
    obtain ⟨j, hj, -⟩ := hinv₀.handle g hg
    rw [hempty] at hj
    cases hj
  rcases create_sized hc₀ fs₀.openFiles [97] ⟨128, by decide⟩ fun _ _ => 0 with
    ⟨hn, -⟩ | ⟨-, d, i, f, l, hcr, hbytes, he₁⟩
  · exact absurd hn href
  rw [← hinv₀.eq_mounted, hopen] at he₁
  have h₁ : step fs₀ (.create [97] ⟨128, by decide⟩, fun _ _ => 0) = .ok (mounted d []) := by
    simp only [step, stepWith, he₁, Except.map]
  -- the entry of the file, and its one data sector
  have hi : d.directory.entries.Matches [97] i :=
    (hcr.matches_iff (fun j hj => href (.inl ⟨j, hj⟩)) i).mpr rfl
  have hhead : d.directory.headerSector i = f := by
    rw [hcr.directory, Disk.headerSector_setEntry_self]
  have hlaid := (hcr.consistent.entry i hi.1).2
  rw [Disk.HeaderOk, hhead] at hlaid
  obtain ⟨s, hs⟩ : ∃ s, (d.header f).sectors = [s] := by
    refine List.length_eq_one_iff.mp ?_
    rw [hlaid.length, hlaid.roundUp, hbytes]
    decide
  rw [hs] at hlaid
  have hne : s ≠ DirectorySector := by
    rintro rfl
    have hfile := Disk.holdings_entry hi.1
    rw [hhead, Disk.sectorsOf, hs] at hfile
    exact hcr.consistent.apart (show _ ≠ Holder.directory from Holder.noConfusion) hfile rfl
      (List.mem_cons_of_mem _ List.mem_cons_self) List.mem_cons_self
  have hinv : Inv (mounted d []) := ⟨hcr.consistent, rfl, rfl, fun g hg => absurd hg List.not_mem_nil⟩
  rcases openFile_spec hinv [97] fun _ _ => 0 with ⟨hnone, -⟩ | ⟨j, hj, he₂⟩
  · exact absurd hi (hnone i)
  obtain rfl : j = i := (hcr.matches_iff (fun k hk => href (.inl ⟨k, hk⟩)) j).mp hj
  rw [mounted_disk, hhead, mounted_openFiles, List.nil_append] at he₂
  obtain ⟨d', hw, hones, hout⟩ := OpenFile.writeAt_before hlaid hbytes hne d (fun _ => 0) fun _ => 0xFF
  have h₂ : step (mounted d []) (.openFile [97], fun _ _ => 0) =
    .ok { mounted d [] with openFiles := [⟨f.val, d.header f⟩] } := he₂
  have h₃ : step { mounted d [] with openFiles := [⟨f.val, d.header f⟩] }
      (.writeAt 0 (fun _ => 0xFF) 128 (-128), fun _ _ => 0) =
      .ok { mounted d [] with openFiles := [⟨f.val, d.header f⟩], disk := d' } := by
    have hw' : OpenFile.writeAt d (d.header f) (fun _ => 0) (fun _ => 0xFF) (128 : Word).toInt
      (-128 : Word).toInt = .ok (128, d') := hw
    simp only [step, stepWith, List.getElem?_cons_zero, Option.elim_some, mounted_disk, hw', Except.map]
  exact ⟨fs₀, _, _, _, hf, h₁, h₂, h₃, .tail (.tail (.tail .refl trivial h₁) trivial h₂) trivial h₃,
    hones, not_headerOk hones, marked_ne_used hcr.consistent hi.1 hones hout⟩

/-- **`Create` is all or nothing.**  On every consistent disk, for every name and every size a file
may have, `Create` returns `FALSE` iff an entry has the same first nine characters, no sector is free
for the header, the directory is full, or too few sectors remain for the data, and then no sector is
changed; and when it returns `TRUE`, `Remove` of the name returns `TRUE` and restores the free map and
the entries in use. -/
theorem create_all_or_nothing {d : Disk} (hc : d.Consistent) (openFiles : List Handle)
    (name : List Byte) (initialSize : FileSize) (heap : Heap) :
    ∃ r fs, (mounted d openFiles).create name initialSize.val heap = .ok (r, fs) ∧
      (r = false ↔ Refused d name initialSize.val) ∧ (r = false → fs.disk = d) ∧
      (r = true → ∀ heap', ∃ fs', fs.remove name heap' = .ok (true, fs') ∧
        (∀ s, fs'.disk.freeMap.test s = d.freeMap.test s) ∧
        ∀ i, fs'.disk.directory.inUse i = d.directory.inUse i ∧
          (d.directory.inUse i = true →
            fs'.disk.directory.entries.table i = d.directory.entries.table i)) := by
  rcases create_spec hc openFiles name initialSize heap with ⟨href, he⟩ | ⟨href, d', i, f, l, hcr, he⟩
  · exact ⟨false, _, he, iff_of_true rfl href, fun _ => rfl, fun h => Bool.noConfusion h⟩
  · refine ⟨true, _, he, iff_of_false Bool.noConfusion href, fun h => Bool.noConfusion h,
      fun _ heap' => ?_⟩
    have hmatch := hcr.matches_iff fun j hj => href (.inl ⟨j, hj⟩)
    rcases remove_spec hcr.consistent openFiles name heap' with ⟨hnone, -⟩ | ⟨d'', j, hj, hrem, hr⟩
    · exact absurd ((hmatch i).mpr rfl) (hnone i)
    · obtain rfl := (hmatch j).mp hj
      exact ⟨_, hr, hcr.removed_freeMap hrem, hcr.removed_entries hrem⟩

/-- On a formatted disk a file of 100 bytes is created, and removed again. -/
theorem create_all_or_nothing_formatted : ∃ d : Disk, d.Consistent ∧ ∃ fs fs',
    (mounted d []).create [97] 100 (fun _ _ => 0) = .ok (true, fs) ∧
    fs.remove [97] (fun _ _ => 0) = .ok (true, fs') ∧
    ∀ s, fs'.disk.freeMap.test s = d.freeMap.test s := by
  obtain ⟨fs₀, -, hinv, hempty, hnum⟩ := format_spec (fun _ _ => 0) fun _ _ => 0
  have hc := hinv.consistent
  have href := not_refused hempty hnum [97] ⟨100, by decide⟩
  obtain ⟨r, fs, he, hr, -, hrem⟩ := create_all_or_nothing hc [] [97] ⟨100, by decide⟩ fun _ _ => 0
  obtain rfl : r = true := by
    cases r with
    | true => rfl
    | false => exact absurd (hr.mp rfl) href
  obtain ⟨fs', he', hmap, -⟩ := hrem rfl fun _ _ => 0
  exact ⟨fs₀.disk, hc, fs, fs', he, he', hmap⟩

end FileSystem

end Nachos
