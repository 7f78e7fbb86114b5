import Nachos.Filesys.Consistency
import Nachos.Filesys.DirectoryMap

/-!
# Filesys — Create and Remove

What `FileSystem::Create` and `Remove` do to a consistent disk.  Both work on copies of the free map
and the directory, and flush them when all has gone well; `Create` gives up at four places, with its
copies half changed.

* `create_spec`, `remove_spec`: the two operations, case by case (`Refused`, `Created`, `Removed`).
* `Created.removed_freeMap`, `Created.removed_entries`: what `Remove` undoes.
-/

namespace Nachos
open Lib

namespace FileSystem

/-- The file system of a disk: the files of the free map and the directory are open. -/
def mounted (d : Disk) (openFiles : List Handle) : FileSystem :=
  ⟨d, d.header FreeMapSector, d.header DirectorySector, openFiles⟩

/-- Why `Create` fails: a name that is the same to the directory, no sector for the header, no entry,
or too few sectors for the data. -/
def Refused (d : Disk) (name : List Byte) (size : Word) : Prop :=
  (∃ i, d.directory.entries.Matches name i) ∨ (∀ s, d.freeMap.test s = true) ∨
    (∀ i, d.directory.inUse i = true) ∨
    (d.freeMap.numClear : Int) - 1 < (size.toInt + (SectorSize - 1)) / SectorSize

/-- A file has been created: the entry `i` has the header sector `f`, and the data sectors `l`. -/
structure Created (d d' : Disk) (name : List Byte) (i : Directory.Index) (f : Sector)
    (l : List Sector) : Prop where
  consistent : d'.Consistent
  unused : d.directory.inUse i = false
  free : ∀ s ∈ f :: l, d.freeMap.test s = false
  freeMap : ∀ s, d'.freeMap.test s = true ↔ d.freeMap.test s = true ∨ s ∈ f :: l
  directory : d'.directory = d.directory.setEntry i name (BitVec.ofNat 32 f.val)
  sectors : d'.sectorsOf f = f :: l
  out : ∀ s, d.freeMap.test s = true → s ∉ (d.header FreeMapSector).sectors →
    s ∉ (d.header DirectorySector).sectors → d' s = d s

/-- The file of the entry `i` has been removed. -/
structure Removed (d d' : Disk) (i : Directory.Index) : Prop where
  consistent : d'.Consistent
  freeMap : ∀ s, d'.freeMap.test s = true ↔ d.freeMap.test s = true ∧
    s ∉ d.sectorsOf (d.directory.headerSector i)
  directory : d'.directory = d.directory.clearEntry i
  out : ∀ s, d.freeMap.test s = true → s ∉ (d.header FreeMapSector).sectors →
    s ∉ (d.header DirectorySector).sectors → d' s = d s

section
variable {d d' : Disk} {openFiles : List Handle} {name : List Byte} {heap : Heap}
  {i : Directory.Index} {f : Sector} {l : List Sector}

@[simp] theorem mounted_disk : (mounted d openFiles).disk = d := rfl
@[simp] theorem mounted_openFiles : (mounted d openFiles).openFiles = openFiles := rfl
@[simp] theorem mounted_freeMapFile :
    (mounted d openFiles).freeMapFile = d.header FreeMapSector := rfl
@[simp] theorem mounted_directoryFile :
    (mounted d openFiles).directoryFile = d.header DirectorySector := rfl

theorem mounted_fetchDirectory (hc : d.Consistent) :
    (mounted d openFiles).fetchDirectory heap = .ok d.directory :=
  Directory.fetchFrom_eq _ hc.directory hc.directoryLength _

theorem mounted_fetchFreeMap (hc : d.Consistent) :
    (mounted d openFiles).fetchFreeMap heap = .ok d.freeMap :=
  FreeMap.fetchFrom_eq _ hc.freeMap hc.freeMapLength _

/-- The two files stay open over a change that leaves their headers alone. -/
theorem mounted_congr (h₀ : d' FreeMapSector = d FreeMapSector)
    (h₁ : d' DirectorySector = d DirectorySector) (openFiles : List Handle) :
    (⟨d', d.header FreeMapSector, d.header DirectorySector, openFiles⟩ : FileSystem) =
      mounted d' openFiles := by
  rw [mounted, Disk.header_congr h₀, Disk.header_congr h₁]

theorem marked_of_holder (hc : d.Consistent) {o : Holder} (ho : d.holdings o = some l) {s : Sector}
    (hs : s ∈ l) : d.freeMap.test s = true :=
  (hc.owned.taken_iff s).mpr ⟨o, l, ho, hs⟩

/-- A sector that is not marked is in no file. -/
theorem not_mem_of_holder (hc : d.Consistent) {o : Holder} (ho : d.holdings o = some l)
    (hf : d.freeMap.test f = false) : f ∉ l := by
  intro hm
  rw [marked_of_holder hc ho hm] at hf
  cases hf

theorem clearAt_eq (freeMap : FreeMap) (s : Sector) :
    freeMap.clearAt s.val = .ok (freeMap.clear s) := by
  unfold FreeMap.clearAt
  rw [dif_pos ⟨by omega, by omega⟩]
  rfl

/-- The changes of `Create` reach the disk. -/
theorem flushCreate_spec (hc : d.Consistent) (openFiles : List Handle) (name : List Byte)
    (heap : Heap) (hdr : FileHeader) (freeMap : FreeMap) (hi : d.directory.inUse i = false)
    (hfl : (f :: l).Nodup) (hfree : ∀ s ∈ f :: l, d.freeMap.test s = false) (hlaid : hdr.Laid l)
    (hmap : ∀ s, freeMap.test s = true ↔ d.freeMap.test s = true ∨ s ∈ f :: l) :
    ∃ d', (mounted d openFiles).flushCreate hdr f
        (d.directory.setEntry i name (BitVec.ofNat 32 f.val)) freeMap heap =
      .ok (true, mounted d' openFiles) ∧ Created d d' name i f l ∧ d'.header f = hdr := by
  have hff := hfree f List.mem_cons_self
  have hmapf : f ∉ d.sectorsOf FreeMapSector := not_mem_of_holder hc (o := .freeMap) rfl hff
  have hdirf : f ∉ d.sectorsOf DirectorySector := not_mem_of_holder hc (o := .directory) rfl hff
  -- the header
  have hd₁ : ∀ s, s ≠ f → Function.update d f hdr.writeBack s = d s :=
    fun s hs => Function.update_of_ne hs _ _
  have h₀₁ := hd₁ FreeMapSector fun e => hmapf (e ▸ List.mem_cons_self)
  have h₁₁ := hd₁ DirectorySector fun e => hdirf (e ▸ List.mem_cons_self)
  -- the directory
  obtain ⟨d₂, he₂, hlay₂, -, hdir₂, hout₂⟩ := (hc.toLayout.congr h₀₁ h₁₁).writeDirectory
    (d.directory.setEntry i name (BitVec.ofNat 32 f.val)) (heap 5)
  rw [Disk.header_congr h₁₁] at he₂ hout₂
  have h₀₂ : d₂ FreeMapSector = d FreeMapSector := by
    rw [hout₂, h₀₁]
    exact fun hm => hc.disjoint List.mem_cons_self (List.mem_cons_of_mem _ hm)
  -- the free map
  obtain ⟨d₃, he₃, hlay₃, hmap₃, hdir₃, hout₃⟩ := hlay₂.writeFreeMap freeMap (heap 6)
  rw [Disk.header_congr h₀₂] at he₃ hout₃
  have hout : ∀ s, d.freeMap.test s = true → s ∉ (d.header FreeMapSector).sectors →
      s ∉ (d.header DirectorySector).sectors → d₃ s = d s := by
    intro s hs hs₀ hs₁
    rw [hout₃ s hs₀, hout₂ s hs₁, hd₁ s]
    rintro rfl
    rw [hff] at hs
    cases hs
  have hf₃ : d₃.header f = hdr := by
    unfold Disk.header
    rw [hout₃ f fun hm => hmapf (List.mem_cons_of_mem _ hm),
      hout₂ f fun hm => hdirf (List.mem_cons_of_mem _ hm), Function.update_self,
      FileHeader.fetchFrom_writeBack]
  have hmap' : ∀ s, d₃.freeMap.test s = true ↔ d.freeMap.test s = true ∨ s ∈ f :: l := by
    rw [hmap₃]
    exact hmap
  have hdir := hdir₃.trans hdir₂
  obtain ⟨h₀, h₁, -⟩ := hc.headers hout
  refine ⟨d₃, ?_, ⟨hc.addEntry hi hfl hfree hlay₃ hmap' hdir (by rw [hf₃]; exact hlaid) hout, hi,
    hfree, hmap', hdir, by rw [Disk.sectorsOf, hf₃, hlaid.sectors_eq], hout⟩, hf₃⟩
  rw [flushCreate]
  simp only [mounted_disk, mounted_freeMapFile, mounted_directoryFile, mounted_openFiles,
    Disk.writeSector_eq, bind, Except.bind, he₂, he₃, mounted_congr h₀ h₁]

/-- `Find` fails when no entry matches, as the sector of an entry in use is one of the disk. -/
theorem find_ne_iff (hc : d.Consistent) (name : List Byte) :
    d.directory.find name ≠ -1 ↔ ∃ i, d.directory.entries.Matches name i := by
  rw [Directory.find, Directory.findIndex_entries]
  rcases d.directory.entries.findIndex_cases name with ⟨i, hf, hi⟩ | ⟨hf, hnone⟩
  · rw [hf, Option.elim_some, (hc.entry i hi.1).1]
    exact iff_of_true (by omega) ⟨i, hi⟩
  · rw [hf, Option.elim_none]
    exact iff_of_false (fun h => h rfl) fun ⟨i, hi⟩ => hnone i hi

/-- `Add`, for a name that no entry matches. -/
theorem add_cases {directory : Directory} (newSector : Word)
    (hnone : ∀ i, ¬ directory.entries.Matches name i) :
    (directory.add name newSector = none ∧ ∀ i, directory.inUse i = true) ∨
    ∃ i, directory.add name newSector = some (directory.setEntry i name newSector) ∧
      directory.inUse i = false := by
  have hf : directory.findIndex name = none := by
    rw [Directory.findIndex_entries]
    rcases directory.entries.findIndex_cases name with ⟨i, -, hi⟩ | ⟨hf, -⟩
    · exact absurd hi (hnone i)
    · exact hf
  rw [Directory.add, hf, if_neg (by simp)]
  cases hu : (List.finRange NumDirEntries).find? fun i => !directory.inUse i with
  | some i => exact .inr ⟨i, rfl, by simpa using List.find?_some hu⟩
  | none =>
      exact .inl ⟨rfl, fun i => by simpa using List.find?_eq_none.mp hu i (List.mem_finRange i)⟩

/-- `Create` fails for one of the four reasons and changes nothing, or makes a file of its size. -/
theorem create_sized (hc : d.Consistent) (openFiles : List Handle) (name : List Byte)
    (initialSize : FileSize) (heap : Heap) :
    (Refused d name initialSize.val ∧ (mounted d openFiles).create name initialSize.val heap =
      .ok (false, mounted d openFiles)) ∨
    (¬ Refused d name initialSize.val ∧ ∃ d' i f l, Created d d' name i f l ∧
      (d'.header f).numBytes = initialSize.val ∧
      (mounted d openFiles).create name initialSize.val heap = .ok (true, mounted d' openFiles)) := by
  obtain ⟨size, hsize₀, hsize⟩ := initialSize
  dsimp only
  rw [create, mounted_fetchDirectory hc]
  simp only [bind, Except.bind, mounted_fetchFreeMap hc]
  by_cases hfind : d.directory.find name ≠ -1
  · rw [if_pos hfind]
    exact .inl ⟨.inl ((find_ne_iff hc name).mp hfind), rfl⟩
  have hnone : ¬ ∃ i, d.directory.entries.Matches name i := fun h =>
    hfind ((find_ne_iff hc name).mpr h)
  rw [if_neg hfind, createWith]
  rcases d.freeMap.find_spec with ⟨f, hf, hclear, -⟩ | ⟨hf, hfull⟩
  swap
  · rw [hf]
    exact .inl ⟨.inr (.inl hfull), rfl⟩
  rw [hf]
  dsimp only [Option.elim_some]
  rcases add_cases (BitVec.ofNat 32 f.val) fun i hi => hnone ⟨i, hi⟩ with ⟨ha, hall⟩ | ⟨i, ha, hi⟩
  · rw [ha]
    exact .inl ⟨.inr (.inr (.inl hall)), rfl⟩
  have hone := BitMap.numClear_mark hclear
  have hceil := FileHeader.sectorsFor_eq hsize₀
  rw [ha, Option.elim_some, createIn]
  rcases FileHeader.allocate_spec (.new (heap 4)) (d.freeMap.mark f) size hsize₀ hsize with
    ⟨hal, hlt⟩ | ⟨hdr, freeMap, l, hal, hbytes, hlaid, hfree, hmark, hnum⟩
  · rw [hal]
    exact .inl ⟨.inr (.inr (.inr (by omega))), rfl⟩
  · -- the sectors of the data are not the one of the header, which is marked by then
    have hsplit : ∀ s, s ∈ l → s ≠ f ∧ d.freeMap.test s = false := by
      intro s hs
      have := hfree s hs
      rw [BitMap.test_mark, Bool.or_eq_false_iff, decide_eq_false_iff_not] at this
      exact this
    obtain ⟨d', he, hcr, hhdr⟩ := flushCreate_spec hc openFiles name heap hdr freeMap hi
      (List.nodup_cons.mpr ⟨fun hm => (hsplit f hm).1 rfl, hlaid.nodup⟩)
      (fun s hs => by
        rcases List.mem_cons.mp hs with rfl | hs
        · exact hclear
        · exact (hsplit s hs).2) hlaid
      (fun s => by
        rw [hmark, BitMap.test_mark, Bool.or_eq_true, decide_eq_true_eq, List.mem_cons,
          or_left_comm, or_assoc])
    refine .inr ⟨?_, d', i, f, l, hcr, by rw [hhdr]; exact hbytes, ?_⟩
    · have hlen := hlaid.length
      have hround := hlaid.roundUp
      rw [hbytes] at hround
      rintro (h | h | h | h)
      · exact hnone h
      · rw [h f] at hclear
        cases hclear
      · rw [h i] at hi
        cases hi
      · omega
    · rw [hal]
      simp only [bind, Except.bind, Option.elim_some]
      exact he

/-- **`Create`** fails for one of the four reasons and changes nothing, or makes a file. -/
theorem create_spec (hc : d.Consistent) (openFiles : List Handle) (name : List Byte)
    (initialSize : FileSize) (heap : Heap) :
    (Refused d name initialSize.val ∧ (mounted d openFiles).create name initialSize.val heap =
      .ok (false, mounted d openFiles)) ∨
    (¬ Refused d name initialSize.val ∧ ∃ d' i f l, Created d d' name i f l ∧
      (mounted d openFiles).create name initialSize.val heap = .ok (true, mounted d' openFiles)) := by
  rcases create_sized hc openFiles name initialSize heap with h | ⟨href, d', i, f, l, hcr, -, he⟩
  · exact .inl h
  · exact .inr ⟨href, d', i, f, l, hcr, he⟩

/-- **`Remove`** fails, changing nothing, when no entry matches the name, or removes the file of one
that does; no `ASSERT` fails. -/
theorem remove_spec (hc : d.Consistent) (openFiles : List Handle) (name : List Byte) (heap : Heap) :
    ((∀ i, ¬ d.directory.entries.Matches name i) ∧
      (mounted d openFiles).remove name heap = .ok (false, mounted d openFiles)) ∨
    (∃ d' i, d.directory.entries.Matches name i ∧ Removed d d' i ∧
      (mounted d openFiles).remove name heap = .ok (true, mounted d' (openFiles.filter fun g =>
        g.sector ≠ (d.directory.headerSector i).val))) := by
  rw [remove, mounted_fetchDirectory hc]
  simp only [bind, Except.bind]
  rcases d.directory.entries.findIndex_cases name with ⟨i, hf, hi⟩ | ⟨hf, hnone⟩ <;>
    rw [← Directory.findIndex_entries] at hf
  swap
  · rw [Directory.find, hf, Option.elim_none, if_pos rfl]
    exact .inl ⟨hnone, rfl⟩
  have huse : d.directory.inUse i = true := hi.1
  obtain ⟨hsec, hhdr⟩ := hc.entry i huse
  have hmine := Disk.holdings_entry huse
  obtain ⟨freeMap, hde, hfm⟩ := FileHeader.deallocate_spec hhdr fun s hs =>
    marked_of_holder hc hmine (List.mem_cons_of_mem _ hs)
  -- the free map
  obtain ⟨d₁, he₁, hlay₁, hmap₁, -, hout₁⟩ :=
    hc.writeFreeMap (freeMap.clear (d.directory.headerSector i)) (heap 4)
  have h₁₁ : d₁ DirectorySector = d DirectorySector :=
    hout₁ _ fun hm => hc.disjoint (List.mem_cons_of_mem _ hm) List.mem_cons_self
  -- the directory
  obtain ⟨d₂, he₂, hlay₂, hmap₂, hdir₂, hout₂⟩ :=
    hlay₁.writeDirectory (d.directory.clearEntry i) (heap 5)
  rw [Disk.header_congr h₁₁] at he₂ hout₂
  have hout : ∀ s, d.freeMap.test s = true → s ∉ (d.header FreeMapSector).sectors →
      s ∉ (d.header DirectorySector).sectors → d₂ s = d s := by
    intro s _ hs₀ hs₁
    rw [hout₂ s hs₁, hout₁ s hs₀]
  have hmap : ∀ s, d₂.freeMap.test s = true ↔ d.freeMap.test s = true ∧
      s ∉ d.sectorsOf (d.directory.headerSector i) := by
    intro s
    rw [hmap₂, hmap₁, BitMap.test_clear, Bool.and_eq_true, Bool.not_eq_true',
      decide_eq_false_iff_not, hfm, Disk.sectorsOf, List.mem_cons, not_or, and_left_comm]
  obtain ⟨h₀, h₁, -⟩ := hc.headers hout
  refine .inr ⟨d₂, i, hi, ⟨hc.removeEntry huse hlay₂ hmap hdir₂ hout, hmap, hdir₂, hout⟩, ?_⟩
  rw [Directory.find, hf, Option.elim_some, hsec, if_neg (by omega), removeAt, Directory.remove, hf]
  simp only [bind, Except.bind, mounted_fetchFreeMap hc, mounted_disk, mounted_freeMapFile,
    mounted_directoryFile, mounted_openFiles, Disk.fetchHeader_eq, hde, clearAt_eq, he₁,
    Option.map_some, Option.getD_some, he₂, mounted_congr h₀ h₁]

/-! ### Create, and then Remove -/

/-- The new entry is the one that matches its name. -/
theorem Created.matches_iff (h : Created d d' name i f l)
    (hnone : ∀ j, ¬ d.directory.entries.Matches name j) (j : Directory.Index) :
    d'.directory.entries.Matches name j ↔ j = i := by
  rw [h.directory]
  unfold DirTable.Matches
  rw [Directory.entries_setEntry]
  by_cases e : j = i
  · subst e
    rw [DirTable.table_set_self, DirectoryEntry.key_assign]
    exact iff_of_true ⟨rfl, rfl⟩ rfl
  · rw [DirTable.table_set_ne _ e]
    exact iff_of_false (hnone j) e

/-- The sectors of a new file go back to the free map. -/
theorem Created.removed_freeMap {d'' : Disk} (h : Created d d' name i f l) (hr : Removed d' d'' i)
    (s : Sector) : d''.freeMap.test s = d.freeMap.test s := by
  have hhead : d'.directory.headerSector i = f := by
    rw [h.directory, Disk.headerSector_setEntry_self]
  rw [Bool.eq_iff_iff, hr.freeMap, hhead, h.sectors, h.freeMap]
  constructor
  · rintro ⟨hs | hs, hn⟩
    · exact hs
    · exact absurd hs hn
  · intro hs
    refine ⟨.inl hs, fun hm => ?_⟩
    rw [h.free s hm] at hs
    cases hs

/-- And the entries that were in use are in use, as they were. -/
theorem Created.removed_entries {d'' : Disk} (h : Created d d' name i f l) (hr : Removed d' d'' i)
    (j : Directory.Index) : d''.directory.inUse j = d.directory.inUse j ∧
      (d.directory.inUse j = true → d''.directory.entries.table j = d.directory.entries.table j) := by
  rw [hr.directory, h.directory, Directory.inUse_clearEntry, Directory.inUse_setEntry]
  by_cases e : j = i
  · subst e
    rw [h.unused]
    simp
  · rw [decide_eq_false e, Directory.entries_clearEntry, Directory.entries_setEntry, DirTable.unuse,
      DirTable.table_set_ne _ e, DirTable.table_set_ne _ e]
    simp

end

end FileSystem

end Nachos
