import Nachos.Filesys.FileSystem

/-!
# Filesys — what is on the disk fits together

The free map, the directory and the headers as they lie on the disk, at the sectors where a system
that is started would look for them.  `holdings` are the sectors that each of the two files of the
system and each entry in use has: its header and its data.  `Consistent` says that these are all
different and are exactly the sectors marked in the map.

Every operation keeps this (`step_inv`): it changes the sectors of one entry only, by `Owned.take`
and `Owned.give`.
-/

namespace Nachos
open Lib
open OpenFile (byteAt)

namespace Disk

/-- The header in a sector. -/
def header (d : Disk) (s : Sector) : FileHeader := .fetchFrom (d s)

/-- The bytes of the file with that header. -/
def fileBytes (d : Disk) (s : Sector) : Nat → Byte := byteAt d (d.header s).sectors

def freeMap (d : Disk) : FreeMap := .ofBytes (d.fileBytes FreeMapSector)

def directory (d : Disk) : Directory := .ofBytes (d.fileBytes DirectorySector)

end Disk

/-- The sector of the header of an entry. -/
def Directory.headerSector (directory : Directory) (i : Directory.Index) : Sector :=
  Fin.ofNat NumSectors (directory.sector i).toNat

/-- What has sectors: the two files of the system, and the entries of the directory. -/
inductive Holder where
  | freeMap
  | directory
  | entry (i : Directory.Index)
  deriving DecidableEq

namespace Disk

/-- The sectors of a file: its header and its data. -/
def sectorsOf (d : Disk) (s : Sector) : List Sector := s :: (d.header s).sectors

def holdings (d : Disk) : Holder → Option (List Sector)
  | .freeMap => some (d.sectorsOf FreeMapSector)
  | .directory => some (d.sectorsOf DirectorySector)
  | .entry i =>
      if d.directory.inUse i then some (d.sectorsOf (d.directory.headerSector i)) else none

/-- All that may have sectors. -/
def holders : List Holder := .freeMap :: .directory :: (List.finRange NumDirEntries).map .entry

/-- The sectors of the two files of the system and of the entries in use. -/
def usedSectors (d : Disk) : List Sector := holders.flatMap fun o => (d.holdings o).getD []

/-- The header in the sector `s` is that of a file with as many sectors as its length needs. -/
def HeaderOk (d : Disk) (s : Sector) : Prop := (d.header s).Laid (d.header s).sectors

/-- The two files of the system. -/
structure Layout (d : Disk) : Prop where
  freeMap : d.HeaderOk FreeMapSector
  freeMapLength : (d.header FreeMapSector).fileLength = FreeMapFileSize
  directory : d.HeaderOk DirectorySector
  directoryLength : (d.header DirectorySector).fileLength = DirectoryFileSize
  nodup : (d.sectorsOf FreeMapSector ++ d.sectorsOf DirectorySector).Nodup

/-- An entry in use is that of a file. -/
def EntryOk (d : Disk) (i : Directory.Index) : Prop :=
  (d.directory.sector i).toInt = (d.directory.headerSector i).val ∧
    d.HeaderOk (d.directory.headerSector i)

structure Consistent (d : Disk) : Prop extends Layout d where
  owned : Owned (fun s => d.freeMap.test s = true) d.holdings
  entry : ∀ i, d.directory.inUse i = true → d.EntryOk i

section
variable {d d' : Disk} {s : Sector} {i j : Directory.Index}

theorem header_congr (h : d' s = d s) : d'.header s = d.header s := by
  unfold header
  rw [h]

theorem sectorsOf_congr (h : d' s = d s) : d'.sectorsOf s = d.sectorsOf s := by
  unfold sectorsOf
  rw [header_congr h]

theorem headerOk_congr (h : d' s = d s) (hs : d.HeaderOk s) : d'.HeaderOk s := by
  unfold HeaderOk
  rw [header_congr h]
  exact hs

theorem byteAt_congr {l : List Sector} (h : ∀ s ∈ l, d' s = d s) : byteAt d' l = byteAt d l := by
  funext x
  unfold byteAt
  cases hx : l[x / SectorSize]? with
  | none => rfl
  | some s => rw [Option.elim_some, Option.elim_some, h s (List.mem_of_getElem? hx)]

/-- A file whose sectors are all left alone. -/
theorem fileBytes_congr (h : ∀ x ∈ d.sectorsOf s, d' x = d x) : d'.fileBytes s = d.fileBytes s := by
  unfold fileBytes
  rw [header_congr (h s List.mem_cons_self)]
  exact byteAt_congr fun x hx => h x (List.mem_cons_of_mem s hx)

theorem fetchHeader_eq (d : Disk) (s : Sector) : d.fetchHeader s.val = .ok (d.header s) := by
  rw [fetchHeader, readSector_eq]
  rfl

/-! ### The two files of the system -/

theorem Layout.congr (h : d.Layout) (h₀ : d' FreeMapSector = d FreeMapSector)
    (h₁ : d' DirectorySector = d DirectorySector) : d'.Layout where
  freeMap := headerOk_congr h₀ h.freeMap
  freeMapLength := by rw [header_congr h₀]; exact h.freeMapLength
  directory := headerOk_congr h₁ h.directory
  directoryLength := by rw [header_congr h₁]; exact h.directoryLength
  nodup := by rw [sectorsOf_congr h₀, sectorsOf_congr h₁]; exact h.nodup

/-- The sectors of the two files are different. -/
theorem Layout.disjoint (h : d.Layout) :
    (d.sectorsOf FreeMapSector).Disjoint (d.sectorsOf DirectorySector) :=
  fun _ h₀ h₁ => (List.nodup_append.mp h.nodup).2.2 _ h₀ _ h₁ rfl

theorem Layout.freeMap_not_mem (h : d.Layout) :
    FreeMapSector ∉ (d.header FreeMapSector).sectors :=
  (List.nodup_cons.mp (List.nodup_append.mp h.nodup).1).1

theorem Layout.directory_not_mem (h : d.Layout) :
    DirectorySector ∉ (d.header DirectorySector).sectors :=
  (List.nodup_cons.mp (List.nodup_append.mp h.nodup).2.1).1

/-- The free map is written back: it is on the disk, and nothing else has changed. -/
theorem Layout.writeFreeMap (h : d.Layout) (freeMap : FreeMap) (heap : Nat → Byte) :
    ∃ d', freeMap.writeBack d (d.header FreeMapSector) heap = .ok d' ∧ d'.Layout ∧
      d'.freeMap = freeMap ∧ d'.directory = d.directory ∧
      ∀ s, s ∉ (d.header FreeMapSector).sectors → d' s = d s := by
  obtain ⟨d', he, hout, hin⟩ := freeMap.writeBack_eq (d := d) h.freeMap h.freeMapLength heap
  have h₀ := hout _ h.freeMap_not_mem
  have hdir : ∀ s ∈ d.sectorsOf DirectorySector, d' s = d s := fun s hs =>
    hout s fun hm => h.disjoint (List.mem_cons_of_mem _ hm) hs
  refine ⟨d', he, h.congr h₀ (hdir _ List.mem_cons_self), ?_, ?_, hout⟩
  · unfold Disk.freeMap fileBytes
    rw [header_congr h₀]
    exact hin
  · unfold Disk.directory
    rw [fileBytes_congr hdir]

/-- The directory is written back. -/
theorem Layout.writeDirectory (h : d.Layout) (directory : Directory) (heap : Nat → Byte) :
    ∃ d', directory.writeBack d (d.header DirectorySector) heap = .ok d' ∧ d'.Layout ∧
      d'.freeMap = d.freeMap ∧ d'.directory = directory ∧
      ∀ s, s ∉ (d.header DirectorySector).sectors → d' s = d s := by
  obtain ⟨d', he, hout, hin⟩ := directory.writeBack_eq (d := d) h.directory h.directoryLength heap
  have h₁ := hout _ h.directory_not_mem
  have hmap : ∀ s ∈ d.sectorsOf FreeMapSector, d' s = d s := fun s hs =>
    hout s fun hm => h.disjoint hs (List.mem_cons_of_mem _ hm)
  refine ⟨d', he, h.congr (hmap _ List.mem_cons_self) h₁, ?_, ?_, hout⟩
  · unfold Disk.freeMap
    rw [fileBytes_congr hmap]
  · unfold Disk.directory fileBytes
    rw [header_congr h₁]
    exact hin

/-! ### The entries -/

/-- The sectors of the holders that have some are different. -/
theorem Consistent.apart (h : d.Consistent) {o o' : Holder} {l l' : List Sector} (hne : o ≠ o')
    (ho : d.holdings o = some l) (ho' : d.holdings o' = some l') (hs : s ∈ l) : s ∉ l' :=
  fun hs' => h.owned.disjoint o o' l l' hne ho ho' hs hs'

/-- The marked sectors are the used ones, which are all different. -/
theorem Consistent.usedSectors (h : d.Consistent) : d.usedSectors.Nodup ∧
    ∀ s, d.freeMap.test s = true ↔ s ∈ d.usedSectors := by
  refine h.owned.flatMap (by decide) fun o _ => ?_
  cases o with
  | freeMap => exact List.mem_cons_self
  | directory => exact List.mem_cons_of_mem _ List.mem_cons_self
  | entry i =>
      exact List.mem_cons_of_mem _ (List.mem_cons_of_mem _ (List.mem_map_of_mem (List.mem_finRange i)))

theorem holdings_entry (hi : d.directory.inUse i = true) :
    d.holdings (.entry i) = some (d.sectorsOf (d.directory.headerSector i)) := if_pos hi

/-- What is in a sector that somebody has is not changed by a write to sectors of another one. -/
theorem holdings_congr (h₀ : d' FreeMapSector = d FreeMapSector)
    (h₁ : d' DirectorySector = d DirectorySector) (hdir : d'.directory = d.directory)
    (hent : ∀ i, d.directory.inUse i = true →
      d' (d.directory.headerSector i) = d (d.directory.headerSector i)) :
    d'.holdings = d.holdings := by
  funext o
  cases o with
  | freeMap => exact congrArg some (sectorsOf_congr h₀)
  | directory => exact congrArg some (sectorsOf_congr h₁)
  | entry i =>
      simp only [holdings]
      rw [hdir]
      split
      · rename_i hi
        exact congrArg some (sectorsOf_congr (hent i hi))
      · rfl

/-- The data of an entry is written. -/
theorem Consistent.writeData (h : d.Consistent) (hi : d.directory.inUse i = true)
    (hout : ∀ s, s ∉ (d.header (d.directory.headerSector i)).sectors → d' s = d s) :
    d'.Consistent ∧ d'.directory = d.directory ∧ d' FreeMapSector = d FreeMapSector ∧
      d' DirectorySector = d DirectorySector ∧ ∀ j, d.directory.inUse j = true →
        d' (d.directory.headerSector j) = d (d.directory.headerSector j) := by
  have hmine := holdings_entry hi
  have hother : ∀ o l, o ≠ .entry i → d.holdings o = some l → ∀ s ∈ l, d' s = d s :=
    fun o l hne ho s hs => hout s fun hm => h.apart hne ho hmine hs (List.mem_cons_of_mem _ hm)
  have hmap := hother .freeMap _ Holder.noConfusion rfl
  have hdir := hother .directory _ Holder.noConfusion rfl
  have hdir' : d'.directory = d.directory := by
    unfold Disk.directory
    rw [fileBytes_congr hdir]
  have hmap' : d'.freeMap = d.freeMap := by
    unfold Disk.freeMap
    rw [fileBytes_congr hmap]
  have hent : ∀ j, d.directory.inUse j = true →
      d' (d.directory.headerSector j) = d (d.directory.headerSector j) := by
    intro j hj
    by_cases e : j = i
    · subst e
      exact hout _ (List.nodup_cons.mp (h.owned.nodup _ _ hmine)).1
    · exact hother (.entry j) _ (fun he => e (Holder.entry.inj he)) (holdings_entry hj) _
        List.mem_cons_self
  have h₀ := hmap _ List.mem_cons_self
  have h₁ := hdir _ List.mem_cons_self
  refine ⟨⟨h.toLayout.congr h₀ h₁, ?_, fun j hj => ?_⟩, hdir', h₀, h₁, hent⟩
  · rw [holdings_congr h₀ h₁ hdir' hent, hmap']
    exact h.owned
  · unfold EntryOk
    rw [hdir'] at hj ⊢
    exact ⟨(h.entry j hj).1, headerOk_congr (hent j hj) (h.entry j hj).2⟩

/-- The sectors of the headers keep what they hold where only the data of the two files of the system
and sectors that nobody has are written. -/
theorem Consistent.headers (h : d.Consistent)
    (hout : ∀ s, d.freeMap.test s = true → s ∉ (d.header FreeMapSector).sectors →
      s ∉ (d.header DirectorySector).sectors → d' s = d s) :
    d' FreeMapSector = d FreeMapSector ∧ d' DirectorySector = d DirectorySector ∧
      ∀ i, d.directory.inUse i = true →
        d' (d.directory.headerSector i) = d (d.directory.headerSector i) := by
  have hmark : ∀ o l, d.holdings o = some l → ∀ s ∈ l, d.freeMap.test s = true :=
    fun o l ho s hs => (h.owned.taken_iff s).mpr ⟨o, l, ho, hs⟩
  refine ⟨?_, ?_, fun i hi => ?_⟩
  · refine hout _ (hmark .freeMap _ rfl _ List.mem_cons_self) h.freeMap_not_mem fun hm => ?_
    exact h.disjoint List.mem_cons_self (List.mem_cons_of_mem _ hm)
  · refine hout _ (hmark .directory _ rfl _ List.mem_cons_self) (fun hm => ?_) h.directory_not_mem
    exact h.disjoint (List.mem_cons_of_mem _ hm) List.mem_cons_self
  · have hmine := holdings_entry hi
    refine hout _ (hmark _ _ hmine _ List.mem_cons_self) (fun hm => ?_) fun hm => ?_
    · exact h.apart Holder.noConfusion hmine (show d.holdings .freeMap = _ from rfl)
        List.mem_cons_self
        (List.mem_cons_of_mem _ hm)
    · exact h.apart Holder.noConfusion hmine (show d.holdings .directory = _ from rfl)
        List.mem_cons_self
        (List.mem_cons_of_mem _ hm)

/-- The header sector of a new entry. -/
theorem headerSector_setEntry_self (directory : Directory) (i : Directory.Index) (name : List Byte)
    (f : Sector) :
    (directory.setEntry i name (BitVec.ofNat 32 f.val)).headerSector i = f := by
  unfold Directory.headerSector
  rw [Directory.sector_setEntry_self]
  exact FileHeader.ofNat_toNat (FileHeader.toInt_ofNat_sector f)

theorem headerSector_setEntry_of_ne (directory : Directory) (h : j ≠ i) (name : List Byte)
    (newSector : Word) :
    (directory.setEntry i name newSector).headerSector j = directory.headerSector j := by
  unfold Directory.headerSector
  rw [Directory.sector_setEntry_of_ne h]

theorem headerSector_clearEntry (directory : Directory) (i j : Directory.Index) :
    (directory.clearEntry i).headerSector j = directory.headerSector j := by
  unfold Directory.headerSector
  rw [Directory.sector_clearEntry]

/-- Where the entry `i` alone changes, the other holders have what they had. -/
theorem Consistent.holdings_of_ne (h : d.Consistent)
    (hout : ∀ s, d.freeMap.test s = true → s ∉ (d.header FreeMapSector).sectors →
      s ∉ (d.header DirectorySector).sectors → d' s = d s)
    (hdir : ∀ j, j ≠ i → d'.directory.inUse j = d.directory.inUse j ∧
      d'.directory.headerSector j = d.directory.headerSector j) {o : Holder} (e : o ≠ .entry i) :
    d'.holdings o = d.holdings o := by
  obtain ⟨h₀, h₁, hent⟩ := h.headers hout
  cases o with
  | freeMap => exact congrArg some (sectorsOf_congr h₀)
  | directory => exact congrArg some (sectorsOf_congr h₁)
  | entry j =>
      obtain ⟨huse, hsec⟩ := hdir j fun hj => e (congrArg Holder.entry hj)
      simp only [holdings]
      rw [huse, hsec]
      split
      · rename_i hj
        exact congrArg some (sectorsOf_congr (hent j hj))
      · rfl

/-- **An entry that is not in use takes sectors that are not marked.** -/
theorem Consistent.addEntry (h : d.Consistent) (hi : d.directory.inUse i = false) {f : Sector}
    {l : List Sector} {name : List Byte} (hfl : (f :: l).Nodup)
    (hfree : ∀ s ∈ f :: l, d.freeMap.test s = false) (hlay : d'.Layout)
    (hmap : ∀ s, d'.freeMap.test s = true ↔ d.freeMap.test s = true ∨ s ∈ f :: l)
    (hdir : d'.directory = d.directory.setEntry i name (BitVec.ofNat 32 f.val))
    (hhdr : (d'.header f).Laid l)
    (hout : ∀ s, d.freeMap.test s = true → s ∉ (d.header FreeMapSector).sectors →
      s ∉ (d.header DirectorySector).sectors → d' s = d s) : d'.Consistent := by
  obtain ⟨-, -, hent⟩ := h.headers hout
  have hold : d'.holdings = Function.update d.holdings (.entry i) (some (f :: l)) := by
    funext o
    by_cases e : o = .entry i
    · subst e
      rw [Function.update_self, holdings_entry (by rw [hdir]; simp), hdir,
        headerSector_setEntry_self, sectorsOf, hhdr.sectors_eq]
    · rw [Function.update_of_ne e]
      refine h.holdings_of_ne hout (fun j hji => ?_) e
      rw [hdir, headerSector_setEntry_of_ne _ hji, Directory.inUse_setEntry, decide_eq_false hji,
        Bool.false_or]
      exact ⟨rfl, rfl⟩
  refine ⟨hlay, ?_, fun j hj => ?_⟩
  · rw [hold]
    refine h.owned.take (if_neg (by rw [hi]; exact Bool.noConfusion)) hfl (fun s hs => ?_) hmap
    rw [hfree s hs]
    exact Bool.noConfusion
  · unfold EntryOk HeaderOk
    rw [hdir] at hj ⊢
    by_cases hji : j = i
    · subst hji
      rw [headerSector_setEntry_self, Directory.sector_setEntry_self, hhdr.sectors_eq]
      exact ⟨FileHeader.toInt_ofNat_sector f, hhdr⟩
    · rw [Directory.inUse_setEntry, decide_eq_false hji, Bool.false_or] at hj
      rw [headerSector_setEntry_of_ne _ hji, Directory.sector_setEntry_of_ne hji]
      exact ⟨(h.entry j hj).1, headerOk_congr (hent j hj) (h.entry j hj).2⟩

/-- **An entry gives its sectors back.** -/
theorem Consistent.removeEntry (h : d.Consistent) (hi : d.directory.inUse i = true)
    (hlay : d'.Layout)
    (hmap : ∀ s, d'.freeMap.test s = true ↔ d.freeMap.test s = true ∧
      s ∉ d.sectorsOf (d.directory.headerSector i))
    (hdir : d'.directory = d.directory.clearEntry i)
    (hout : ∀ s, d.freeMap.test s = true → s ∉ (d.header FreeMapSector).sectors →
      s ∉ (d.header DirectorySector).sectors → d' s = d s) : d'.Consistent := by
  obtain ⟨-, -, hent⟩ := h.headers hout
  have hold : d'.holdings = Function.update d.holdings (.entry i) none := by
    funext o
    by_cases e : o = .entry i
    · subst e
      rw [Function.update_self]
      exact if_neg (by rw [hdir]; simp)
    · rw [Function.update_of_ne e]
      refine h.holdings_of_ne hout (fun j hji => ?_) e
      rw [hdir, headerSector_clearEntry, Directory.inUse_clearEntry, decide_eq_false hji,
        Bool.not_false, Bool.true_and]
      exact ⟨rfl, rfl⟩
  refine ⟨hlay, ?_, fun j hj => ?_⟩
  · rw [hold]
    exact h.owned.give (holdings_entry hi) hmap
  · unfold EntryOk
    rw [hdir, Directory.inUse_clearEntry, Bool.and_eq_true] at hj
    rw [hdir, headerSector_clearEntry, Directory.sector_clearEntry]
    exact ⟨(h.entry j hj.2).1, headerOk_congr (hent j hj.2) (h.entry j hj.2).2⟩

/-- The free map of a formatted disk. -/
theorem Layout.consistent (h : d.Layout) (hdir : ∀ i, d.directory.inUse i = false)
    (hmap : ∀ s, d.freeMap.test s = true ↔
      s ∈ d.sectorsOf FreeMapSector ++ d.sectorsOf DirectorySector) : d.Consistent where
  toLayout := h
  owned := by
    have hnone : ∀ i, d.holdings (.entry i) = none := fun i =>
      if_neg (by rw [hdir]; exact Bool.noConfusion)
    refine ⟨fun o l ho => ?_, fun o o' l l' hne ho ho' s hs hs' => ?_, fun s => ?_⟩
    · cases o with
      | freeMap => cases ho; exact (List.nodup_append.mp h.nodup).1
      | directory => cases ho; exact (List.nodup_append.mp h.nodup).2.1
      | entry i => rw [hnone] at ho; cases ho
    · cases o with
      | entry i => rw [hnone] at ho; cases ho
      | freeMap =>
          cases o' with
          | entry i => rw [hnone] at ho'; cases ho'
          | freeMap => exact hne rfl
          | directory => cases ho; cases ho'; exact h.disjoint hs hs'
      | directory =>
          cases o' with
          | entry i => rw [hnone] at ho'; cases ho'
          | directory => exact hne rfl
          | freeMap => cases ho; cases ho'; exact h.disjoint hs' hs
    · rw [hmap, List.mem_append]
      constructor
      · rintro (hs | hs)
        · exact ⟨.freeMap, _, rfl, hs⟩
        · exact ⟨.directory, _, rfl, hs⟩
      · rintro ⟨o, l, ho, hs⟩
        cases o with
        | freeMap => cases ho; exact .inl hs
        | directory => cases ho; exact .inr hs
        | entry i => rw [hnone] at ho; cases ho
  entry i hi := by
    rw [hdir] at hi
    cases hi

end

end Disk

namespace FileSystem

/-- An open file is that of an entry, and its header is the one on the disk. -/
def HandleOk (d : Disk) (f : Handle) : Prop := ∃ i, d.directory.inUse i = true ∧
  f.sector = (d.directory.headerSector i).val ∧ f.hdr = d.header (d.directory.headerSector i)

structure Inv (fs : FileSystem) : Prop where
  consistent : fs.disk.Consistent
  freeMapFile : fs.freeMapFile = fs.disk.header FreeMapSector
  directoryFile : fs.directoryFile = fs.disk.header DirectorySector
  handle : ∀ f ∈ fs.openFiles, HandleOk fs.disk f

section
variable {fs : FileSystem} {name : List Byte} {heap : Heap}

theorem Inv.fetchDirectory (h : Inv fs) : fs.fetchDirectory heap = .ok fs.disk.directory := by
  rw [FileSystem.fetchDirectory, h.directoryFile]
  exact Directory.fetchFrom_eq _ h.consistent.directory h.consistent.directoryLength _

end

end FileSystem

end Nachos
