import Nachos.Filesys.FileBytes
import Nachos.Filesys.FileSystemRuns
import Nachos.Lib.Simulation

/-!
# Filesys — the file system is a store of named files

`FileSystem` with what its operations answer, and the start of a system on a disk that has been
formatted before.  What it is for is a `Lib.Store`: byte arrays of a fixed length, each under the
first nine characters of its name.  There is room for ten of them, and for what they take of 1019
sectors; so a `Create` succeeds or fails as the store says it does.

* `Refines.step`: every operation that returns is one of the store, unless it is a request at a negative
  position.
* `fileSystem_refines_store`: and so is every run of such operations from a formatted disk.
-/

namespace Nachos
open Lib
open OpenFile (bytesOf)

namespace Disk

/-- The bytes of the file whose header is in a sector. -/
def content (d : Disk) (s : Sector) : List Byte := bytesOf d (d.header s) (d.header s).sectors

/-- The name of an entry, as far as it is compared. -/
def keyAt (d : Disk) (i : Directory.Index) : List Byte := (d.directory.entries.table i).key

def entriesInUse (d : Disk) : Finset Directory.Index :=
  Finset.univ.filter fun i => d.directory.inUse i = true

section
variable {d d' : Disk} {s : Sector} {i j : Directory.Index} {v : Store (List Byte) Byte}
  {name : List Byte}

theorem mem_entriesInUse : i ∈ d.entriesInUse ↔ d.directory.inUse i = true := by
  rw [entriesInUse, Finset.mem_filter, and_iff_right (Finset.mem_univ i)]

theorem content_of_header (h : d' s = d s) :
    d'.content s = bytesOf d' (d.header s) (d.header s).sectors := by
  rw [content, header_congr h]

theorem content_congr (h : ∀ x ∈ d.sectorsOf s, d' x = d x) : d'.content s = d.content s := by
  unfold content bytesOf
  rw [header_congr (h s List.mem_cons_self),
    byteAt_congr fun x hx => h x (List.mem_cons_of_mem s hx)]

/-- A file has a sector for its header, and as many as its length needs. -/
theorem length_sectorsOf (h : d.HeaderOk s) (hlen : 0 ≤ (d.header s).fileLength) :
    ((d.sectorsOf s).length : Int) = 1 + ((d.header s).fileLength + (SectorSize - 1)) / SectorSize := by
  have h₁ := h.length
  have h₂ := h.roundUp
  unfold sectorsOf
  unfold FileHeader.fileLength SectorSize at *
  rw [List.length_cons]
  omega

/-- The header sectors of two entries are different. -/
theorem Consistent.headerSector_inj (h : d.Consistent) (hi : d.directory.inUse i = true)
    (hj : d.directory.inUse j = true)
    (hs : d.directory.headerSector i = d.directory.headerSector j) : i = j := by
  by_contra hne
  refine h.apart (fun e => hne (Holder.entry.inj e)) (holdings_entry hi) (holdings_entry hj)
    List.mem_cons_self ?_
  rw [hs]
  exact List.mem_cons_self

/-- The files keep what they hold where only the data of the two files of the system and sectors that
nobody has are written. -/
theorem Consistent.files (h : d.Consistent)
    (hout : ∀ s, d.freeMap.test s = true → s ∉ (d.header FreeMapSector).sectors →
      s ∉ (d.header DirectorySector).sectors → d' s = d s) (hi : d.directory.inUse i = true) :
    d'.header (d.directory.headerSector i) = d.header (d.directory.headerSector i) ∧
      d'.content (d.directory.headerSector i) = d.content (d.directory.headerSector i) := by
  obtain ⟨-, -, hent⟩ := h.headers hout
  have hmine := holdings_entry hi
  refine ⟨header_congr (hent i hi), content_congr fun s hs => ?_⟩
  refine hout s ((h.owned.taken_iff s).mpr ⟨_, _, hmine, hs⟩) (fun hm => ?_) fun hm => ?_
  · exact h.apart Holder.noConfusion hmine (show d.holdings .freeMap = _ from rfl) hs
      (List.mem_cons_of_mem _ hm)
  · exact h.apart Holder.noConfusion hmine (show d.holdings .directory = _ from rfl) hs
      (List.mem_cons_of_mem _ hm)

/-- **Every sector is free, or one of the five of the system, or one of a file.** -/
theorem Consistent.numClear (h : d.Consistent) :
    d.freeMap.numClear + 5 + ∑ i ∈ d.entriesInUse, (d.sectorsOf (d.directory.headerSector i)).length =
      NumSectors := by
  have hcount := h.owned.card_taken
    (S := insert .freeMap (insert .directory (Finset.univ.image Holder.entry)))
    (T := Finset.univ.filter fun s => d.freeMap.test s = true)
    (fun o _ => by cases o <;> simp) (fun s => by simp)
  have hmap := length_sectorsOf h.freeMap (by rw [h.freeMapLength]; exact Int.natCast_nonneg _)
  have hdir := length_sectorsOf h.directory (by rw [h.directoryLength]; exact Int.natCast_nonneg _)
  rw [h.freeMapLength] at hmap
  rw [h.directoryLength] at hdir
  have hmap' : (d.sectorsOf FreeMapSector).length = 2 := by
    have : (1 + ((FreeMapFileSize : Int) + (SectorSize - 1)) / SectorSize) = 2 := by decide
    omega
  have hdir' : (d.sectorsOf DirectorySector).length = 3 := by
    have : (1 + ((DirectoryFileSize : Int) + (SectorSize - 1)) / SectorSize) = 3 := by decide
    omega
  have hfiles : ∑ o ∈ Finset.univ.image Holder.entry, ((d.holdings o).getD []).length =
      ∑ i ∈ d.entriesInUse, (d.sectorsOf (d.directory.headerSector i)).length := by
    rw [Finset.sum_image fun _ _ _ _ e => Holder.entry.inj e, entriesInUse, Finset.sum_filter]
    refine Finset.sum_congr rfl fun i _ => ?_
    simp only [holdings]
    split <;> rfl
  rw [Finset.sum_insert (by simp), Finset.sum_insert (by simp), hfiles] at hcount
  simp only [holdings, Option.getD_some, hmap', hdir'] at hcount
  have hall := Finset.card_filter_add_card_filter_not (s := (Finset.univ : Finset Sector))
    (fun s => d.freeMap.test s = true)
  have hclears : (Finset.univ.filter fun s => ¬ d.freeMap.test s = true) = d.freeMap.clears := by
    ext s
    simp [BitMap.clears]
  rw [Finset.card_univ, Fintype.card_fin, hcount, hclears, ← BitMap.numClear_eq] at hall
  omega

end

end Disk

namespace FileSystem

/-! ### Calls and what they answer -/

/-- `FileSystem::FileSystem(FALSE)`: the files of the free map and the directory are opened. -/
def start (d : Disk) : Except Stop FileSystem := do
  let freeMapFile ← d.fetchHeader FreeMapSector.val
  let directoryFile ← d.fetchHeader DirectorySector.val
  .ok ⟨d, freeMapFile, directoryFile, []⟩

inductive Call where
  | op (a : Action)
  | length (k : Nat)
  | restart

/-- It is no request at a negative position. -/
def Call.NonNegative : Call → Prop
  | op a => a.NonNegative
  | length _ | restart => True

/-- `OpenFile::Length`, of the open file `k`. -/
def length (fs : FileSystem) (k : Nat) : Except Stop Int :=
  (fs.openFiles[k]?).elim (.error .disabled) fun g => .ok g.hdr.fileLength

/-- An operation with what it returns: of `Open`, whether it has given an open file. -/
def answer (fs : FileSystem) (heap : Heap) : Action → Except Stop (Store.Answer Byte × FileSystem)
  | .create name initialSize => (fs.create name initialSize.val heap).map (Prod.map .done id)
  | .openFile name => (fs.openFile name heap).map fun fs' =>
      (.done (decide (fs.openFiles.length < fs'.openFiles.length)), fs')
  | .close k => .ok (.done true, { fs with openFiles := fs.openFiles.eraseIdx k })
  | .remove name => (fs.remove name heap).map (Prod.map .done id)
  | .readAt k numBytes position => (fs.openFiles[k]?).elim (.error .disabled) fun g =>
      (OpenFile.readAt fs.disk g.hdr (heap 0) numBytes.toInt position.toInt).map fun r =>
        (.bytes r.1 r.2, fs)
  | .writeAt k fromBuf numBytes position => (fs.openFiles[k]?).elim (.error .disabled) fun g =>
      (OpenFile.writeAt fs.disk g.hdr (heap 0) fromBuf numBytes.toInt position.toInt).map fun r =>
        (.count r.1, { fs with disk := r.2 })

/-- A call, with the heap it finds. -/
def call (fs : FileSystem) : Call × Heap → Except Stop (Store.Answer Byte × FileSystem)
  | (.op a, heap) => fs.answer heap a
  | (.length k, _) => (fs.length k).map fun n => (.count n, fs)
  | (.restart, _) => (start fs.disk).map fun fs' => (.done true, fs')

/-- What a call is to the store. -/
def Call.abs : Call × Heap → Store.Call (List Byte) Byte
  | (.op (.create name initialSize), _) => .create (nameKey name) initialSize.val.toInt.toNat
  | (.op (.openFile name), _) => .openFile (nameKey name)
  | (.op (.close k), _) => .close k
  | (.op (.remove name), _) => .remove (nameKey name)
  | (.op (.readAt k numBytes position), _) => .readAt k numBytes.toInt.toNat position.toInt.toNat
  | (.op (.writeAt k fromBuf numBytes position), _) =>
      .writeAt k fromBuf numBytes.toInt.toNat position.toInt.toNat
  | (.length k, _) => .length k
  | (.restart, _) => .restart

/-- Ten names, and the sectors that formatting leaves: a file takes one for its header, and those of
its data. -/
def volume : Capacity where
  slots := NumDirEntries
  blocks := NumSectors - 5
  cost n := 1 + (n + (SectorSize - 1)) / SectorSize

theorem volume_blocks : volume.blocks + 5 = NumSectors := rfl
theorem volume_cost (n : Nat) : volume.cost n = 1 + (n + (SectorSize - 1)) / SectorSize := rfl

/-- The files of a disk are the arrays of a store. -/
structure Holds (d : Disk) (v : Store (List Byte) Byte) : Prop where
  one : ∀ i j, d.directory.inUse i = true → d.directory.inUse j = true → d.keyAt i = d.keyAt j → i = j
  sized : ∀ i, d.directory.inUse i = true → 0 ≤ (d.header (d.directory.headerSector i)).fileLength
  names : ∀ k, k ∈ v.names ↔ ∃ i, d.directory.inUse i = true ∧ d.keyAt i = k
  content : ∀ i, d.directory.inUse i = true →
    v.content (d.keyAt i) = d.content (d.directory.headerSector i)

/-- An open file is that of the name `k`. -/
def HandleOf (d : Disk) (g : Handle) (k : List Byte) : Prop := ∃ i, d.directory.inUse i = true ∧
  d.keyAt i = k ∧ g.sector = (d.directory.headerSector i).val ∧
  g.hdr = d.header (d.directory.headerSector i)

structure Refines (fs : FileSystem) (v : Store (List Byte) Byte) : Prop where
  inv : Inv fs
  holds : Holds fs.disk v
  opened : List.Forall₂ (HandleOf fs.disk) fs.openFiles v.opened

section
variable {d d' : Disk} {fs fs' : FileSystem} {v : Store (List Byte) Byte} {name : List Byte}
  {i : Directory.Index} {f : Sector} {l : List Sector} {heap : Heap} {r : Store.Answer Byte}

/-- The next state is that of `step`. -/
theorem answer_step (fs : FileSystem) (heap : Heap) (a : Action) :
    (fs.answer heap a).map Prod.snd = fs.step (a, heap) := by
  unfold step
  cases a with
  | create name initialSize =>
      simp only [answer, stepWith]
      cases fs.create name initialSize.val heap <;> rfl
  | openFile name =>
      simp only [answer, stepWith]
      cases fs.openFile name heap <;> rfl
  | close k => rfl
  | remove name =>
      simp only [answer, stepWith]
      cases fs.remove name heap <;> rfl
  | readAt k numBytes position =>
      simp only [answer, stepWith]
      cases fs.openFiles[k]? with
      | none => rfl
      | some g =>
          simp only [Option.elim_some]
          cases OpenFile.readAt fs.disk g.hdr (heap 0) numBytes.toInt position.toInt <;> rfl
  | writeAt k fromBuf numBytes position =>
      simp only [answer, stepWith]
      cases fs.openFiles[k]? with
      | none => rfl
      | some g =>
          simp only [Option.elim_some]
          cases OpenFile.writeAt fs.disk g.hdr (heap 0) fromBuf numBytes.toInt position.toInt <;> rfl

/-! ### The room there is -/

theorem Holds.names_eq (h : Holds d v) : v.names = d.entriesInUse.image d.keyAt := by
  ext k
  rw [h.names, Finset.mem_image]
  simp only [Disk.mem_entriesInUse]

theorem Holds.injOn (h : Holds d v) : Set.InjOn d.keyAt d.entriesInUse := by
  intro i hi j hj e
  exact h.one i j (Disk.mem_entriesInUse.mp hi) (Disk.mem_entriesInUse.mp hj) e

theorem Holds.used (hc : d.Consistent) (h : Holds d v) :
    d.freeMap.numClear + v.used volume = volume.blocks := by
  have hsum : v.used volume =
      ∑ i ∈ d.entriesInUse, (d.sectorsOf (d.directory.headerSector i)).length := by
    rw [Store.used, h.names_eq, Finset.sum_image h.injOn]
    refine Finset.sum_congr rfl fun i hi => ?_
    have hi' := Disk.mem_entriesInUse.mp hi
    have hlen := h.sized i hi'
    have hsec := Disk.length_sectorsOf (hc.entry i hi').2 hlen
    rw [h.content i hi', Disk.content, OpenFile.length_bytesOf, volume_cost]
    unfold SectorSize at *
    omega
  have hall := hc.numClear
  rw [hsum]
  have := volume_blocks
  omega

theorem Holds.card_lt_iff (h : Holds d v) :
    v.names.card < volume.slots ↔ ∃ i, d.directory.inUse i = false := by
  have hcard : volume.slots = Fintype.card Directory.Index := (Fintype.card_fin _).symm
  rw [h.names_eq, Finset.card_image_of_injOn h.injOn, hcard, ← not_iff_not, not_lt, not_exists,
    ← Finset.card_univ]
  constructor
  · intro hle i
    have hi := Finset.eq_of_subset_of_card_le (Finset.subset_univ d.entriesInUse) hle
    rw [Disk.mem_entriesInUse.mp (by rw [hi]; exact Finset.mem_univ i)]
    exact Bool.noConfusion
  · intro hall
    refine Finset.card_le_card fun i _ => Disk.mem_entriesInUse.mpr ?_
    simpa using hall i

/-- **`Create` fails when there is no room in the store.** -/
theorem Holds.refused_iff (hc : d.Consistent) (h : Holds d v) (name : List Byte) (size : FileSize) :
    Refused d name size.val ↔ ¬ v.Fits volume (nameKey name) size.val.toInt.toNat := by
  have hused := h.used hc
  obtain ⟨size, h₀, h₁⟩ := size
  have hname : (∃ i, d.directory.entries.Matches name i) ↔ nameKey name ∈ v.names := by
    rw [h.names]
    rfl
  have hslot : (∀ i, d.directory.inUse i = true) ↔ ¬ v.names.card < volume.slots := by
    rw [h.card_lt_iff]
    simp
  have hcost : (volume.cost size.toInt.toNat : Int) =
      1 + (size.toInt + (SectorSize - 1)) / SectorSize := by
    rw [volume_cost]
    unfold SectorSize
    omega
  have hroom : (∀ s, d.freeMap.test s = true) ∨
      (d.freeMap.numClear : Int) - 1 < (size.toInt + (SectorSize - 1)) / SectorSize ↔
        ¬ v.used volume + volume.cost size.toInt.toNat ≤ volume.blocks := by
    constructor
    · rintro (hall | hlt)
      · have hzero := FileHeader.numClear_eq_zero hall
        have hpos : 0 < volume.cost size.toInt.toNat := Nat.add_pos_left Nat.one_pos _
        omega
      · omega
    · intro hlt
      exact .inr (by omega)
  unfold Refused Store.Fits
  rw [hname, hslot, not_and_or, not_and_or, not_not, ← hroom]
  exact or_congr_right or_left_comm

/-! ### The operations on the disk -/

/-- The names that are open do not matter. -/
theorem Holds.opened (h : Holds d v) (opened : List (List Byte)) :
    Holds d { v with opened := opened } := ⟨h.one, h.sized, h.names, h.content⟩

/-- **`Create` puts a new array into the store.** -/
theorem Holds.create (hc : d.Consistent) (h : Holds d v) (hcr : Created d d' name i f l)
    (hnone : ∀ j, ¬ d.directory.entries.Matches name j) (hlen : 0 ≤ (d'.header f).fileLength) :
    Holds d' (v.put (nameKey name) (d'.content f)) ∧
      ∀ g k, HandleOf d g k → HandleOf d' g k := by
  have hself : d'.directory.headerSector i = f := by
    rw [hcr.directory, Disk.headerSector_setEntry_self]
  have hkey : d'.keyAt i = nameKey name := by
    rw [Disk.keyAt, hcr.directory, Directory.entries_setEntry, DirTable.table_set_self,
      DirectoryEntry.key_assign]
  have huse : d'.directory.inUse i = true := by
    rw [hcr.directory, Directory.inUse_setEntry, decide_eq_true rfl, Bool.true_or]
  -- the other entries
  have hother : ∀ j, j ≠ i → d'.directory.inUse j = d.directory.inUse j ∧ d'.keyAt j = d.keyAt j ∧
      d'.directory.headerSector j = d.directory.headerSector j := by
    intro j hj
    refine ⟨?_, ?_, ?_⟩
    · rw [hcr.directory, Directory.inUse_setEntry, decide_eq_false hj, Bool.false_or]
    · rw [Disk.keyAt, hcr.directory, Directory.entries_setEntry, DirTable.table_set_ne _ hj]
      rfl
    · rw [hcr.directory, Disk.headerSector_setEntry_of_ne _ hj]
  have hold : ∀ j, d.directory.inUse j = true → j ≠ i := by
    rintro j hj rfl
    rw [hcr.unused] at hj
    cases hj
  have hnew : ∀ j, d.directory.inUse j = true → d.keyAt j ≠ nameKey name :=
    fun j hj e => hnone j ⟨hj, e⟩
  refine ⟨⟨fun j k hj hk e => ?_, fun j hj => ?_, fun k => ?_, fun j hj => ?_⟩, ?_⟩
  · by_cases hji : j = i <;> by_cases hki : k = i
    · rw [hji, hki]
    · rw [hji, hkey, (hother k hki).2.1] at e
      rw [(hother k hki).1] at hk
      exact absurd e.symm (hnew k hk)
    · rw [hki, hkey, (hother j hji).2.1] at e
      rw [(hother j hji).1] at hj
      exact absurd e (hnew j hj)
    · rw [(hother j hji).1] at hj
      rw [(hother k hki).1] at hk
      rw [(hother j hji).2.1, (hother k hki).2.1] at e
      exact h.one j k hj hk e
  · by_cases hji : j = i
    · rw [hji, hself]
      exact hlen
    · rw [(hother j hji).1] at hj
      rw [(hother j hji).2.2, (hc.files hcr.out hj).1]
      exact h.sized j hj
  · rw [Store.put, Finset.mem_insert, h.names]
    constructor
    · rintro (rfl | ⟨j, hj, rfl⟩)
      · exact ⟨i, huse, hkey⟩
      · obtain ⟨h₁, h₂, -⟩ := hother j (hold j hj)
        exact ⟨j, h₁.trans hj, h₂⟩
    · rintro ⟨j, hj, rfl⟩
      by_cases hji : j = i
      · exact .inl (by rw [hji, hkey])
      · obtain ⟨h₁, h₂, -⟩ := hother j hji
        exact .inr ⟨j, h₁.symm.trans hj, h₂.symm⟩
  · unfold Store.put
    dsimp only
    by_cases hji : j = i
    · rw [hji, hkey, Function.update_self, hself]
    · obtain ⟨h₁, h₂, h₃⟩ := hother j hji
      rw [h₁] at hj
      rw [h₂, h₃, Function.update_of_ne (hnew j hj), h.content j hj, (hc.files hcr.out hj).2]
  · rintro g k ⟨j, hj, hk, hsec, hhdr⟩
    obtain ⟨h₁, h₂, h₃⟩ := hother j (hold j hj)
    refine ⟨j, h₁.trans hj, h₂.trans hk, ?_, ?_⟩
    · rw [h₃]
      exact hsec
    · rw [h₃, (hc.files hcr.out hj).1]
      exact hhdr

/-- **`Remove` drops an array.** -/
theorem Holds.remove (hc : d.Consistent) (h : Holds d v) (hi : d.directory.inUse i = true)
    (hrem : Removed d d' i) : Holds d' (v.drop (d.keyAt i)) ∧
      ∀ g k, HandleOf d g k → k ≠ d.keyAt i → HandleOf d' g k := by
  have huse : ∀ j, d'.directory.inUse j = true ↔ j ≠ i ∧ d.directory.inUse j = true := by
    intro j
    rw [hrem.directory, Directory.inUse_clearEntry, Bool.and_eq_true, Bool.not_eq_true',
      decide_eq_false_iff_not]
  have hkey : ∀ j, j ≠ i → d'.keyAt j = d.keyAt j := by
    intro j hj
    rw [Disk.keyAt, hrem.directory, Directory.entries_clearEntry, DirTable.unuse,
      DirTable.table_set_ne _ hj]
    rfl
  have hsec : ∀ j, d'.directory.headerSector j = d.directory.headerSector j := by
    intro j
    rw [hrem.directory, Disk.headerSector_clearEntry]
  refine ⟨⟨fun j k hj hk e => ?_, fun j hj => ?_, fun k => ?_, fun j hj => ?_⟩, ?_⟩
  · obtain ⟨hji, hj⟩ := (huse j).mp hj
    obtain ⟨hki, hk⟩ := (huse k).mp hk
    rw [hkey j hji, hkey k hki] at e
    exact h.one j k hj hk e
  · obtain ⟨-, hj⟩ := (huse j).mp hj
    rw [hsec, (hc.files hrem.out hj).1]
    exact h.sized j hj
  · rw [Store.drop, Finset.mem_erase, h.names]
    constructor
    · rintro ⟨hne, j, hj, rfl⟩
      have hji : j ≠ i := fun e => hne (by rw [e])
      exact ⟨j, (huse j).mpr ⟨hji, hj⟩, hkey j hji⟩
    · rintro ⟨j, hj, rfl⟩
      obtain ⟨hji, hj⟩ := (huse j).mp hj
      rw [hkey j hji]
      exact ⟨fun e => hji (h.one j i hj hi e), j, hj, rfl⟩
  · obtain ⟨hji, hj⟩ := (huse j).mp hj
    rw [hkey j hji, hsec, (hc.files hrem.out hj).2]
    exact h.content j hj
  · rintro g k ⟨j, hj, rfl, hg, hhdr⟩ hne
    have hji : j ≠ i := fun e => hne (by rw [e])
    refine ⟨j, (huse j).mpr ⟨hji, hj⟩, hkey j hji, ?_, ?_⟩
    · rw [hsec]
      exact hg
    · rw [hsec, (hc.files hrem.out hj).1]
      exact hhdr

/-- **`WriteAt` writes into an array.** -/
theorem Holds.write (hc : d.Consistent) (h : Holds d v) (hi : d.directory.inUse i = true)
    (hout : ∀ s, s ∉ (d.header (d.directory.headerSector i)).sectors → d' s = d s) {pos : Nat}
    {bs : List Byte} (hbytes : d'.content (d.directory.headerSector i) =
      overlay (d.content (d.directory.headerSector i)) pos bs) :
    Holds d' (v.write (d.keyAt i) pos bs) ∧ ∀ g k, HandleOf d g k → HandleOf d' g k := by
  obtain ⟨-, hdir, -, -, hent⟩ := hc.writeData hi hout
  have hkey : d'.keyAt = d.keyAt := by
    funext j
    unfold Disk.keyAt
    rw [hdir]
  refine ⟨⟨?_, fun j hj => ?_, fun k => ?_, fun j hj => ?_⟩, ?_⟩
  · rw [hdir, hkey]
    exact h.one
  · rw [hdir] at hj ⊢
    rw [Disk.header_congr (hent j hj)]
    exact h.sized j hj
  · rw [hdir, hkey]
    exact h.names k
  · rw [hdir] at hj ⊢
    rw [hkey, Store.write]
    dsimp only
    by_cases hji : j = i
    · rw [hji, Function.update_self, hbytes, h.content i hi]
    · rw [Function.update_of_ne fun e => hji (h.one j i hj hi e), h.content j hj]
      refine (Disk.content_congr fun s hs => hout s fun hm => ?_).symm
      exact hc.apart (fun e => hji (Holder.entry.inj e)) (Disk.holdings_entry hj)
        (Disk.holdings_entry hi) hs (List.mem_cons_of_mem _ hm)
  · rintro g k ⟨j, hj, hk, hsec, hhdr⟩
    refine ⟨j, ?_⟩
    rw [hdir, hkey, Disk.header_congr (hent j hj)]
    exact ⟨hj, hk, hsec, hhdr⟩

/-! ### Every call -/

theorem answer_inv (h : Inv fs) {a : Action} (hs : fs.answer heap a = .ok (r, fs'))
    (ha : a.NonNegative) : Inv fs' := by
  have hstep := answer_step fs heap a
  rw [hs] at hstep
  exact step_inv h ha hstep.symm

theorem Holds.matches_iff (h : Holds d v) (name : List Byte) :
    (∃ i, d.directory.entries.Matches name i) ↔ nameKey name ∈ v.names := by
  rw [h.names]
  rfl

/-- The open file of an index, and its array. -/
theorem Refines.handle (h : Refines fs v) {k : Nat} {g : Handle} (hg : fs.openFiles[k]? = some g) :
    ∃ i, v.opened[k]? = some (fs.disk.keyAt i) ∧ fs.disk.directory.inUse i = true ∧
      g.hdr = fs.disk.header (fs.disk.directory.headerSector i) := by
  obtain ⟨c, hc, i, hi, hk, -, hhdr⟩ := forall₂_getElem? h.opened hg
  subst hk
  exact ⟨i, hc, hi, hhdr⟩

theorem Refines.create (h : Refines fs v) (initialSize : FileSize)
    (hs : fs.answer heap (.create name initialSize) = .ok (r, fs')) :
    ∃ v', Store.Step volume v (.create (nameKey name) initialSize.val.toInt.toNat) r v' ∧
      Refines fs' v' := by
  have hinv := answer_inv h.inv hs trivial
  have hc := h.inv.consistent
  rw [answer, h.inv.eq_mounted] at hs
  rcases create_sized hc fs.openFiles name initialSize heap with
    ⟨href, he⟩ | ⟨href, d', i, f, l, hcr, hsize, he⟩ <;> rw [he] at hs <;> cases hs
  · refine ⟨v, .refused ((h.holds.refused_iff hc name initialSize).mp href), hinv, h.holds, h.opened⟩
  · have hlen : (d'.header f).fileLength = initialSize.val.toInt := congrArg _ hsize
    obtain ⟨hholds, hhandle⟩ := h.holds.create hc hcr (fun j hj => href (.inl ⟨j, hj⟩))
      (by rw [hlen]; exact initialSize.property.1)
    refine ⟨_, .create (not_not.mp fun hn => href ((h.holds.refused_iff hc name initialSize).mpr hn)) ?_,
      hinv, hholds, h.opened.imp hhandle⟩
    rw [Disk.content, OpenFile.length_bytesOf, hlen]

theorem Refines.openFile (h : Refines fs v) (hs : fs.answer heap (.openFile name) = .ok (r, fs')) :
    ∃ v', Store.Step volume v (.openFile (nameKey name)) r v' ∧ Refines fs' v' := by
  have hinv := answer_inv h.inv hs trivial
  rw [answer] at hs
  rcases openFile_spec h.inv name heap with ⟨hnone, he⟩ | ⟨i, hi, he⟩ <;> rw [he] at hs <;> cases hs
  · rw [decide_eq_false (Nat.lt_irrefl _)]
    have hn : nameKey name ∉ v.names := fun hm =>
      absurd ((h.holds.matches_iff name).mpr hm) (not_exists.mpr hnone)
    exact ⟨v, .notFound hn, hinv, h.holds, h.opened⟩
  · rw [decide_eq_true (by rw [List.length_append, List.length_singleton]; omega)]
    refine ⟨_, .openFile ((h.holds.matches_iff name).mp ⟨i, hi⟩), hinv, h.holds.opened _, ?_⟩
    exact List.rel_append h.opened (.cons ⟨i, hi.1, hi.2, rfl, rfl⟩ .nil)

theorem Refines.remove (h : Refines fs v) (hs : fs.answer heap (.remove name) = .ok (r, fs')) :
    ∃ v', Store.Step volume v (.remove (nameKey name)) r v' ∧ Refines fs' v' := by
  have hinv := answer_inv h.inv hs trivial
  have hc := h.inv.consistent
  rw [answer, h.inv.eq_mounted] at hs
  rcases remove_spec hc fs.openFiles name heap with ⟨hnone, he⟩ | ⟨d', i, hi, hrem, he⟩ <;>
    rw [he] at hs <;> cases hs
  · have hn : nameKey name ∉ v.names := fun hm =>
      absurd ((h.holds.matches_iff name).mpr hm) (not_exists.mpr hnone)
    exact ⟨v, .notRemoved hn, hinv, h.holds, h.opened⟩
  · have hkey : fs.disk.keyAt i = nameKey name := hi.2
    obtain ⟨hholds, hhandle⟩ := h.holds.remove hc hi.1 hrem
    rw [hkey] at hholds hhandle
    refine ⟨_, .remove ((h.holds.matches_iff name).mp ⟨i, hi⟩), hinv, hholds, ?_⟩
    -- the files that stay open are those of the other names
    refine forall₂_filter h.opened (fun g k hg => ?_) fun g k hg hne =>
      hhandle g k hg (of_decide_eq_true hne)
    obtain ⟨j, hj, rfl, hsec, -⟩ := hg
    refine decide_eq_decide.mpr (not_congr ?_)
    rw [hsec, ← hkey]
    constructor
    · intro e
      rw [hc.headerSector_inj hj hi.1 (Fin.ext (by exact_mod_cast e))]
    · intro e
      rw [h.holds.one j i hj hi.1 e]

theorem Refines.readAt (h : Refines fs v) {k : Nat} {numBytes position : Word}
    (hp : 0 ≤ position.toInt) (hs : fs.answer heap (.readAt k numBytes position) = .ok (r, fs')) :
    ∃ v', Store.Step volume v (.readAt k numBytes.toInt.toNat position.toInt.toNat) r v' ∧
      Refines fs' v' := by
  have hinv := answer_inv h.inv hs hp
  rw [answer] at hs
  cases hk : fs.openFiles[k]? with
  | none => rw [hk] at hs; cases hs
  | some g =>
      rw [hk, Option.elim_some] at hs
      obtain ⟨i, hv, hi, hhdr⟩ := h.handle hk
      obtain ⟨⟨n, bytes⟩, hr, he⟩ := map_ok hs
      cases he
      rw [hhdr] at hr
      have hread := OpenFile.readAt_bytesOf (h.inv.consistent.entry i hi).2 (h.holds.sized i hi) hp hr
      cases hread
      have hcont := h.holds.content i hi
      rw [Disk.content] at hcont
      rw [← hcont]
      exact ⟨v, .readAt hv, hinv, h.holds, h.opened⟩

theorem Refines.writeAt (h : Refines fs v) {k : Nat} {fromBuf : Nat → Byte}
    {numBytes position : Word} (hp : 0 ≤ position.toInt)
    (hs : fs.answer heap (.writeAt k fromBuf numBytes position) = .ok (r, fs')) :
    ∃ v', Store.Step volume v (.writeAt k fromBuf numBytes.toInt.toNat position.toInt.toNat) r v' ∧
      Refines fs' v' := by
  have hinv := answer_inv h.inv hs hp
  have hc := h.inv.consistent
  rw [answer] at hs
  cases hk : fs.openFiles[k]? with
  | none => rw [hk] at hs; cases hs
  | some g =>
      rw [hk, Option.elim_some] at hs
      obtain ⟨i, hv, hi, hhdr⟩ := h.handle hk
      obtain ⟨⟨n, d'⟩, hw, he⟩ := map_ok hs
      cases he
      rw [hhdr] at hw
      have hok := (hc.entry i hi).2
      obtain ⟨hn, hbytes⟩ := OpenFile.writeAt_bytesOf hok (h.holds.sized i hi) hp hw
      have hout := OpenFile.writeAt_frame hok hp hw
      obtain ⟨-, -, -, -, hent⟩ := hc.writeData hi hout
      have hcont := h.holds.content i hi
      rw [Disk.content] at hcont
      obtain ⟨hholds, hhandle⟩ := h.holds.write hc hi hout
        ((Disk.content_of_header (hent i hi)).trans hbytes)
      rw [← hcont] at hn hholds
      refine ⟨_, ?_, hinv, hholds, h.opened.imp hhandle⟩
      dsimp only at hn
      rw [hn]
      exact .writeAt hv

/-- A system that is started on the disk. -/
theorem Refines.restart (h : Refines fs v) : ∃ fs', start fs.disk = .ok fs' ∧
    Refines fs' { v with opened := [] } := by
  refine ⟨⟨fs.disk, fs.disk.header FreeMapSector, fs.disk.header DirectorySector, []⟩, ?_,
    ⟨h.inv.consistent, rfl, rfl, fun g hg => absurd hg List.not_mem_nil⟩, h.holds.opened _, .nil⟩
  rw [start]
  simp only [bind, Except.bind, Disk.fetchHeader_eq]

/-- **Every call is one of the store**, unless it is a request at a negative position. -/
theorem Refines.step (h : Refines fs v) {c : Call × Heap} (hc : c.1.NonNegative)
    (hs : call fs c = .ok (r, fs')) : ∃ v', Store.Step volume v (Call.abs c) r v' ∧ Refines fs' v' := by
  obtain ⟨c, heap⟩ := c
  cases c with
  | op a =>
      have hs' : fs.answer heap a = .ok (r, fs') := hs
      cases a with
      | create name initialSize => exact h.create initialSize hs'
      | openFile name => exact h.openFile hs'
      | remove name => exact h.remove hs'
      | readAt k numBytes position => exact h.readAt hc hs'
      | writeAt k fromBuf numBytes position => exact h.writeAt hc hs'
      | close k =>
          have hinv := answer_inv h.inv hs' trivial
          cases hs'
          exact ⟨_, .close, hinv, h.holds.opened _, forall₂_eraseIdx h.opened k⟩
  | length k =>
      obtain ⟨n, hn, he⟩ := map_ok hs
      cases he
      unfold length at hn
      cases hk : fs.openFiles[k]? with
      | none => rw [hk] at hn; cases hn
      | some g =>
          rw [hk] at hn
          cases hn
          obtain ⟨i, hv, hi, hhdr⟩ := h.handle hk
          have hlen : g.hdr.fileLength = (v.content (fs.disk.keyAt i)).length := by
            have := h.holds.sized i hi
            rw [h.holds.content i hi, Disk.content, OpenFile.length_bytesOf, hhdr]
            omega
          rw [hlen]
          exact ⟨v, .length hv, h⟩
  | restart =>
      obtain ⟨fs₁, he, href⟩ := h.restart
      rw [call, he] at hs
      cases hs
      exact ⟨_, .restart, href⟩

/-! ### What an operation does, seen from the store -/

theorem Refines.length_opened (h : Refines fs v) : fs.openFiles.length = v.opened.length :=
  h.opened.length_eq

theorem Refines.create_done (h : Refines fs v) (name : List Byte) (size : FileSize) (heap : Heap)
    (hfit : v.Fits volume (nameKey name) size.val.toInt.toNat) :
    ∃ fs' bs, fs.create name size.val heap = .ok (true, fs') ∧ bs.length = size.val.toInt.toNat ∧
      Refines fs' (v.put (nameKey name) bs) := by
  obtain ⟨r, hr, -⟩ := create_inv h.inv name heap size
  have hs : fs.answer heap (.create name size) = .ok (.done r.1, r.2) := by
    rw [answer, hr]
    rfl
  obtain ⟨v', hst, href⟩ := h.create size hs
  obtain ⟨ok, fs'⟩ := r
  cases ok with
  | true =>
      cases hst with
      | create _ hlen => exact ⟨fs', _, hr, hlen, href⟩
  | false =>
      cases hst with
      | refused hn => exact absurd hfit hn

theorem Refines.create_refused (h : Refines fs v) (name : List Byte) (size : FileSize) (heap : Heap)
    (hfit : ¬ v.Fits volume (nameKey name) size.val.toInt.toNat) :
    fs.create name size.val heap = .ok (false, fs) := by
  rw [h.inv.eq_mounted]
  rcases create_sized h.inv.consistent fs.openFiles name size heap with ⟨-, he⟩ | ⟨href, -⟩
  · exact he
  · exact absurd ((h.holds.refused_iff h.inv.consistent name size).mpr hfit) href

theorem Refines.openFile_done (h : Refines fs v) (heap : Heap) (hk : nameKey name ∈ v.names) :
    ∃ g, fs.openFile name heap = .ok { fs with openFiles := fs.openFiles ++ [g] } ∧
      Refines { fs with openFiles := fs.openFiles ++ [g] }
        { v with opened := v.opened ++ [nameKey name] } := by
  rcases openFile_spec h.inv name heap with ⟨hnone, -⟩ | ⟨i, hi, he⟩
  · exact absurd ((h.holds.matches_iff name).mpr hk) (not_exists.mpr hnone)
  · obtain ⟨g, he⟩ : ∃ g, fs.openFile name heap =
        .ok { fs with openFiles := fs.openFiles ++ [g] } := ⟨_, he⟩
    have hs : fs.answer heap (.openFile name) =
        .ok (.done true, { fs with openFiles := fs.openFiles ++ [g] }) := by
      rw [answer, he, Except.map,
        decide_eq_true (by rw [List.length_append, List.length_singleton]; omega)]
    obtain ⟨v', hst, href⟩ := h.openFile hs
    cases hst
    exact ⟨g, he, href⟩

theorem Refines.openFile_none (h : Refines fs v) (heap : Heap) (hk : nameKey name ∉ v.names) :
    fs.openFile name heap = .ok fs := by
  rcases openFile_spec h.inv name heap with ⟨-, he⟩ | ⟨i, hi, -⟩
  · exact he
  · exact absurd ((h.holds.matches_iff name).mp ⟨i, hi⟩) hk

theorem Refines.remove_done (h : Refines fs v) (heap : Heap) (hk : nameKey name ∈ v.names) :
    ∃ fs', fs.remove name heap = .ok (true, fs') ∧ Refines fs' (v.drop (nameKey name)) := by
  obtain ⟨r, hr, -⟩ := remove_inv h.inv name heap
  have hs : fs.answer heap (.remove name) = .ok (.done r.1, r.2) := by
    rw [answer, hr]
    rfl
  obtain ⟨v', hst, href⟩ := h.remove hs
  obtain ⟨ok, fs'⟩ := r
  cases ok with
  | true =>
      cases hst
      exact ⟨fs', hr, href⟩
  | false =>
      cases hst with
      | notRemoved hn => exact absurd hk hn

theorem Refines.remove_none (h : Refines fs v) (heap : Heap) (hk : nameKey name ∉ v.names) :
    fs.remove name heap = .ok (false, fs) := by
  rw [h.inv.eq_mounted]
  rcases remove_spec h.inv.consistent fs.openFiles name heap with ⟨-, he⟩ | ⟨d', i, hi, -⟩
  · exact he
  · exact absurd ((h.holds.matches_iff name).mp ⟨i, hi⟩) hk

/-- The file opened last is closed again. -/
theorem Refines.close_last (h : Refines fs v) {key : List Byte} {opened : List (List Byte)}
    (hv : v.opened = opened ++ [key]) :
    Refines { fs with openFiles := fs.openFiles.eraseIdx opened.length }
      { v with opened := opened } := by
  obtain ⟨v', hst, href⟩ := h.step (c := (.op (.close opened.length), fun _ _ => 0)) trivial rfl
  cases hst
  rwa [hv, List.eraseIdx_append_of_length_le (Nat.le_refl _), Nat.sub_self, List.eraseIdx_cons_zero,
    List.append_nil] at href

/-- The open file of an index of the store. -/
theorem Refines.openFiles (h : Refines fs v) {k : Nat} {key : List Byte}
    (hk : v.opened[k]? = some key) : ∃ g i, fs.openFiles[k]? = some g ∧
      fs.disk.directory.inUse i = true ∧ fs.disk.keyAt i = key ∧
      g.hdr = fs.disk.header (fs.disk.directory.headerSector i) := by
  obtain ⟨g, hg, i, hi, hkey, -, hhdr⟩ := forall₂_getElem? h.opened.flip hk
  exact ⟨g, i, hg, hi, hkey, hhdr⟩

/-- A formatted disk is an empty store. -/
theorem format_refines (d : Disk) (heap : Heap) :
    ∃ fs, format d heap = .ok fs ∧ Refines fs Store.empty := by
  obtain ⟨fs, hf, hinv, hempty, -⟩ := format_spec d heap
  have hnone : ∀ i, fs.disk.directory.inUse i ≠ true := fun i hi => by
    rw [hempty] at hi
    cases hi
  have hopen : fs.openFiles = [] := by
    refine List.eq_nil_iff_forall_not_mem.mpr fun g hg => ?_
    obtain ⟨i, hi, -⟩ := hinv.handle g hg
    exact hnone i hi
  refine ⟨fs, hf, hinv, ⟨fun i j hi => absurd hi (hnone i), fun i hi => absurd hi (hnone i),
    fun k => ?_, fun i hi => absurd hi (hnone i)⟩, ?_⟩
  · exact iff_of_false (Finset.notMem_empty k) fun ⟨i, hi, _⟩ => hnone i hi
  · rw [hopen]
    exact .nil

/-- An empty disk has room for a file of any size. -/
theorem Refines.not_refused (h : Refines fs Store.empty) (name : List Byte) (size : FileSize) :
    ¬ Refused fs.disk name size.val := by
  have hnum := h.holds.used h.inv.consistent
  rw [Store.used, Store.empty, Finset.sum_empty, Nat.add_zero] at hnum
  refine FileSystem.not_refused (fun i => ?_) hnum name size
  cases hi : fs.disk.directory.inUse i with
  | false => rfl
  | true => exact absurd ((h.holds.names _).mpr ⟨i, hi, rfl⟩) (Finset.notMem_empty _)

/-- The open file of a call is one, and its request lies at a position of a file, with its end an
`int`. -/
def Call.Ok (fs : FileSystem) : Call → Prop
  | .op (.readAt k numBytes position) | .op (.writeAt k _ numBytes position) =>
      k < fs.openFiles.length ∧ 0 ≤ position.toInt ∧ position.toInt + numBytes.toInt < 2 ^ 31
  | .length k => k < fs.openFiles.length
  | _ => True

/-- **Such a call returns.** -/
theorem Refines.returns (h : Refines fs v) {c : Call} (hok : c.Ok fs) (heap : Heap) :
    ∃ r fs', call fs (c, heap) = .ok (r, fs') := by
  cases c with
  | op a =>
      cases a with
      | create name initialSize =>
          obtain ⟨r, hr, -⟩ := create_inv h.inv name heap initialSize
          exact ⟨.done r.1, r.2, by simp only [call, answer, hr]; rfl⟩
      | openFile name =>
          obtain ⟨fs', hr, -⟩ := openFile_inv h.inv name heap
          exact ⟨_, fs', by simp only [call, answer, hr]; rfl⟩
      | close k => exact ⟨_, _, rfl⟩
      | remove name =>
          obtain ⟨r, hr, -⟩ := remove_inv h.inv name heap
          exact ⟨.done r.1, r.2, by simp only [call, answer, hr]; rfl⟩
      | readAt k numBytes position =>
          obtain ⟨hk, hp, hover⟩ := hok
          have hg := List.getElem?_eq_getElem hk
          obtain ⟨i, -, hi, hhdr⟩ := h.handle hg
          have hr := OpenFile.readAt_eq (h.inv.consistent.entry i hi).2 fs.disk (heap 0) hp hover
          rw [← hhdr] at hr
          exact ⟨_, _, by simp only [call, answer, hg, Option.elim_some, hr]; rfl⟩
      | writeAt k fromBuf numBytes position =>
          obtain ⟨hk, hp, hover⟩ := hok
          have hg := List.getElem?_eq_getElem hk
          obtain ⟨i, -, hi, hhdr⟩ := h.handle hg
          obtain ⟨d', hw, -⟩ := OpenFile.writeAt_eq (h.inv.consistent.entry i hi).2 fs.disk (heap 0)
            fromBuf hp hover
          rw [← hhdr] at hw
          exact ⟨_, _, by simp only [call, answer, hg, Option.elim_some, hw]; rfl⟩
  | length k =>
      have hg := List.getElem?_eq_getElem (show k < fs.openFiles.length from hok)
      exact ⟨_, _, by simp only [call, length, hg]; rfl⟩
  | restart =>
      obtain ⟨fs', he, -⟩ := h.restart
      exact ⟨_, fs', by simp only [call, he]; rfl⟩

/-- **The file system is a store of named files.**  From the formatting of any disk on, whatever is
called, restarts of the system included, but for requests at a negative position, every call that
returns is answered as the store of arrays answers it: there is room for ten names and 1019 sectors,
of which a file takes one and one for each 128 bytes.  The free sectors are those that the store has
left, and a call whose request lies at a position of an open file returns. -/
theorem fileSystem_refines_store {d : Disk} {heap : Heap} {fs₀ : FileSystem}
    {calls : List ((Call × Heap) × Store.Answer Byte)} (hf : format d heap = .ok fs₀)
    (ht : Trace call fs₀ calls fs) (hcalls : ∀ c ∈ calls, c.1.1.NonNegative) :
    ∃ v, Obeys (Store.Step volume) Store.empty (calls.map (Prod.map Call.abs id)) v ∧ Refines fs v ∧
      fs.disk.freeMap.numClear + v.used volume = volume.blocks ∧
      ∀ c heap', Call.Ok fs c → ∃ r fs', call fs (c, heap') = .ok (r, fs') := by
  obtain ⟨fs₁, hf₁, href⟩ := format_refines d heap
  rw [hf] at hf₁
  cases hf₁
  obtain ⟨v, ho, hv⟩ := ht.obeys (C := fun c => c.1.NonNegative) hcalls href
    fun _ _ _ _ _ hc h hs => h.step hc hs
  exact ⟨v, ho, hv, hv.holds.used hv.inv.consistent, fun c heap' hok => hv.returns hok heap'⟩

end

/-- A file is created on a disk of zeros. -/
theorem fileSystem_refines_store_created : ∃ fs₀ fs, ∃ v : Store (List Byte) Byte,
    format (fun _ _ => 0) (fun _ _ => 0) = .ok fs₀ ∧
    Trace call fs₀ [((.op (.create [97] ⟨100, by decide⟩), fun _ _ => 0), .done true)] fs ∧
    Obeys (Store.Step volume) Store.empty [(.create [97] 100, .done true)] v := by
  obtain ⟨fs₀, hf, href⟩ := format_refines (fun _ _ => 0) fun _ _ => 0
  obtain ⟨fs, bs, hr, -, -⟩ := href.create_done [97] ⟨100, by decide⟩ (fun _ _ => 0)
    (Store.empty_fits (by decide) (by decide) _)
  have hc : call fs₀ (.op (.create [97] ⟨100, by decide⟩), fun _ _ => 0) = .ok (.done true, fs) := by
    rw [call, answer, hr]
    rfl
  have ht : Trace call fs₀ _ fs := .snoc .nil hc
  obtain ⟨v, ho, -⟩ := fileSystem_refines_store hf ht fun c hc => by
    rw [List.mem_singleton.mp hc]
    trivial
  exact ⟨fs₀, fs, v, hf, ht, ho⟩

/-! ### What a byte of a file is -/

/-- The file under a name. -/
def fileOf (d : Disk) (name : List Byte) : Option (List Byte) :=
  (d.directory.findIndex name).map fun i => d.content (d.directory.headerSector i)

def next (fs : FileSystem) (c : Call × Heap) : Except Stop FileSystem := (call fs c).map Prod.snd

/-- From the formatting of a disk on, restarts included, without a request at a negative position. -/
def Reached (fs : FileSystem) : Prop :=
  ∃ d heap fs₀, format d heap = .ok fs₀ ∧ Steps next (fun _ c => c.1.NonNegative) fs₀ fs

/-- The call does not create or remove a file of the name, and does not write at its byte `x`. -/
def Leaves (name : List Byte) (x : Nat) (fs : FileSystem) (c : Call × Heap) : Prop :=
  match c.1 with
  | .op (.create name' _) | .op (.remove name') => nameKey name' ≠ nameKey name
  | .op (.writeAt k _ numBytes position) => ∀ g, fs.openFiles[k]? = some g →
      g.sector = fs.disk.directory.find name →
        ¬ (position.toInt ≤ x ∧ x < position.toInt + numBytes.toInt)
  | _ => True

section
variable {fs fs' : FileSystem} {v v' : Store (List Byte) Byte} {name : List Byte} {x : Nat}

theorem Reached.refines (h : Reached fs) : ∃ v, Refines fs v := by
  obtain ⟨d, heap, fs₀, hf, hsteps⟩ := h
  obtain ⟨fs₁, hf₁, href⟩ := format_refines d heap
  rw [hf] at hf₁
  cases hf₁
  refine hsteps.inv (I := fun fs => ∃ v, Refines fs v) ⟨_, href⟩ fun fs c fs' hv hc hs => ?_
  obtain ⟨v, hv⟩ := hv
  obtain ⟨⟨r, fs''⟩, hr, rfl⟩ := map_ok hs
  obtain ⟨v', -, hv'⟩ := hv.step hc hr
  exact ⟨v', hv'⟩

theorem Refines.fileOf (h : Refines fs v) (name : List Byte) : fileOf fs.disk name =
    if nameKey name ∈ v.names then some (v.content (nameKey name)) else none := by
  unfold FileSystem.fileOf
  rcases fs.disk.directory.entries.findIndex_cases name with ⟨i, hf, hi⟩ | ⟨hf, hnone⟩ <;>
    rw [← Directory.findIndex_entries] at hf <;> rw [hf]
  · have hkey : fs.disk.keyAt i = nameKey name := hi.2
    rw [if_pos ((h.holds.matches_iff name).mp ⟨i, hi⟩), ← hkey, h.holds.content i hi.1]
    rfl
  · rw [if_neg fun hm => absurd ((h.holds.matches_iff name).mpr hm) (not_exists.mpr hnone)]
    rfl

/-- The open file of an index is that of the name. -/
theorem Refines.sector_find (h : Refines fs v) {k : Nat} (hv : v.opened[k]? = some (nameKey name)) :
    ∃ g, fs.openFiles[k]? = some g ∧ g.sector = fs.disk.directory.find name := by
  obtain ⟨g, hg, i, hi, hkey, hsec, -⟩ := forall₂_getElem? h.opened.flip hv
  refine ⟨g, hg, ?_⟩
  rcases fs.disk.directory.entries.findIndex_cases name with ⟨j, hf, hj⟩ | ⟨-, hnone⟩
  · obtain rfl := h.holds.one i j hi hj.1 (hkey.trans hj.2.symm)
    rw [Directory.find, Directory.findIndex_entries, hf, Option.elim_some,
      (h.inv.consistent.entry i hi).1, hsec]
  · exact absurd ⟨hi, hkey⟩ (hnone i)

theorem Refines.spares (h : Refines fs v) {c : Call × Heap} (hp : c.1.NonNegative)
    (hc : Leaves name x fs c) : v.Spares (nameKey name) x (Call.abs c) := by
  obtain ⟨c, heap⟩ := c
  cases c with
  | length k => trivial
  | restart => trivial
  | op a =>
      cases a with
      | create name' initialSize => exact hc
      | remove name' => exact hc
      | openFile name' => trivial
      | close k => trivial
      | readAt k numBytes position => trivial
      | writeAt k fromBuf numBytes position =>
          intro hk hx
          obtain ⟨g, hg, hsec⟩ := h.sector_find hk
          have hp : 0 ≤ position.toInt := hp
          exact hc g hg hsec (by omega)

/-- **Files are durable and apart.**  In any state reached, through any further calls, restarts of the
system included, none of which is a request at a negative position, creates or removes a file of the
name or writes at its byte `x`, the file keeps that byte and its length; and where there is no such
file there is still none. -/
theorem file_durable (h : Reached fs)
    (hs : Steps next (fun fs c => c.1.NonNegative ∧ Leaves name x fs c) fs fs') :
    (fileOf fs'.disk name).map List.length = (fileOf fs.disk name).map List.length ∧
      (fileOf fs'.disk name).bind (·[x]?) = (fileOf fs.disk name).bind (·[x]?) := by
  obtain ⟨v, hv⟩ := h.refines
  obtain ⟨v', hv', hsame⟩ : ∃ v', Refines fs' v' ∧ Store.Same v v' (nameKey name) x := by
    refine hs.inv (I := fun fs' => ∃ v', Refines fs' v' ∧ Store.Same v v' (nameKey name) x)
      ⟨v, hv, .refl ..⟩ ?_
    rintro fs₁ c fs₂ ⟨v₁, hv₁, hsame⟩ ⟨hp, hc⟩ hstep
    obtain ⟨⟨r, fs₃⟩, hr, rfl⟩ := map_ok hstep
    obtain ⟨v₂, hst, hv₂⟩ := hv₁.step hp hr
    exact ⟨v₂, hv₂, hsame.trans (hst.same (hv₁.spares hp hc))⟩
  rw [hv'.fileOf, hv.fileOf]
  by_cases hm : nameKey name ∈ v.names
  · rw [if_pos hm, if_pos (hsame.names.mpr hm)]
    exact ⟨congrArg some hsame.length, hsame.getElem?⟩
  · rw [if_neg hm, if_neg fun hm' => hm (hsame.names.mp hm')]
    exact ⟨rfl, rfl⟩

end

/-- A file is created, and the system is started again. -/
theorem file_durable_restart : ∃ fs₀ fs₁ fs₂ : FileSystem,
    format (fun _ _ => 0) (fun _ _ => 0) = .ok fs₀ ∧
    next fs₀ (.op (.create [97] ⟨100, by decide⟩), fun _ _ => 0) = .ok fs₁ ∧
    next fs₁ (.restart, fun _ _ => 0) = .ok fs₂ ∧
    (fileOf fs₂.disk [97]).map List.length = some 100 ∧
    (fileOf fs₂.disk [97]).bind (·[5]?) = (fileOf fs₁.disk [97]).bind (·[5]?) := by
  obtain ⟨fs₀, hf, href⟩ := format_refines (fun _ _ => 0) fun _ _ => 0
  obtain ⟨fs₁, bs, h₁, hbs, href₁⟩ := href.create_done [97] ⟨100, by decide⟩ (fun _ _ => 0)
    (Store.empty_fits (by decide) (by decide) _)
  have hlen : (fileOf fs₁.disk [97]).map List.length = some 100 := by
    rw [href₁.fileOf, if_pos (Store.mem_put.mpr (.inl rfl)), Store.content_put_self, Option.map_some, hbs]
    rfl
  obtain ⟨r₂, fs₂, h₂⟩ := href₁.returns (c := .restart) trivial fun _ _ => 0
  have hn₁ : next fs₀ (.op (.create [97] ⟨100, by decide⟩), fun _ _ => 0) = .ok fs₁ := by
    rw [next, call, answer, h₁]
    rfl
  have hn₂ : next fs₁ (.restart, fun _ _ => 0) = .ok fs₂ := by
    rw [next, h₂]
    rfl
  have hok₁ : Call.NonNegative (.op (.create [97] ⟨100, by decide⟩)) := trivial
  have hreach : Reached fs₁ := ⟨_, _, fs₀, hf, Steps.one hok₁ hn₁⟩
  have hleaves : Call.NonNegative .restart ∧ Leaves [97] 5 fs₁ (.restart, fun _ _ => 0) :=
    ⟨trivial, trivial⟩
  obtain ⟨hlength, hbyte⟩ := file_durable hreach (Steps.one hleaves hn₂)
  exact ⟨fs₀, fs₁, fs₂, hf, hn₁, hn₂, hlength.trans hlen, hbyte⟩

end FileSystem

end Nachos
