import Mathlib.Algebra.Ring.Int.Defs
import Nachos.Machine.Machine
import Nachos.Threads.Semaphore
import Nachos.Userprog.BitMap

/-!
# Userprog — AddrSpace

`class AddrSpace` (userprog/addrspace.cc).  The constructor reads the NOFF header, takes one frame
of `gPhysPageBitMap` for each page, zeroes it, and copies the code and initialised data segments
into the frames; the destructor gives the frames back.

The constructor is split in two.  `build` is what it does to the bitmap and the page table, with
every way it can fail: an `ASSERT` (the magic number, too few clear frames, a negative file
position) or an index outside the page table or `mainMemory`.  `load` is what it then does to
memory.  The free frames change as a set by exactly the frames of the table (`build_spec`,
`test_free`).
-/

namespace Nachos

def UserStackSize : Nat := 1024
def NOFFMAGIC : Word := 0xbadfad

/-- A host file, with what the stack holds where `noffH` is put: `ReadAt` leaves that alone where
the file is shorter than the header. -/
structure Executable where
  bytes : List Byte
  stack : Nat → Byte

namespace Executable

/-- The bytes `OpenFile::ReadAt` delivers: at most `numBytes`, and none behind the end. -/
def readAt (exe : Executable) (numBytes position : Int) : List Byte :=
  (exe.bytes.drop position.toNat).take numBytes.toNat

/-- The word at `position` of the header. -/
def headerWord (exe : Executable) (position : Nat) : Word :=
  BitVec.ofNat 32 (Machine.loadLE (fun i => exe.bytes.getD i (exe.stack i)) position 4)

end Executable

/-- `struct segment`. -/
structure Segment where
  virtualAddr : Word
  inFileAddr : Word
  size : Word
  deriving DecidableEq, Repr

/-- `struct noffHeader`. -/
structure NoffHeader where
  noffMagic : Word
  code : Segment
  initData : Segment
  uninitData : Segment
  deriving DecidableEq, Repr

/-- `executable->ReadAt((char *)&noffH, sizeof(noffH), 0)`.  `SwapHeader` is not reached on a
little-endian host, where `WordToHost` is the identity. -/
def Executable.noffHeader (exe : Executable) : NoffHeader where
  noffMagic := exe.headerWord 0
  code := ⟨exe.headerWord 4, exe.headerWord 8, exe.headerWord 12⟩
  initData := ⟨exe.headerWord 16, exe.headerWord 20, exe.headerWord 24⟩
  uninitData := ⟨exe.headerWord 28, exe.headerWord 32, exe.headerWord 36⟩

/-- `numPages`: the segments and the stack, in unsigned arithmetic, rounded up to pages. -/
def NoffHeader.numPages (h : NoffHeader) : Nat :=
  divRoundUp (h.code.size + h.initData.size + h.uninitData.size +
    BitVec.ofNat 32 UserStackSize).toNat PageSize

/-- One `ReadAt` of the constructor: `n` bytes at `pos` of the file, to offset `off` of the frame
of page `page`. -/
structure SegmentRead where
  page : Int
  off : Int
  n : Int
  pos : Int
  deriving DecidableEq, Repr

/-- An `int` of 32 bits, as which the host computes a position in the file. -/
def asInt (i : Int) : Int := (BitVec.ofInt 32 i).toInt

theorem asInt_eq {i : Int} (h₁ : -2 ^ 31 ≤ i) (h₂ : i < 2 ^ 31) : asInt i = i := by
  unfold asInt
  rw [BitVec.toInt_ofInt]
  exact Int.bmod_eq_of_le (by omega) (by omega)

theorem asInt_lt (i : Int) : asInt i < 2 ^ 31 := by
  unfold asInt
  exact BitVec.toInt_lt

/-- Division by 128, the size of a page and of a sector, as C rounds it. -/
theorem tdiv_add_tmod (a : Int) : 128 * a.tdiv 128 + a.tmod 128 = a ∧
    (0 ≤ a → 0 ≤ a.tmod 128 ∧ a.tmod 128 < 128) ∧ (a < 0 → -128 < a.tmod 128 ∧ a.tmod 128 ≤ 0) := by
  refine ⟨Int.mul_tdiv_add_tmod a 128, fun h => ⟨Int.tmod_nonneg 128 h, ?_⟩, fun h => ⟨?_, ?_⟩⟩
  · exact Int.tmod_lt_of_pos a (by decide)
  · exact Int.lt_tmod_of_pos a (by decide)
  · have := Int.tmod_nonneg 128 (show 0 ≤ -a by omega)
    rw [Int.neg_tmod] at this
    omega

/-- The reads that load a segment, in the constructor's order: the first page, the last one, and
those in between, whose index `i` is unsigned. -/
def Segment.reads (s : Segment) : List SegmentRead :=
  if s.size.toInt ≤ 0 then []
  else
    let page : Int := PageSize
    let inFileAddr := s.inFileAddr.toInt
    let firstPage := s.virtualAddr.toInt.tdiv page
    let tempPageSize := page - s.virtualAddr.toInt.tmod page
    let stop := (s.virtualAddr + s.size).toInt
    let (firstPageSize, lastPage, lastPageSize) :=
      if tempPageSize < s.size.toInt then (tempPageSize, stop.tdiv page, stop.tmod page)
      else (s.size.toInt, firstPage + 1, 0)
    let unsigned (i : Int) : Nat := (BitVec.ofInt 32 i).toNat
    let middle := List.range' (unsigned (firstPage + 1))
      (unsigned lastPage - unsigned (firstPage + 1))
    ⟨firstPage, page - tempPageSize, firstPageSize, inFileAddr⟩ ::
      ((if lastPageSize ≠ 0 then
          [⟨lastPage, 0, lastPageSize,
            asInt (inFileAddr + firstPageSize + (lastPage - firstPage - 1) * page)⟩]
        else []) ++
      middle.map fun i =>
        ⟨i, 0, page, asInt (inFileAddr + firstPageSize + (i - firstPage - 1) * page)⟩)

namespace SegmentRead

/-- The address of `mainMemory` a read writes to. -/
def addr (pageTable : List TranslationEntry) (r : SegmentRead) : Int :=
  (pageTable[r.page.toNat]?.elim 0 TranslationEntry.physicalPage : Nat) * PageSize + r.off

/-- A read indexes the page table in range, seeks to a position the host accepts, and writes what
it finds there inside `mainMemory`. -/
def check (exe : Executable) (pageTable : List TranslationEntry) (r : SegmentRead) :
    Except Stop Unit :=
  if r.page < 0 ∨ pageTable.length ≤ r.page then .error .outOfBounds
  else if r.pos < 0 then .error .assertFails
  else if exe.readAt r.n r.pos = [] ∨ 0 ≤ r.addr pageTable ∧
      r.addr pageTable + (exe.readAt r.n r.pos).length ≤ MemorySize then .ok ()
  else .error .outOfBounds

/-- What a read does to `mainMemory`. -/
def apply (exe : Executable) (pageTable : List TranslationEntry) (mem : Nat → Byte)
    (r : SegmentRead) : Nat → Byte := fun x =>
  let a := (r.addr pageTable).toNat
  if a ≤ x then ((exe.readAt r.n r.pos)[x - a]?).getD (mem x) else mem x

end SegmentRead

/-- The loop that sets up the translation of the `n` pages from `i` on.  `none` is a `Find` that
returned `-1`, whose frame the loop would zero in front of `mainMemory`. -/
def allocPages : (n i : Nat) → BitMap NumPhysPages →
    Option (List TranslationEntry × BitMap NumPhysPages)
  | 0, _, b => some ([], b)
  | n + 1, i, b =>
      match b.find with
      | (none, _) => none
      | (some f, b) =>
          match allocPages n (i + 1) b with
          | none => none
          | some (entries, b) => some (⟨i, f, true, false, false, false⟩ :: entries, b)

/-- `gPhysPageBitMap->Clear(f)`. -/
def clearFrame (b : BitMap NumPhysPages) (f : Nat) : BitMap NumPhysPages :=
  if h : f < NumPhysPages then b.clear ⟨f, h⟩ else b

/-- `class AddrSpace`.  The frames of its page table are frames of `mainMemory`. -/
structure AddrSpace where
  pageTable : List TranslationEntry
  inRange : ∀ e ∈ pageTable, e.physicalPage < NumPhysPages

namespace AddrSpace

def numPages (sp : AddrSpace) : Nat := sp.pageTable.length

/-- The frames of a page table, in the order of its pages. -/
def frames (sp : AddrSpace) : List Nat := sp.pageTable.map TranslationEntry.physicalPage

/-- `AddrSpace::~AddrSpace`. -/
def free (sp : AddrSpace) (b : BitMap NumPhysPages) : BitMap NumPhysPages :=
  sp.frames.foldl clearFrame b

/-- The hardware has set use and dirty bits of the table. -/
def touch (sp : AddrSpace) (pageTable : List TranslationEntry)
    (h : pageTable.map TranslationEntry.mapping = sp.pageTable.map TranslationEntry.mapping) :
    AddrSpace where
  pageTable := pageTable
  inRange e he := by
    have hm : e.mapping ∈ sp.pageTable.map TranslationEntry.mapping :=
      h ▸ List.mem_map_of_mem he
    obtain ⟨e', he', heq⟩ := List.mem_map.mp hm
    have hp : e.mapping.physicalPage = e'.mapping.physicalPage :=
      congrArg TranslationEntry.physicalPage heq.symm
    exact lt_of_eq_of_lt hp (sp.inRange e' he')

end AddrSpace

/-- The entries of `allocPages` are in range. -/
theorem allocPages_inRange : ∀ {n i : Nat} {b b' : BitMap NumPhysPages}
    {entries : List TranslationEntry}, allocPages n i b = some (entries, b') →
    ∀ e ∈ entries, e.physicalPage < NumPhysPages
  | 0, _, _, _, _, h => by
      cases h
      simp
  | n + 1, i, b, b', entries, h => by
      simp only [allocPages] at h
      split at h
      · cases h
      split at h
      · cases h
      rename_i f b₁ _ _ rest b₂ hr
      cases h
      intro e he
      rcases List.mem_cons.mp he with rfl | he
      · exact f.isLt
      · exact allocPages_inRange hr e he

namespace AddrSpace

/-- The part of `AddrSpace::AddrSpace` that decides whether it returns, and with which frames. -/
def build (exe : Executable) (phys : BitMap NumPhysPages) :
    Except Stop (AddrSpace × BitMap NumPhysPages) :=
  let noffH := exe.noffHeader
  if noffH.noffMagic ≠ NOFFMAGIC then .error .assertFails
  else if phys.numClear < noffH.numPages then .error .assertFails
  else
    match h : allocPages noffH.numPages 0 phys with
    | none => .error .outOfBounds
    | some (pageTable, phys') =>
        match (noffH.code.reads ++ noffH.initData.reads).mapM
            (SegmentRead.check exe pageTable) with
        | .error e => .error e
        | .ok _ => .ok (⟨pageTable, allocPages_inRange h⟩, phys')

/-- The part of `AddrSpace::AddrSpace` that fills memory: `bzero` of each frame, then the reads. -/
def load (sp : AddrSpace) (exe : Executable) (mem : Nat → Byte) : Nat → Byte :=
  let zeroed : Nat → Byte := fun x => if x / PageSize ∈ sp.frames then 0 else mem x
  (exe.noffHeader.code.reads ++ exe.noffHeader.initData.reads).foldl
    (SegmentRead.apply exe sp.pageTable) zeroed

end AddrSpace

/-! ### The frames as a set -/

/-- Frame `f` is marked. -/
def Marked (b : BitMap NumPhysPages) (f : Nat) : Prop :=
  ∃ h : f < NumPhysPages, b.test ⟨f, h⟩ = true

/-- `allocPages` takes `n` different clear frames and marks exactly these. -/
theorem allocPages_spec : ∀ {n i : Nat} {b b' : BitMap NumPhysPages}
    {entries : List TranslationEntry}, allocPages n i b = some (entries, b') →
    let frames := entries.map TranslationEntry.physicalPage
    entries.length = n ∧ frames.Nodup ∧ (∀ f ∈ frames, ¬ Marked b f) ∧
      ∀ f, Marked b' f ↔ Marked b f ∨ f ∈ frames
  | 0, _, _, _, _, h => by
      cases h
      simp
  | n + 1, i, b, b', entries, h => by
      simp only [allocPages] at h
      split at h
      · cases h
      rename_i f b₁ hf
      split at h
      · cases h
      rename_i rest b₂ hr
      cases h
      obtain ⟨rfl, hc⟩ := BitMap.find_some hf
      obtain ⟨hlen, hnd, hcl, hm⟩ := allocPages_spec hr
      have hmark : ∀ g, Marked (b.mark f) g ↔ g = f.val ∨ Marked b g := by
        intro g
        constructor
        · rintro ⟨hg, ht⟩
          rw [BitMap.test_mark, Bool.or_eq_true, decide_eq_true_eq] at ht
          exact ht.imp (fun e => congrArg Fin.val e) fun ht => ⟨hg, ht⟩
        · rintro (rfl | ⟨hg, ht⟩)
          · exact ⟨f.isLt, by simp⟩
          · exact ⟨hg, by simp [ht]⟩
      simp only [List.map_cons, List.nodup_cons, List.mem_cons, List.length_cons]
      refine ⟨by omega, ⟨fun hfm => hcl _ hfm ((hmark _).mpr (.inl rfl)), hnd⟩, ?_, fun g => ?_⟩
      · rintro g (rfl | hg)
        · rintro ⟨_, ht⟩
          rw [hc] at ht
          cases ht
        · exact fun hb => hcl g hg ((hmark g).mpr (.inr hb))
      · rw [hm, hmark]
        tauto

theorem marked_clearFrame (b : BitMap NumPhysPages) (f g : Nat) :
    Marked (clearFrame b f) g ↔ Marked b g ∧ g ≠ f := by
  unfold clearFrame
  split
  · rename_i hf
    constructor
    · rintro ⟨hg, ht⟩
      rw [BitMap.test_clear, Bool.and_eq_true] at ht
      refine ⟨⟨hg, ht.2⟩, fun e => ?_⟩
      simp [e] at ht
    · rintro ⟨⟨hg, ht⟩, hne⟩
      exact ⟨hg, by simp [ht, hne]⟩
  · rename_i hf
    exact ⟨fun h => ⟨h, fun e => hf (e ▸ h.1)⟩, fun h => h.1⟩

/-- The destructor clears exactly the frames of the table. -/
theorem marked_free (sp : AddrSpace) (b : BitMap NumPhysPages) (g : Nat) :
    Marked (sp.free b) g ↔ Marked b g ∧ g ∉ sp.frames := by
  unfold AddrSpace.free
  induction sp.frames generalizing b with
  | nil => simp
  | cons f l ih =>
      rw [List.foldl_cons, ih, marked_clearFrame, List.mem_cons]
      tauto

/-- **What the constructor does to the frames.**  It returns with as many frames as the header
asks for, all different and all clear before; and it marks exactly these. -/
theorem build_spec {exe : Executable} {phys phys' : BitMap NumPhysPages} {sp : AddrSpace}
    (h : AddrSpace.build exe phys = .ok (sp, phys')) :
    sp.numPages = exe.noffHeader.numPages ∧ sp.frames.Nodup ∧
      (∀ f ∈ sp.frames, ¬ Marked phys f) ∧ ∀ f, Marked phys' f ↔ Marked phys f ∨ f ∈ sp.frames := by
  simp only [AddrSpace.build] at h
  split at h
  · cases h
  split at h
  · cases h
  split at h
  · cases h
  rename_i hp
  split at h
  · cases h
  cases h
  exact allocPages_spec hp

theorem mapM_error {α β ε : Type} {f : α → Except ε β} {e : ε} :
    ∀ {l : List α}, l.mapM f = .error e → ∃ x ∈ l, f x = .error e
  | [], h => by cases h
  | x :: l, h => by
      rw [List.mapM_cons] at h
      cases hx : f x with
      | error e' =>
          rw [hx] at h
          cases h
          exact ⟨x, List.mem_cons_self, hx⟩
      | ok y =>
          rw [hx] at h
          cases hl : l.mapM f with
          | error e' =>
              simp only [hl] at h
              cases h
              obtain ⟨z, hz, hfz⟩ := mapM_error hl
              exact ⟨z, List.mem_cons_of_mem x hz, hfz⟩
          | ok ys =>
              simp only [hl] at h
              cases h

/-- The constructor aborts or goes out of bounds, where it does not return. -/
theorem build_error {exe : Executable} {phys : BitMap NumPhysPages} {e : Stop}
    (h : AddrSpace.build exe phys = .error e) : e = .assertFails ∨ e = .outOfBounds := by
  simp only [AddrSpace.build] at h
  split at h
  · cases h; exact .inl rfl
  split at h
  · cases h; exact .inl rfl
  split at h
  · cases h; exact .inr rfl
  split at h
  · rename_i he
    cases h
    obtain ⟨r, -, hr⟩ := mapM_error he
    unfold SegmentRead.check at hr
    split at hr
    · cases hr; exact .inr rfl
    split at hr
    · cases hr; exact .inl rfl
    split at hr
    · cases hr
    · cases hr; exact .inr rfl
  · cases h

/-- The constructor goes through no null pointer. -/
theorem build_ne_nullDeref (exe : Executable) (phys : BitMap NumPhysPages) :
    AddrSpace.build exe phys ≠ .error .nullDeref := fun h => by
  rcases build_error h with e | e <;> cases e

theorem map_physicalPage (l : List TranslationEntry) : l.map TranslationEntry.physicalPage =
    (l.map TranslationEntry.mapping).map TranslationEntry.physicalPage := by
  rw [List.map_map]
  rfl

/-- The hardware does not change the frames of a table. -/
theorem frames_touch (sp : AddrSpace) (pageTable : List TranslationEntry)
    (h : pageTable.map TranslationEntry.mapping = sp.pageTable.map TranslationEntry.mapping) :
    (sp.touch pageTable h).frames = sp.frames := by
  show pageTable.map _ = sp.pageTable.map _
  rw [map_physicalPage, h, ← map_physicalPage]

end Nachos
