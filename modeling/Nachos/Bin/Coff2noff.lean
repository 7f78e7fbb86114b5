import Nachos.Lib.CString
import Nachos.Lib.Words
import Nachos.Machine.HostFile
import Nachos.Userprog.AddrSpace

/-!
# Bin — Coff2noff

The converter of the object files (bin/coff2noff.c, bin/coff.h, bin/noff.h), from the moment both
files are open: it reads the headers of the COFF file, copies the sections one after the other
behind the place of the NOFF header, and writes that header last.  A `long` has 32 bits, the host is
little endian, and a file of the host ends below 2³¹.

`lseek` is not checked: a negative position leaves the file where it is.  `read` and `write` return
-1 for a negative count, which `Read` and `Write` take for a failure unless the count is -1 itself.

The sections of uninitialised data touch no file, and no other section touches what is recorded of
them: the loop is a loop over the sections that are copied beside one over the others
(`loadAll_iff`).
-/

namespace Nachos.Coff2noff
open Lib Syscall

/-! ### Files -/

/-- What the converter prints when it gives up, and unlinks the output. -/
inductive Reject where
  | tooShort | unableToWrite | notMipsel | notOmagic | bothData | bothBss
  | unknownSegment (s_name : List Byte)
  deriving DecidableEq, Repr

/-- An open file of the host. -/
structure Fd where
  content : List Byte
  offset : Nat
  deriving DecidableEq, Repr

namespace Fd

/-- `lseek(fd, offset, 0)`. -/
def lseek (fd : Fd) (offset : Int) : Fd :=
  if 0 ≤ offset then { fd with offset := offset.toNat } else fd

/-- `read`, and what is in the buffer. -/
def read (fd : Fd) (nBytes : Int) : Int × List Byte :=
  if nBytes < 0 then (-1, [])
  else
    let bytes := readPartial fd.content fd.offset nBytes.toNat
    (bytes.length, bytes)

/-- `write`; one that does not fit into the file has not written all, and nothing is seen of it. -/
def write (fd : Fd) (buf : List Byte) (nBytes : Int) : Int × Fd :=
  if 0 ≤ nBytes ∧ fd.offset + nBytes < 2 ^ 31 then
    (nBytes, ⟨writeFile fd.content fd.offset (buf.take nBytes.toNat), fd.offset + nBytes.toNat⟩)
  else (-1, fd)

/-- `Read`. -/
def Read (fd : Fd) (nBytes : Int) : Except Reject (List Byte × Fd) :=
  let (retVal, buf) := fd.read nBytes
  if retVal ≠ nBytes then .error .tooShort
  else .ok (buf, { fd with offset := fd.offset + buf.length })

/-- `Write`. -/
def Write (fd : Fd) (buf : List Byte) (nBytes : Int) : Except Reject Fd :=
  let (retVal, fd) := fd.write buf nBytes
  if retVal ≠ nBytes then .error .unableToWrite else .ok fd

end Fd

/-! ### Headers -/

def MIPSELMAGIC : Nat := 0x0162
/-- 0407. -/
def OMAGIC : Nat := 263

def sizeofFilehdr : Nat := 20
def sizeofAouthdr : Nat := 56
def sizeofScnhdr : Nat := 40
def sizeofNoffHeader : Nat := 40

/-- An `unsigned short` in a buffer. -/
def halfAt (buf : List Byte) (i : Nat) : Nat := Machine.loadLE (fun i => buf.getD i 0) i 2

/-- A `long` in a buffer. -/
def longAt (buf : List Byte) (i : Nat) : Word := wordAt (fun i => buf.getD i 0) i

/-- `struct scnhdr`, as far as it is looked at. -/
structure Scnhdr where
  s_name : List Byte
  s_paddr : Word
  s_size : Word
  s_scnptr : Word
  deriving DecidableEq, Repr

/-- `sections[i]`. -/
def scnhdr (buf : List Byte) (i : Nat) : Scnhdr where
  s_name := (buf.drop (sizeofScnhdr * i)).take 8
  s_paddr := longAt buf (sizeofScnhdr * i + 8)
  s_size := longAt buf (sizeofScnhdr * i + 16)
  s_scnptr := longAt buf (sizeofScnhdr * i + 20)

/-- The headers of the COFF file: its sections, and the file behind them. -/
def readSections (fdIn : Fd) : Except Reject (List Scnhdr × Fd) :=
  match fdIn.Read sizeofFilehdr with
  | .error e => .error e
  | .ok (fileh, fdIn) =>
      if halfAt fileh 0 ≠ MIPSELMAGIC then .error .notMipsel
      else
        match fdIn.Read sizeofAouthdr with
        | .error e => .error e
        | .ok (systemh, fdIn) =>
            if halfAt systemh 0 ≠ OMAGIC then .error .notOmagic
            else
              let numsections := halfAt fileh 2
              match fdIn.Read (numsections * sizeofScnhdr) with
              | .error e => .error e
              | .ok (sections, fdIn) => .ok ((List.range numsections).map (scnhdr sections), fdIn)

/-- The words of `NoffHeader`. -/
def headerWords (h : NoffHeader) : List Word :=
  [h.noffMagic, h.code.virtualAddr, h.code.inFileAddr, h.code.size,
    h.initData.virtualAddr, h.initData.inFileAddr, h.initData.size,
    h.uninitData.virtualAddr, h.uninitData.inFileAddr, h.uninitData.size]

/-- `(char *)&noffH`. -/
def headerBytes (h : NoffHeader) : List Byte :=
  (List.range sizeofNoffHeader).map fun x => byteOf ((headerWords h).getD (x / 4) 0) (x % 4)

/-! ### Sections -/

/-- What the loop takes a section for. -/
inductive Kind where
  | empty | text | data | bss | unknown
  deriving DecidableEq, Repr

namespace Scnhdr

/-- `!strcmp(s_name, name)`; `name` is shorter than the array, and so `strcmp` does not leave it. -/
def named (s : Scnhdr) (name : List Byte) : Bool := CString.strncmp 8 s.s_name name == 0

/-- `.text`. -/
def isText (s : Scnhdr) : Bool := s.named [0x2e, 0x74, 0x65, 0x78, 0x74]
/-- `.data`. -/
def isData (s : Scnhdr) : Bool := s.named [0x2e, 0x64, 0x61, 0x74, 0x61]
/-- `.rdata`. -/
def isRdata (s : Scnhdr) : Bool := s.named [0x2e, 0x72, 0x64, 0x61, 0x74, 0x61]
/-- `.bss`. -/
def isBss (s : Scnhdr) : Bool := s.named [0x2e, 0x62, 0x73, 0x73]
/-- `.sbss`. -/
def isSbss (s : Scnhdr) : Bool := s.named [0x2e, 0x73, 0x62, 0x73, 0x73]

def kind (s : Scnhdr) : Kind :=
  if s.s_size = 0 then .empty
  else if s.isText then .text
  else if s.isData || s.isRdata then .data
  else if s.isBss || s.isSbss then .bss
  else .unknown

end Scnhdr

/-- The local variables of the loop. -/
structure Locals where
  fdIn : Fd
  fdOut : Fd
  inNoffFile : Word
  noffH : NoffHeader
  deriving DecidableEq, Repr

namespace Locals

/-- What is done to `.text` and to `.data` alike: the segment, and the files behind it. -/
def copy (st : Locals) (s : Scnhdr) : Except Reject (Segment × Locals) :=
  match (st.fdIn.lseek s.s_scnptr.toInt).Read s.s_size.toInt with
  | .error e => .error e
  | .ok (buffer, fdIn) =>
      match st.fdOut.Write buffer s.s_size.toInt with
      | .error e => .error e
      | .ok fdOut =>
          .ok (⟨s.s_paddr, st.inNoffFile, s.s_size⟩,
            { st with fdIn := fdIn, fdOut := fdOut, inNoffFile := st.inNoffFile + s.s_size })

/-- One section. -/
def load (st : Locals) (s : Scnhdr) : Except Reject Locals :=
  match s.kind with
  | .empty => .ok st
  | .text =>
      match st.copy s with
      | .error e => .error e
      | .ok (code, st) => .ok { st with noffH := { st.noffH with code := code } }
  | .data =>
      if st.noffH.initData.size ≠ 0 then .error .bothData
      else
        match st.copy s with
        | .error e => .error e
        | .ok (initData, st) => .ok { st with noffH := { st.noffH with initData := initData } }
  | .bss =>
      let uninitData := st.noffH.uninitData
      if uninitData.size ≠ 0 then
        if s.s_paddr = uninitData.virtualAddr + uninitData.size then .error .bothBss
        else
          .ok { st with noffH := { st.noffH with
            uninitData := { uninitData with size := uninitData.size + s.s_size } } }
      else
        .ok { st with noffH := { st.noffH with
          uninitData := { uninitData with virtualAddr := s.s_paddr, size := s.s_size } } }
  | .unknown => .error (.unknownSegment s.s_name)

def loadAll : (sections : List Scnhdr) → Locals → Except Reject Locals
  | [], st => .ok st
  | s :: sections, st =>
      match st.load s with
      | .error e => .error e
      | .ok st => loadAll sections st

/-- The variables before the loop; `stack` is what `noffH` holds before it is initialised. -/
def start (stack : NoffHeader) (fdIn : Fd) : Locals where
  fdIn := fdIn
  fdOut := (Fd.mk [] 0).lseek sizeofNoffHeader
  inNoffFile := BitVec.ofNat 32 sizeofNoffHeader
  noffH :=
    { noffMagic := NOFFMAGIC
      code := { stack.code with size := 0 }
      initData := { stack.initData with size := 0 }
      uninitData := { stack.uninitData with size := 0 } }

end Locals

/-- `main`, with both files open: the NOFF file, when the converter succeeds. -/
def main (stack : NoffHeader) (coff : List Byte) : Except Reject (List Byte) :=
  match readSections ⟨coff, 0⟩ with
  | .error e => .error e
  | .ok (sections, fdIn) =>
      match (Locals.start stack fdIn).loadAll sections with
      | .error e => .error e
      | .ok st =>
          match (st.fdOut.lseek 0).Write (headerBytes st.noffH) sizeofNoffHeader with
          | .error e => .error e
          | .ok fdOut => .ok fdOut.content

/-! ### The uninitialised data beside the rest -/

/-- What is recorded of the uninitialised data behind one more section. -/
def record (u : Segment) (s : Scnhdr) : Segment :=
  if u.size ≠ 0 then { u with size := u.size + s.s_size }
  else { u with virtualAddr := s.s_paddr, size := s.s_size }

/-- For each further section of uninitialised data, whether it starts where the range that is
recorded before it ends. -/
def joins : Segment → List Scnhdr → List Bool
  | _, [] => []
  | u, s :: sections =>
      if u.size ≠ 0 then
        decide (s.s_paddr = u.virtualAddr + u.size) :: joins (record u s) sections
      else joins (record u s) sections

/-- The sections that are not skipped, without those of uninitialised data. -/
def copied (sections : List Scnhdr) : List Scnhdr :=
  sections.filter fun s => s.kind ≠ .empty ∧ s.kind ≠ .bss

/-- The sections of uninitialised data that are not empty. -/
def bss (sections : List Scnhdr) : List Scnhdr := sections.filter fun s => s.kind = .bss

section
variable {s : Scnhdr} {sections : List Scnhdr}

theorem copied_skip (h : s.kind = .empty ∨ s.kind = .bss) :
    copied (s :: sections) = copied sections := by
  refine List.filter_cons_of_neg ?_
  rw [decide_eq_true_iff]
  tauto

theorem copied_cons (h₁ : s.kind ≠ .empty) (h₂ : s.kind ≠ .bss) :
    copied (s :: sections) = s :: copied sections :=
  List.filter_cons_of_pos (decide_eq_true ⟨h₁, h₂⟩)

theorem bss_skip (h : s.kind ≠ .bss) : bss (s :: sections) = bss sections :=
  List.filter_cons_of_neg (by simpa using h)

theorem bss_cons (h : s.kind = .bss) : bss (s :: sections) = s :: bss sections :=
  List.filter_cons_of_pos (by simpa using h)

/-- No further section joins on. -/
theorem joins_false {u : Segment} : (∀ b ∈ joins u (s :: sections), b = false) ↔
    ¬ (u.size ≠ 0 ∧ s.s_paddr = u.virtualAddr + u.size) ∧
      ∀ b ∈ joins (record u s) sections, b = false := by
  rw [joins]
  split
  · rename_i hu
    rw [List.forall_mem_cons, decide_eq_false_iff_not, not_and]
    exact and_congr_left' ⟨fun h _ => h, fun h => h hu⟩
  · rename_i hu
    exact ⟨fun h => ⟨fun hfit => hu hfit.1, h⟩, fun h => h.2⟩

end

namespace Locals

def setUninit (st : Locals) (u : Segment) : Locals :=
  { st with noffH := { st.noffH with uninitData := u } }

variable {st st' : Locals} {s : Scnhdr} {u : Segment} {sections : List Scnhdr}

theorem copy_setUninit (st : Locals) (s : Scnhdr) (u : Segment) :
    (st.setUninit u).copy s = (st.copy s).map fun x => (x.1, x.2.setUninit u) := by
  unfold copy setUninit
  dsimp only
  cases (st.fdIn.lseek s.s_scnptr.toInt).Read s.s_size.toInt with
  | error e => rfl
  | ok x =>
      dsimp only
      cases st.fdOut.Write x.1 s.s_size.toInt <;> rfl

/-- A section that is copied leaves what is recorded of the uninitialised data. -/
theorem load_copied (h : s.kind ≠ .bss) :
    (st.setUninit u).load s = (st.load s).map fun st => st.setUninit u := by
  unfold load
  cases hk : s.kind with
  | empty => rfl
  | text =>
      dsimp only
      rw [copy_setUninit]
      cases st.copy s <;> rfl
  | data =>
      dsimp only
      rw [show (st.setUninit u).noffH.initData = st.noffH.initData from rfl]
      split
      · rfl
      · rw [copy_setUninit]
        cases st.copy s <;> rfl
  | bss => exact absurd hk h
  | unknown => rfl

theorem load_empty (h : s.kind = .empty) : st.load s = .ok st := by
  rw [load, h]

/-- A section of uninitialised data is rejected where it fits, and recorded where it does not. -/
theorem load_bss (h : s.kind = .bss) :
    (st.setUninit u).load s =
      if u.size ≠ 0 ∧ s.s_paddr = u.virtualAddr + u.size then .error .bothBss
      else .ok (st.setUninit (record u s)) := by
  rw [load, h]
  dsimp only [setUninit]
  unfold record
  split_ifs <;> first | rfl | tauto

theorem loadAll_cons {e : Except Reject Locals} (h : st.load s = e) :
    loadAll (s :: sections) st = e.bind fun st => loadAll sections st := by
  rw [loadAll, h]
  cases e <;> rfl

/-- **The loop over all sections** is the loop over those that are copied, beside the records of the
uninitialised data; it rejects a section of uninitialised data that joins on. -/
theorem loadAll_iff : (st.setUninit u).loadAll sections = .ok st' ↔
    ∃ st₁, st.loadAll (copied sections) = .ok st₁ ∧ (∀ b ∈ joins u (bss sections), b = false) ∧
      st' = st₁.setUninit ((bss sections).foldl record u) := by
  induction sections generalizing st u with
  | nil =>
      constructor
      · rintro ⟨⟩
        exact ⟨st, rfl, fun b hb => absurd hb List.not_mem_nil, rfl⟩
      · rintro ⟨st₁, ⟨⟩, -, rfl⟩
        rfl
  | cons s sections ih =>
      by_cases hempty : s.kind = .empty
      · rw [loadAll_cons (load_empty hempty), copied_skip (.inl hempty),
          bss_skip (by rw [hempty]; decide)]
        exact ih
      by_cases hbss : s.kind = .bss
      · rw [loadAll_cons (load_bss hbss), copied_skip (.inr hbss), bss_cons hbss, joins_false]
        by_cases hfit : u.size ≠ 0 ∧ s.s_paddr = u.virtualAddr + u.size
        · rw [if_pos hfit]
          refine iff_of_false (fun h => by cases h) ?_
          rintro ⟨-, -, ⟨hnot, -⟩, -⟩
          exact hnot hfit
        · rw [if_neg hfit, and_iff_right hfit]
          exact ih
      · rw [loadAll_cons (load_copied hbss), copied_cons hempty hbss, bss_skip hbss]
        cases hload : st.load s with
        | error e =>
            rw [loadAll_cons hload]
            refine iff_of_false (fun h => by cases h) ?_
            rintro ⟨st₁, h, -⟩
            cases h
        | ok st₂ =>
            rw [loadAll_cons hload]
            exact ih

end Locals

/-! ### The output -/

/-- The header of a NOFF file, as the loader reads it. -/
def header (noff : List Byte) : NoffHeader := (Executable.mk noff fun _ => 0).noffHeader

theorem length_headerBytes (h : NoffHeader) : (headerBytes h).length = sizeofNoffHeader := by
  simp [headerBytes]

/-- A word of the machine is one of `Lib`. -/
theorem ofNat_loadLE (f : Nat → Byte) (a : Nat) :
    BitVec.ofNat 32 (Machine.loadLE f a 4) = wordAt f a := by
  apply BitVec.eq_of_toNat_eq
  unfold wordAt
  have hlt : ∀ i, (f i).toNat < 2 ^ 8 := fun i => (f i).isLt
  rw [BitVec.toNat_append, BitVec.toNat_append, BitVec.toNat_append, BitVec.toNat_ofNat,
    ← Nat.shiftLeft_add_eq_or_of_lt (hlt a), ← Nat.shiftLeft_add_eq_or_of_lt (hlt (a + 1)),
    ← Nat.shiftLeft_add_eq_or_of_lt (hlt (a + 2))]
  simp only [Machine.loadLE, Nat.shiftLeft_eq, Nat.add_assoc a, Nat.reduceAdd]
  have h₀ := hlt a
  have h₁ := hlt (a + 1)
  have h₂ := hlt (a + 2)
  have h₃ := hlt (a + 3)
  omega

theorem header_eq {noff : List Byte} {h : NoffHeader}
    (hb : ∀ x < sizeofNoffHeader, noff[x]? = (headerBytes h)[x]?) : header noff = h := by
  have hword : ∀ i < 10, (Executable.mk noff fun _ => 0).headerWord (4 * i) =
      (headerWords h).getD i 0 := by
    intro i hi
    rw [Executable.headerWord, ofNat_loadLE]
    apply wordAt_eq
    intro k hk
    have hx : 4 * i + k < sizeofNoffHeader := by
      unfold sizeofNoffHeader
      omega
    rw [List.getD_eq_getElem?_getD, hb _ hx, headerBytes, List.getElem?_map,
      List.getElem?_range hx, Option.map_some, Option.getD_some]
    congr 2
    · omega
    · omega
  unfold header Executable.noffHeader
  rw [hword 0 (by decide), hword 1 (by decide), hword 2 (by decide), hword 3 (by decide),
    hword 4 (by decide), hword 5 (by decide), hword 6 (by decide), hword 7 (by decide),
    hword 8 (by decide), hword 9 (by decide)]
  rfl

section
variable {stack : NoffHeader} {coff out : List Byte} {sections : List Scnhdr} {fdIn : Fd}

/-- The header is written over the gap, and that does not fail. -/
theorem write_header (fd : Fd) (h : NoffHeader) :
    (fd.lseek 0).Write (headerBytes h) sizeofNoffHeader =
      .ok ⟨writeFile fd.content 0 (headerBytes h), sizeofNoffHeader⟩ := by
  have hfit : (0 : Int) ≤ sizeofNoffHeader ∧
      ((fd.lseek 0).offset : Int) + sizeofNoffHeader < 2 ^ 31 :=
    ⟨by decide, (by decide : ((0 : Nat) : Int) + sizeofNoffHeader < 2 ^ 31)⟩
  have htake : (headerBytes h).take (sizeofNoffHeader : Int).toNat = headerBytes h :=
    List.take_of_length_le (by rw [length_headerBytes]; rfl)
  unfold Fd.Write Fd.write
  rw [if_pos hfit, htake]
  dsimp only
  rw [if_neg (not_not.mpr rfl)]
  rfl

/-- **When the converter succeeds**, and with what. -/
theorem main_iff (hr : readSections ⟨coff, 0⟩ = .ok (sections, fdIn)) :
    main stack coff = .ok out ↔ ∃ st, (Locals.start stack fdIn).loadAll (copied sections) = .ok st ∧
      (∀ b ∈ joins (Locals.start stack fdIn).noffH.uninitData (bss sections), b = false) ∧
      out = writeFile st.fdOut.content 0 (headerBytes (st.setUninit
        ((bss sections).foldl record (Locals.start stack fdIn).noffH.uninitData)).noffH) := by
  have hmain : main stack coff = .ok out ↔
      ∃ st, ((Locals.start stack fdIn).setUninit (Locals.start stack fdIn).noffH.uninitData).loadAll
        sections = .ok st ∧ out = writeFile st.fdOut.content 0 (headerBytes st.noffH) := by
    rw [main, hr]
    dsimp only
    rw [show (Locals.start stack fdIn).setUninit (Locals.start stack fdIn).noffH.uninitData =
      Locals.start stack fdIn from rfl]
    cases (Locals.start stack fdIn).loadAll sections with
    | error e =>
        refine iff_of_false (fun h => by cases h) ?_
        rintro ⟨st, h, -⟩
        cases h
    | ok st =>
        dsimp only
        rw [write_header]
        constructor
        · rintro ⟨⟩
          exact ⟨st, rfl, rfl⟩
        · rintro ⟨st, ⟨⟩, rfl⟩
          rfl
  rw [hmain]
  constructor
  · rintro ⟨st, h, rfl⟩
    obtain ⟨st₁, h₁, hj, rfl⟩ := Locals.loadAll_iff.mp h
    exact ⟨st₁, h₁, hj, rfl⟩
  · rintro ⟨st₁, h₁, hj, rfl⟩
    exact ⟨_, Locals.loadAll_iff.mpr ⟨st₁, h₁, hj, rfl⟩, rfl⟩

/-- The loader finds the header that was written. -/
theorem header_writeFile (content : List Byte) (h : NoffHeader) :
    header (writeFile content 0 (headerBytes h)) = h := by
  refine header_eq fun x hx => ?_
  have hx' : x < (headerBytes h).length := by rwa [length_headerBytes]
  have hget : (writeFile content 0 (headerBytes h))[0 + x]? = (headerBytes h)[x]? :=
    getElem?_writeFile_inside hx'
  rwa [Nat.zero_add] at hget

/-! ### Uninitialised data -/

/-- The addresses of a range. -/
def addresses (virtualAddr size : Word) : Set Int :=
  {x | virtualAddr.toInt ≤ x ∧ x < virtualAddr.toInt + size.toInt}

/-- Nothing is recorded. -/
def unrecorded : Segment := ⟨0, 0, 0⟩

/-- **Uninitialised data as it is documented**: the converter succeeds when each further section
starts where the range that is recorded before it ends, and only then; and the range it then writes
is the union of the sections. -/
structure BssDocumented (stack : NoffHeader) (coff : List Byte) (sections : List Scnhdr) :
    Prop where
  succeeds : (∃ out, main stack coff = .ok out) ↔ ∀ b ∈ joins unrecorded (bss sections), b = true
  union : ∀ out, main stack coff = .ok out →
    addresses (header out).uninitData.virtualAddr (header out).uninitData.size =
      {x | ∃ s ∈ bss sections, x ∈ addresses s.s_paddr s.s_size}

theorem joins_congr {u v : Segment} {l : List Scnhdr} (ha : u.virtualAddr = v.virtualAddr)
    (hs : u.size = v.size) : joins u l = joins v l := by
  induction l generalizing u v with
  | nil => rfl
  | cons s l ih =>
      have hrec : joins (record u s) l = joins (record v s) l := by
        unfold record
        rw [hs]
        split
        · exact ih ha rfl
        · exact ih rfl rfl
      rw [joins, joins, hrec, ha, hs]

/-- While nothing is recorded, what stands in the other fields does not matter. -/
theorem joins_unrecorded {u : Segment} (hs : u.size = 0) (l : List Scnhdr) :
    joins u l = joins unrecorded l := by
  cases l with
  | nil => rfl
  | cons s l =>
      have hnot : ¬ u.size ≠ 0 := not_not.mpr hs
      rw [joins, joins, if_neg hnot, if_neg (by decide)]
      unfold record
      rw [if_neg hnot, if_neg (by decide)]
      exact joins_congr rfl rfl

theorem bss_size_ne_zero {s : Scnhdr} (h : s ∈ bss sections) : s.s_size ≠ 0 := by
  have hk : s.kind = .bss := by simpa using (List.mem_filter.mp h).2
  intro he
  rw [Scnhdr.kind, if_pos he] at hk
  cases hk

/-- There is a further section as soon as there are two. -/
theorem joins_eq_nil_iff : joins unrecorded (bss sections) = [] ↔ (bss sections).length ≤ 1 := by
  have hne : ∀ s ∈ bss sections, s.s_size ≠ 0 := fun s => bss_size_ne_zero
  cases hl : bss sections with
  | nil => simp [joins]
  | cons s l =>
      cases l with
      | nil => simp [joins, unrecorded]
      | cons t l =>
          have hs : s.s_size ≠ 0 := hne s (by rw [hl]; exact List.mem_cons_self)
          refine iff_of_false (fun h => ?_) (by simp)
          rw [joins, if_neg (by decide), joins,
            if_pos (show (record unrecorded s).size ≠ 0 from hs)] at h
          cases h

/-- All are false and all are true at once, or neither. -/
theorem all_false_iff_all_true {l : List Bool} :
    ((∀ b ∈ l, b = false) ↔ ∀ b ∈ l, b = true) ↔ l = [] ∨ (true ∈ l ∧ false ∈ l) := by
  constructor
  · intro h
    by_cases ht : true ∈ l
    · refine .inr ⟨ht, ?_⟩
      by_contra hf
      have hall : ∀ b ∈ l, b = true := fun b hb => by
        cases b with
        | false => exact absurd hb hf
        | true => rfl
      exact absurd (h.mpr hall true ht) (by decide)
    · have hall : ∀ b ∈ l, b = false := fun b hb => by
        cases b with
        | false => rfl
        | true => exact absurd hb ht
      refine .inl (List.eq_nil_iff_forall_not_mem.mpr fun b hb => ?_)
      exact absurd ((hall b hb).symm.trans (h.mp hall b hb)) (by decide)
  · rintro (rfl | ⟨ht, hf⟩)
    · exact iff_of_true (fun b hb => absurd hb List.not_mem_nil)
        fun b hb => absurd hb List.not_mem_nil
    · exact iff_of_false (fun h => absurd (h true ht) (by decide))
        fun h => absurd (h false hf) (by decide)

/-- Of one section at most its own range is recorded. -/
theorem addresses_recorded {u : Segment} (hu : u.size = 0) (hone : (bss sections).length ≤ 1) :
    addresses ((bss sections).foldl record u).virtualAddr ((bss sections).foldl record u).size =
      {x | ∃ s ∈ bss sections, x ∈ addresses s.s_paddr s.s_size} := by
  cases hl : bss sections with
  | nil =>
      ext x
      simp [addresses, hu]
  | cons s l =>
      rw [hl, List.length_cons] at hone
      obtain rfl : l = [] := List.length_eq_zero_iff.mp (by omega)
      ext x
      simp [record, hu]

/-- **Uninitialised data comes out as documented exactly when there is at most one section of it, or
when one of the further sections joins on and another does not.**  The file gives no other reason to
reject it: its headers can be read, and so can the sections that are copied. -/
theorem bss_documented_iff (hr : readSections ⟨coff, 0⟩ = .ok (sections, fdIn))
    (hother : ∃ st, (Locals.start stack fdIn).loadAll (copied sections) = .ok st) :
    BssDocumented stack coff sections ↔ (bss sections).length ≤ 1 ∨
      (true ∈ joins unrecorded (bss sections) ∧ false ∈ joins unrecorded (bss sections)) := by
  obtain ⟨st, hst⟩ := hother
  have hsucc : (∃ out, main stack coff = .ok out) ↔
      ∀ b ∈ joins unrecorded (bss sections), b = false := by
    rw [← joins_unrecorded (u := (Locals.start stack fdIn).noffH.uninitData) rfl]
    constructor
    · rintro ⟨out, h⟩
      exact ((main_iff hr).mp h).choose_spec.2.1
    · intro hj
      exact ⟨_, (main_iff hr).mpr ⟨st, hst, hj, rfl⟩⟩
  constructor
  · rintro ⟨hdoc, -⟩
    rw [← joins_eq_nil_iff]
    exact all_false_iff_all_true.mp (hsucc.symm.trans hdoc)
  · rintro (hone | ⟨ht, hf⟩)
    · have hnil := joins_eq_nil_iff.mpr hone
      refine ⟨hsucc.trans (all_false_iff_all_true.mpr (.inl hnil)), fun out h => ?_⟩
      obtain ⟨st, -, -, rfl⟩ := (main_iff hr).mp h
      rw [header_writeFile]
      exact addresses_recorded rfl hone
    · refine ⟨hsucc.trans (all_false_iff_all_true.mpr (.inr ⟨ht, hf⟩)), fun out h => ?_⟩
      -- a section that joins on is rejected
      exact absurd (hsucc.mp ⟨out, h⟩ true ht) (by decide)

end

/-! Files to try the converter on. -/

/-- A section header in a file. -/
def scnhdrBytes (s : Scnhdr) : List Byte :=
  let long (w : Word) : List Byte := (List.range 4).map (byteOf w)
  CString.strncpy 8 s.s_name ++ long s.s_paddr ++ long 0 ++ long s.s_size ++ long s.s_scnptr ++
    List.replicate 16 0

/-- A COFF file with these sections, and `rest` behind their headers. -/
def coffFile (sections : List Scnhdr) (rest : List Byte) : List Byte :=
  [0x62, 0x01, BitVec.ofNat 8 sections.length, 0] ++ List.replicate 16 0 ++
    [0x07, 0x01] ++ List.replicate 54 0 ++ sections.flatMap scnhdrBytes ++ rest

/-- `.sbss`, sixteen bytes at 256. -/
def sbssSection : Scnhdr := ⟨[0x2e, 0x73, 0x62, 0x73, 0x73, 0, 0, 0], 0x100, 0x10, 0⟩

/-- `.bss`, just behind it. -/
def bssSection : Scnhdr := ⟨[0x2e, 0x62, 0x73, 0x73, 0, 0, 0, 0], 0x110, 0x20, 0⟩

/-- A stack full of zeros. -/
def zeroHeader : NoffHeader := ⟨0, ⟨0, 0, 0⟩, ⟨0, 0, 0⟩, ⟨0, 0, 0⟩⟩

/-- Another `.bss`, which does not join on. -/
def farSection : Scnhdr := { bssSection with s_paddr := 0x200 }

/-- One section alone is recorded; and three, of which the second joins on and the third does not, are
to be rejected, as they are. -/
theorem bss_documented_files :
    BssDocumented zeroHeader (coffFile [sbssSection] []) [sbssSection] ∧
      BssDocumented zeroHeader (coffFile [sbssSection, bssSection, farSection] [])
        [sbssSection, bssSection, farSection] := by
  have hr₁ : ∃ fdIn, readSections ⟨coffFile [sbssSection] [], 0⟩ = .ok ([sbssSection], fdIn) :=
    ⟨_, rfl⟩
  have hr₃ : ∃ fdIn, readSections ⟨coffFile [sbssSection, bssSection, farSection] [], 0⟩ =
      .ok ([sbssSection, bssSection, farSection], fdIn) := ⟨_, rfl⟩
  exact ⟨(bss_documented_iff hr₁.choose_spec ⟨_, rfl⟩).mpr (.inl (by decide)),
    (bss_documented_iff hr₃.choose_spec ⟨_, rfl⟩).mpr (.inr (by decide))⟩

/-- Two sections, of which the second starts where the first ends: each further section joins on,
there is no other reason to reject the file, and the converter rejects it. -/
theorem bss_contiguous_rejected :
    (∃ fdIn, readSections ⟨coffFile [sbssSection, bssSection] [], 0⟩ =
        .ok ([sbssSection, bssSection], fdIn) ∧
      ∃ st, (Locals.start zeroHeader fdIn).loadAll (copied [sbssSection, bssSection]) = .ok st) ∧
    (∀ b ∈ joins unrecorded (bss [sbssSection, bssSection]), b = true) ∧
    main zeroHeader (coffFile [sbssSection, bssSection] []) = .error .bothBss ∧
    ¬ BssDocumented zeroHeader (coffFile [sbssSection, bssSection] [])
      [sbssSection, bssSection] := by
  have hjoin : ∀ b ∈ joins unrecorded (bss [sbssSection, bssSection]), b = true := by decide
  have hmain : main zeroHeader (coffFile [sbssSection, bssSection] []) = .error .bothBss := rfl
  refine ⟨⟨_, rfl, _, rfl⟩, hjoin, hmain, fun hdoc => ?_⟩
  obtain ⟨out, hout⟩ := hdoc.succeeds.mpr hjoin
  rw [hmain] at hout
  cases hout

end Nachos.Coff2noff
