import Mathlib.Data.List.Pairwise
import Nachos.Bin.Segments
import Nachos.Userprog.Loader

/-!
# Bin — from the object file to memory

The converter and the loader together: bin/coff2noff.c writes the file that `AddrSpace::AddrSpace`
(userprog/addrspace.cc) reads.  What a process then finds in its address space is described by the
COFF file alone, by `image` and `filePages`.

The address of an absent segment is whatever was on the stack of the converter; it does not matter,
as its size is 0.
-/

namespace Nachos.Coff2noff
open Lib Machine

/-- A section that covers the address. -/
def Scnhdr.Covers (s : Scnhdr) (a : Int) : Prop :=
  s.s_paddr.toInt ≤ a ∧ a < s.s_paddr.toInt + s.s_size.toInt

instance (s : Scnhdr) (a : Int) : Decidable (s.Covers a) := inferInstanceAs (Decidable (_ ∧ _))

/-- The byte of the COFF file for the address `a`: one of the section that covers it, or 0. -/
def image (coff : List Byte) (sections : List Scnhdr) (a : Int) : Byte :=
  match (copied sections).find? fun s => decide (s.Covers a) with
  | some s => coff.getD (s.s_scnptr.toInt.toNat + (a - s.s_paddr.toInt).toNat) 0
  | none => 0

/-- The size of the sections together, in the 32 bits of the header. -/
def totalSize : List Scnhdr → Word
  | [] => 0
  | s :: sections => s.s_size + totalSize sections

/-- The pages of the process: the sections and the stack. -/
def filePages (sections : List Scnhdr) : Nat :=
  divRoundUp (totalSize sections + BitVec.ofNat 32 UserStackSize).toNat PageSize

/-- **An object file as the linker makes them**: there is one `.text` at most, and each section that is
copied has bytes and a position in the file, lies in the address space, and shares no address with
another. -/
structure Linked (sections : List Scnhdr) : Prop where
  text : (sections.countP fun s => s.kind = .text) ≤ 1
  size : ∀ s ∈ copied sections, 0 < s.s_size.toInt
  pointer : ∀ s ∈ copied sections, 0 ≤ s.s_scnptr.toInt
  space : ∀ s ∈ copied sections, 0 ≤ s.s_paddr.toInt ∧
    s.s_paddr.toInt + s.s_size.toInt ≤ filePages sections * PageSize
  apart : (copied sections).Pairwise fun s t => ∀ a, ¬ (s.Covers a ∧ t.Covers a)

theorem Linked.located {sections : List Scnhdr} (h : Linked sections) : Located sections :=
  ⟨fun s hs _ => h.pointer s hs, List.Pairwise.imp_of_mem (fun hs _ _ _ => h.size _ hs)
    (List.pairwise_of_forall fun _ _ => trivial)⟩

/-- No address is covered twice. -/
theorem Linked.unique {sections : List Scnhdr} (h : Linked sections) {s t : Scnhdr} {a : Int}
    (hs : s ∈ copied sections) (ht : t ∈ copied sections) (hsa : s.Covers a) (hta : t.Covers a) :
    s = t := by
  by_contra hne
  have hsymm : Std.Symm fun s t : Scnhdr => ∀ a, ¬ (s.Covers a ∧ t.Covers a) :=
    ⟨fun s t hst a hts => hst a ⟨hts.2, hts.1⟩⟩
  exact h.apart.forall hs ht hne a ⟨hsa, hta⟩

section
variable {stack : NoffHeader} {coff out : List Byte} {sections l : List Scnhdr} {fdIn : Fd}
  {st st' : Locals} {s : Scnhdr} {u : Segment}

/-! ### The header that is written -/

/-- What the loop keeps. -/
theorem loadAll_keeps (hl : ∀ s ∈ l, s.kind ≠ .empty ∧ s.kind ≠ .bss)
    (hlt : st.fdOut.offset < 2 ^ 31) (h : st.loadAll l = .ok st') :
    st'.fdOut.offset < 2 ^ 31 ∧ st'.noffH.noffMagic = st.noffH.noffMagic := by
  induction l generalizing st with
  | nil =>
      cases h
      exact ⟨hlt, rfl⟩
  | cons s l ih =>
      obtain ⟨st₁, hload, hrest⟩ := loadAll_cons_ok h
      rw [List.forall_mem_cons] at hl
      have hc := (load_spec hl.1 hload).1
      have hlt₁ : st₁.fdOut.offset < 2 ^ 31 := by
        rcases hc.output with ⟨-, hout⟩ | ⟨buffer, -, hfit, -, hout⟩
        · rw [hout]
          exact hlt
        · rw [hout]
          exact hfit
      obtain ⟨h₁, h₂⟩ := ih hl.2 hlt₁ hrest
      refine ⟨h₁, h₂.trans ?_⟩
      rw [hc.noffH]
      unfold place
      split <;> rfl

theorem size_record (u : Segment) (s : Scnhdr) : (record u s).size = u.size + s.s_size := by
  unfold record
  split
  · rfl
  · rename_i h
    rw [not_not.mp h]
    exact (BitVec.zero_add _).symm

theorem totalSize_singleton (s : Scnhdr) : totalSize [s] = s.s_size := BitVec.add_zero _

theorem size_foldl_record (l : List Scnhdr) (u : Segment) :
    (l.foldl record u).size = u.size + totalSize l := by
  induction l generalizing u with
  | nil => exact (BitVec.add_zero _).symm
  | cons s l ih =>
      rw [List.foldl_cons, ih, size_record, totalSize, BitVec.add_assoc]

/-- The sections that are not copied and not recorded are empty. -/
theorem sum_sizes (sections : List Scnhdr) : totalSize sections =
    totalSize (copied sections) + totalSize (bss sections) := by
  induction sections with
  | nil => rfl
  | cons s l ih =>
      rw [totalSize, ih]
      by_cases hempty : s.kind = .empty
      · have hzero : s.s_size = 0 := by
          by_contra hne
          unfold Scnhdr.kind at hempty
          rw [if_neg hne] at hempty
          split_ifs at hempty
        rw [copied_skip (.inl hempty), bss_skip (by rw [hempty]; exact Kind.noConfusion), hzero]
        exact BitVec.zero_add _
      by_cases hbss : s.kind = .bss
      · rw [copied_skip (.inr hbss), bss_cons hbss, totalSize]
        ac_rfl
      · rw [copied_cons hempty hbss, bss_skip hbss, totalSize, BitVec.add_assoc]

/-- The header is written to the start of the file. -/
theorem length_writeFile_start (content : List Byte) (h : NoffHeader) :
    (Syscall.writeFile content 0 (headerBytes h)).length = max content.length sizeofNoffHeader := by
  have hne : headerBytes h ≠ [] := List.ne_nil_of_length_pos (by rw [length_headerBytes]; decide)
  rw [Syscall.writeFile, if_neg hne, List.length_append, List.length_append, Syscall.length_gap,
    List.length_drop, length_headerBytes]
  omega

/-- What a converter that succeeds has written. -/
theorem Linked.laid (h : Linked sections) (hr : readSections ⟨coff, 0⟩ = .ok (sections, fdIn))
    (hmain : main stack coff = .ok out) : ∃ st u, Laid coff (copied sections) st ∧
      ((copied sections).map Scnhdr.kind).Nodup ∧
      (∀ s ∈ copied sections, s.kind = .text ∨ s.kind = .data) ∧
      u.size = totalSize (bss sections) ∧ header out = (st.setUninit u).noffH ∧
      (header out).noffMagic = NOFFMAGIC ∧ sizeofNoffHeader ≤ out.length ∧ out.length < 2 ^ 31 := by
  obtain ⟨st, hrun, -, hout⟩ := (main_iff hr).mp hmain
  obtain ⟨hk, hnodup⟩ := copied_kinds h.text hrun
  have hmem : ∀ s ∈ copied sections, s.kind ≠ .empty ∧ s.kind ≠ .bss := fun s hs => (mem_copied hs).2
  have hlaid : Laid coff (copied sections) st :=
    (laid_start (readSections_content hr)).loadAll hrun hmem (fun s hs => absurd hs List.not_mem_nil)
      hnodup h.located.1 h.located.2
  obtain ⟨hlt, hmagic⟩ := loadAll_keeps hmem (by show sizeofNoffHeader < 2 ^ 31; decide) hrun
  have hlen := hlaid.length
  have hmax := length_writeFile_start st.fdOut.content (st.setUninit
    ((bss sections).foldl record (Locals.start stack fdIn).noffH.uninitData)).noffH
  have hsizeof : sizeofNoffHeader = 40 := rfl
  rw [← hout] at hmax
  have hheader := header_writeFile st.fdOut.content (st.setUninit
    ((bss sections).foldl record (Locals.start stack fdIn).noffH.uninitData)).noffH
  rw [← hout] at hheader
  refine ⟨st, _, hlaid, hnodup, hk, ?_, hheader, by rw [hheader]; exact hmagic, by omega, by omega⟩
  rw [size_foldl_record]
  exact BitVec.zero_add _

/-- The sizes in the header are those of the sections. -/
theorem Laid.sizes (h : Laid coff l st) (hk : ∀ s ∈ l, s.kind = .text ∨ s.kind = .data)
    (hnodup : (l.map Scnhdr.kind).Nodup) :
    st.noffH.code.size + st.noffH.initData.size = totalSize l := by
  have hin : ∀ s ∈ l, (segment st.noffH s.kind).size = s.s_size := by
    intro s hs
    obtain ⟨a, hseg, -⟩ := h.recorded s hs
    rw [hseg]
  have hcode : (∀ s ∈ l, s.kind ≠ .text) → st.noffH.code.size = 0 := h.absent .text (.inl rfl)
  have hdata : (∀ s ∈ l, s.kind ≠ .data) → st.noffH.initData.size = 0 := h.absent .data (.inr rfl)
  rcases copied_cases hk hnodup with hone | ⟨s, t, rfl⟩
  · match l, hone with
    | [], _ =>
        rw [hcode fun s hs => absurd hs List.not_mem_nil, hdata fun s hs => absurd hs List.not_mem_nil]
        rfl
    | [s], _ =>
        have hs := hin s (List.mem_singleton_self s)
        rw [totalSize_singleton, ← hs]
        rcases hk s (List.mem_singleton_self s) with e | e <;> rw [e]
        · rw [hdata fun t ht => by rw [List.mem_singleton.mp ht, e]; exact Kind.noConfusion]
          exact BitVec.add_zero _
        · rw [hcode fun t ht => by rw [List.mem_singleton.mp ht, e]; exact Kind.noConfusion]
          exact BitVec.zero_add _
  · have hs := hin s List.mem_cons_self
    have ht := hin t (List.mem_cons_of_mem _ (List.mem_singleton_self t))
    have hne : s.kind ≠ t.kind := by simpa using hnodup
    rw [totalSize, totalSize_singleton, ← hs, ← ht]
    rcases hk s List.mem_cons_self with e | e <;>
      rcases hk t (List.mem_cons_of_mem _ (List.mem_singleton_self t)) with e' | e' <;> rw [e, e']
    · exact absurd (e.trans e'.symm) hne
    · rfl
    · exact BitVec.add_comm _ _
    · exact absurd (e.trans e'.symm) hne

theorem numPages_eq (hsize : st.noffH.code.size + st.noffH.initData.size =
      totalSize (copied sections))
    (hu : u.size = totalSize (bss sections)) :
    (st.setUninit u).noffH.numPages = filePages sections := by
  unfold NoffHeader.numPages filePages
  rw [sum_sizes, ← hu, ← hsize]
  rfl

/-! ### What the loader reads -/

/-- The header lies in the file, so that the stack of the kernel does not matter. -/
theorem noffHeader_eq (hlen : sizeofNoffHeader ≤ out.length) (kstack : Nat → Byte) :
    (Executable.mk out kstack).noffHeader = header out := by
  have hword : ∀ i < 10, (Executable.mk out kstack).headerWord (4 * i) =
      (Executable.mk out fun _ => 0).headerWord (4 * i) := by
    intro i hi
    unfold Executable.headerWord
    have hsizeof : sizeofNoffHeader = 40 := rfl
    rw [ofNat_loadLE, ofNat_loadLE]
    refine wordAt_congr fun x hx => ?_
    have hx' : 4 * i + x < out.length := by omega
    dsimp only
    rw [List.getD_eq_getElem?_getD, List.getD_eq_getElem?_getD, List.getElem?_eq_getElem hx']
    rfl
  unfold header Executable.noffHeader
  rw [hword 0 (by decide), hword 1 (by decide), hword 2 (by decide), hword 3 (by decide),
    hword 4 (by decide), hword 5 (by decide), hword 6 (by decide), hword 7 (by decide),
    hword 8 (by decide), hword 9 (by decide)]

/-- A segment of the header is that of a section, or there is none. -/
theorem Preserved.segment_cases (h : Preserved coff out sections) {k : Kind}
    (hk : k = .text ∨ k = .data) : (segment (header out) k).size = 0 ∨
      ∃ s ∈ copied sections, s.kind = k ∧ (segment (header out) k).virtualAddr = s.s_paddr ∧
        (segment (header out) k).size = s.s_size ∧
        BytesAt coff out s (segment (header out) k).inFileAddr := by
  by_cases hex : ∃ s ∈ copied sections, s.kind = k
  · obtain ⟨s, hs, rfl⟩ := hex
    exact .inr ⟨s, hs, rfl, h.address s hs, h.size s hs, h.bytes s hs⟩
  · refine .inl (h.absent k hk fun s hs e => hex ⟨s, ?_, e⟩)
    rw [copied, List.mem_filter, decide_eq_true_iff, e]
    rcases hk with rfl | rfl <;> exact ⟨hs, Kind.noConfusion, Kind.noConfusion⟩

theorem inSpace (h : Linked sections) (hp : Preserved coff out sections) {k : Kind}
    (hk : k = .text ∨ k = .data) : (segment (header out) k).InSpace (filePages sections) := by
  intro hsize
  rcases hp.segment_cases hk with hzero | ⟨s, hs, -, haddr, hs', -⟩
  · rw [hzero] at hsize
    cases hsize
  · rw [haddr, hs']
    exact h.space s hs

theorem inFile (hp : Preserved coff out sections) (hlen : out.length < 2 ^ 31) (kstack : Nat → Byte)
    {k : Kind} (hk : k = .text ∨ k = .data) :
    (segment (header out) k).InFile ⟨out, kstack⟩ := by
  intro hsize
  have hlength : (Executable.mk out kstack).length = out.length :=
    asInt_eq (by omega) (by show (out.length : Int) < 2 ^ 31; omega)
  rw [hlength]
  rcases hp.segment_cases hk with hzero | ⟨s, hs, -, -, hs', hbytes⟩
  · rw [hzero] at hsize
    cases hsize
  · -- the last byte of the section is in the file
    rw [hs'] at hsize ⊢
    obtain ⟨-, ha, b, -, hout⟩ := hbytes (s.s_size.toInt.toNat - 1) (by omega)
    have := (List.getElem?_eq_some_iff.mp hout).1
    omega

theorem Linked.disjoint (h : Linked sections) (hp : Preserved coff out sections) (a : Int) :
    ¬ ((header out).code.Covers a ∧ (header out).initData.Covers a) := by
  rintro ⟨hc, hd⟩
  rcases hp.segment_cases (.inl rfl) with hzero | ⟨s, hs, hks, haddr, hsize, -⟩
  · change (header out).code.size = 0 at hzero
    unfold Segment.Covers at hc
    rw [hzero, show (0 : Word).toInt = 0 from rfl] at hc
    omega
  rcases hp.segment_cases (.inr rfl) with hzero | ⟨t, ht, hkt, haddr', hsize', -⟩
  · change (header out).initData.size = 0 at hzero
    unfold Segment.Covers at hd
    rw [hzero, show (0 : Word).toInt = 0 from rfl] at hd
    omega
  have hcov : s.Covers a := by
    unfold Scnhdr.Covers
    rw [← haddr, ← hsize]
    exact hc
  have hcov' : t.Covers a := by
    unfold Scnhdr.Covers
    rw [← haddr', ← hsize']
    exact hd
  obtain rfl := h.unique hs ht hcov hcov'
  rw [hks] at hkt
  cases hkt

/-- The byte of a segment is that of its section. -/
theorem byteAt_eq {seg : Segment} (haddr : seg.virtualAddr = s.s_paddr)
    (hbytes : BytesAt coff out s seg.inFileAddr) (kstack : Nat → Byte) {a : Int} (ha : s.Covers a) :
    (seg.byteAt ⟨out, kstack⟩ a).getD 0 =
      coff.getD (s.s_scnptr.toInt.toNat + (a - s.s_paddr.toInt).toNat) 0 := by
  obtain ⟨h₁, h₂⟩ := ha
  obtain ⟨-, hin, b, hcoff, hout⟩ := hbytes (a - s.s_paddr.toInt).toNat (by omega)
  unfold Segment.byteAt
  rw [haddr, Int.toNat_add hin (by omega), hout, List.getD_eq_getElem?_getD, hcoff]

/-- **The loader finds the program of the COFF file.** -/
theorem image_eq (h : Linked sections) (hp : Preserved coff out sections)
    (hk : ∀ s ∈ copied sections, s.kind = .text ∨ s.kind = .data) (hlen : sizeofNoffHeader ≤ out.length) (kstack : Nat → Byte) (a : Int) :
    (Executable.mk out kstack).image a = image coff sections a := by
  have hsize : ∀ {k : Kind}, k = .text ∨ k = .data → (segment (header out) k).Covers a →
      ∃ s ∈ copied sections, s.kind = k ∧ s.Covers a ∧
        ((segment (header out) k).byteAt ⟨out, kstack⟩ a).getD 0 =
          coff.getD (s.s_scnptr.toInt.toNat + (a - s.s_paddr.toInt).toNat) 0 := by
    intro k hk hc
    rcases hp.segment_cases hk with hzero | ⟨s, hs, hks, haddr, hsize, hbytes⟩
    · unfold Segment.Covers at hc
      rw [hzero, show (0 : Word).toInt = 0 from rfl] at hc
      omega
    · have hcov : s.Covers a := by
        unfold Scnhdr.Covers
        rw [← haddr, ← hsize]
        exact hc
      exact ⟨s, hs, hks, hcov, byteAt_eq haddr hbytes kstack hcov⟩
  have hfind : ∀ s ∈ copied sections, s.Covers a →
      (copied sections).find? (fun s => decide (s.Covers a)) = some s := by
    intro s hs hc
    cases hf : (copied sections).find? fun s => decide (s.Covers a) with
    | none => exact absurd (decide_eq_true hc) (List.find?_eq_none.mp hf s hs)
    | some t =>
        have ht : t.Covers a := by simpa using List.find?_some hf
        rw [h.unique hs (List.mem_of_find?_eq_some hf) hc ht]
  unfold Executable.image image
  rw [noffHeader_eq hlen]
  by_cases hc : (header out).code.Covers a
  · obtain ⟨s, hs, -, hcov, hbyte⟩ := hsize (k := .text) (.inl rfl) hc
    rw [if_pos hc, hfind s hs hcov]
    exact hbyte
  rw [if_neg hc]
  by_cases hd : (header out).initData.Covers a
  · obtain ⟨s, hs, -, hcov, hbyte⟩ := hsize (k := .data) (.inr rfl) hd
    rw [if_pos hd, hfind s hs hcov]
    exact hbyte
  rw [if_neg hd]
  cases hf : (copied sections).find? fun s => decide (s.Covers a) with
  | none => rfl
  | some s =>
      have hs := List.mem_of_find?_eq_some hf
      have hcov : s.Covers a := by simpa using List.find?_some hf
      have hseg : (segment (header out) s.kind).Covers a := by
        unfold Segment.Covers
        rw [hp.address s hs, hp.size s hs]
        exact hcov
      rcases hk s hs with e | e <;> rw [e] at hseg
      · exact absurd hseg hc
      · exact absurd hseg hd

/-- What the loader makes of a file whose segments lie apart, in the address space and in the file. -/
theorem build_reads (exe : Executable) (phys : BitMap NumPhysPages)
    (hm : exe.noffHeader.noffMagic = NOFFMAGIC) (hn : exe.noffHeader.numPages ≤ phys.numClear)
    (hspace : ∀ k, k = .text ∨ k = .data →
      (segment exe.noffHeader k).InSpace exe.noffHeader.numPages)
    (hfile : ∀ k, k = .text ∨ k = .data → (segment exe.noffHeader k).InFile exe)
    (hdisj : ∀ a, ¬ (exe.noffHeader.code.Covers a ∧ exe.noffHeader.initData.Covers a)) :
    ∃ sp phys', AddrSpace.build exe phys = .ok (sp, phys') ∧
      sp.numPages = exe.noffHeader.numPages ∧ Linear sp.pageTable ∧
      ∀ (mem : Nat → Byte) (a : Nat), a < sp.numPages * PageSize →
        sp.load exe mem (physAddr sp.pageTable a) = exe.image a := by
  obtain ⟨pageTable, phys', ha⟩ := allocPages_isSome (i := 0) hn
  have hl := allocPages_linear ha
  have hlen := (allocPages_spec ha).1
  have hle : pageTable.length ≤ NumPhysPages := hlen ▸ hn.trans phys.numClear_le
  have hc := hspace .text (.inl rfl)
  have hd := hspace .data (.inr rfl)
  have hcf := hfile .text (.inl rfl)
  have hdf := hfile .data (.inr rfl)
  obtain ⟨sp, hb, rfl⟩ := build_ok hm hn ha fun r hr => by
    refine SegmentRead.Inside.check_eq hl ?_
    rw [hlen]
    rcases List.mem_append.mp hr with hr | hr
    · exact Segment.inside_of_mem hc hcf (hlen ▸ hle) hr
    · exact Segment.inside_of_mem hd hdf (hlen ▸ hle) hr
  have hnum : sp.numPages = exe.noffHeader.numPages := hlen
  exact ⟨sp, phys', hb, hnum, hl, fun mem a ha =>
    load_physAddr hl hle (hnum ▸ hc) hcf (hnum ▸ hd) hdf hdisj mem ha⟩

/-- A byte of a memory that is mapped. -/
theorem readMem_byte {m : Machine} {pageTable : List TranslationEntry} (hl : Linear pageTable)
    (ht : m.pageTable = some pageTable) (hs : m.pageTableSize = pageTable.length)
    (hn : pageTable.length ≤ NumPhysPages) {a : Nat} (ha : a < pageTable.length * PageSize) :
    ∃ m', readMem (BitVec.ofNat 32 a) 1 m =
      .ok ((m.mainMemory (physAddr pageTable a)).signExtend 32) m' := by
  have hmod : (BitVec.ofNat 32 a).toNat = a := by
    rw [BitVec.toNat_ofNat, Nat.mod_eq_of_lt]
    unfold NumPhysPages PageSize at *
    omega
  have hfits : 1 ∣ (BitVec.ofNat 32 a).toNat ∧
      (BitVec.ofNat 32 a).toNat < pageTable.length * PageSize := ⟨one_dvd _, by rw [hmod]; exact ha⟩
  rcases readMem_eq ⟨pageTable, ⟨ht, hs, hl⟩, rfl⟩ (BitVec.ofNat 32 a) .byte with
    ⟨hno, -⟩ | ⟨-, m', hread, -⟩
  · exact absurd hfits hno
  · rw [wordOf_flat hfits.1 hfits.2, hmod] at hread
    exact ⟨m', hread⟩

/-- **From the object file to memory.**  Where the converter accepts an object file as the linker makes
them, and there are frames enough for its sections and the stack, the loader builds an address space
for the file that was written.  It has a page for each 128 bytes of these; and the process that reads
an address finds there the byte that the object file has for it in `.text` or in its initialised data,
and 0 everywhere else. -/
theorem program_loaded (hr : readSections ⟨coff, 0⟩ = .ok (sections, fdIn))
    (hmain : main stack coff = .ok out) (h : Linked sections) (phys : BitMap NumPhysPages)
    (hframes : filePages sections ≤ phys.numClear) (kstack : Nat → Byte) :
    ∃ sp phys', AddrSpace.build ⟨out, kstack⟩ phys = .ok (sp, phys') ∧
      sp.numPages = filePages sections ∧
      ∀ (mem : Nat → Byte) (m : Machine), m.pageTable = some sp.pageTable →
        m.pageTableSize = sp.numPages → m.mainMemory = sp.load ⟨out, kstack⟩ mem →
        ∀ a, a < filePages sections * PageSize → ∃ m',
          readMem (BitVec.ofNat 32 a) 1 m = .ok ((image coff sections a).signExtend 32) m' := by
  obtain ⟨st, u, hlaid, hnodup, hk, hu, hheader, hmagic, hlen, hlt⟩ := h.laid hr hmain
  have hp := preserved_of_located hr h.text hmain h.located
  have hnoff : (Executable.mk out kstack).noffHeader = header out := noffHeader_eq hlen kstack
  have hnum : (header out).numPages = filePages sections := by
    rw [hheader]
    exact numPages_eq (hlaid.sizes hk hnodup) hu
  obtain ⟨sp, phys', hb, hpages, hl, hload⟩ := build_reads ⟨out, kstack⟩ phys
    (by rw [hnoff, hmagic]) (by rw [hnoff, hnum]; exact hframes)
    (fun k hk' => by rw [hnoff, hnum]; exact inSpace h hp hk')
    (fun k hk' => by rw [hnoff]; exact inFile hp hlt kstack hk')
    (by rw [hnoff]; exact h.disjoint hp)
  rw [hnoff, hnum] at hpages
  refine ⟨sp, phys', hb, hpages, fun mem m ht hs hmem a ha => ?_⟩
  rw [← hpages] at ha
  have hle : sp.pageTable.length ≤ NumPhysPages := by
    rw [show sp.pageTable.length = filePages sections from hpages]
    exact hframes.trans phys.numClear_le
  obtain ⟨m', hread⟩ := readMem_byte hl ht hs hle ha
  refine ⟨m', ?_⟩
  rw [hread, hmem, hload mem a ha, image_eq h hp hk hlen]

end

/-- The code at 0 and the initialised data at 128 of the file that has both. -/
theorem program_loaded_two : ∃ out sp phys',
    main zeroHeader twoSegments = .ok out ∧
    AddrSpace.build ⟨out, fun _ => 0⟩ (BitMap.new fun _ => 0) = .ok (sp, phys') ∧ sp.numPages = 9 ∧
    image twoSegments [textSection 161, dataSection] 2 = 3 ∧
    image twoSegments [textSection 161, dataSection] 129 = 8 ∧
    ∀ (mem : Nat → Byte) (m : Machine), m.pageTable = some sp.pageTable →
      m.pageTableSize = sp.numPages → m.mainMemory = sp.load ⟨out, fun _ => 0⟩ mem →
      ∀ a, a < 9 * PageSize → ∃ m', readMem (BitVec.ofNat 32 a) 1 m =
        .ok ((image twoSegments [textSection 161, dataSection] a).signExtend 32) m' := by
  obtain ⟨fdIn, hr⟩ : ∃ fdIn, readSections ⟨twoSegments, 0⟩ =
      .ok ([textSection 161, dataSection], fdIn) := ⟨_, rfl⟩
  obtain ⟨out, hmain⟩ : ∃ out, main zeroHeader twoSegments = .ok out := ⟨_, rfl⟩
  have hpages : filePages [textSection 161, dataSection] = 9 := by decide +kernel
  have hlinked : Linked [textSection 161, dataSection] := by
    refine ⟨by decide, by decide, by decide, by rw [hpages]; decide, ?_⟩
    rw [show copied [textSection 161, dataSection] = [textSection 161, dataSection] from rfl,
      List.pairwise_pair]
    rintro a ⟨⟨-, h₁⟩, h₂, -⟩
    have h₁' : a < 0 + 4 := h₁
    have h₂' : 128 ≤ a := h₂
    omega
  obtain ⟨sp, phys', hb, hp, hread⟩ := program_loaded hr hmain hlinked
    (BitMap.new fun _ => 0) (by rw [hpages]; decide +kernel) fun _ => 0
  rw [hpages] at hp hread
  exact ⟨out, sp, phys', hmain, hb, hp, by decide +kernel, by decide +kernel, hread⟩

end Nachos.Coff2noff
