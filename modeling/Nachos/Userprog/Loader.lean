import Nachos.Userprog.FlatMemory

/-!
# Userprog — the loader

What `AddrSpace::AddrSpace` (userprog/addrspace.cc) does with the segments of a NOFF file.  A
segment is loaded page by page: the first and the last page in part, those between whole.

`mem_reads` says which reads load a segment; each of them writes into the frame of its own page
(`SegmentRead.Inside`) where the segment fits in the address space.  `load_image` says what the
constructor then leaves in memory, and `safe_iff` that it writes nowhere but in the frames it has
taken if and only if both segments fit.
-/

namespace Nachos
open Machine

theorem ofInt_toNat {i : Int} (h₁ : 0 ≤ i) (h₂ : i < 2 ^ 32) : (BitVec.ofInt 32 i).toNat = i.toNat := by
  rw [BitVec.toNat_ofInt]
  congr 1
  exact Int.emod_eq_of_lt h₁ h₂

namespace Segment

/-- The address is one of the segment. -/
def Covers (s : Segment) (a : Int) : Prop :=
  s.virtualAddr.toInt ≤ a ∧ a < s.virtualAddr.toInt + s.size.toInt

instance (s : Segment) (a : Int) : Decidable (s.Covers a) := inferInstanceAs (Decidable (_ ∧ _))

/-- The read of the first page of a segment. -/
def firstRead (s : Segment) : SegmentRead where
  page := s.virtualAddr.toInt.tdiv PageSize
  off := s.virtualAddr.toInt.tmod PageSize
  n := min s.size.toInt (PageSize - s.virtualAddr.toInt.tmod PageSize)
  pos := s.inFileAddr.toInt

/-- The read of a later page. -/
def readOf (s : Segment) (p : Int) : SegmentRead where
  page := p
  off := 0
  n := min PageSize (s.virtualAddr.toInt + s.size.toInt - p * PageSize)
  pos := asInt (s.inFileAddr.toInt + (p * PageSize - s.virtualAddr.toInt))

end Segment

section
variable {s : Segment}

theorem firstRead_mem (h : 0 < s.size.toInt) : s.firstRead ∈ s.reads := by
  have hp : ((PageSize : Nat) : Int) = 128 := rfl
  unfold Segment.reads Segment.firstRead
  rw [if_neg (by omega), hp]
  simp only [List.mem_cons]
  refine .inl ?_
  split <;> congr 1 <;> omega

/-- **The reads of a segment**, where it starts in no page below the first one and its end does not
overflow: one for each page. -/
theorem mem_reads (h₀ : 0 < s.size.toInt) (h₁ : -PageSize < s.virtualAddr.toInt)
    (h₂ : s.virtualAddr.toInt + s.size.toInt < 2 ^ 31) (r : SegmentRead) :
    r ∈ s.reads ↔ r = s.firstRead ∨ ∃ p, s.virtualAddr.toInt.tdiv PageSize < p ∧
      p ≤ (s.virtualAddr.toInt + s.size.toInt - 1) / PageSize ∧ r = s.readOf p := by
  have hp : ((PageSize : Nat) : Int) = 128 := rfl
  have hend : (s.virtualAddr + s.size).toInt = s.virtualAddr.toInt + s.size.toInt := by
    rw [BitVec.toInt_add]
    exact Int.bmod_eq_of_le (by omega) (by omega)
  obtain ⟨ha, ha₀, ha₁⟩ := tdiv_add_tmod s.virtualAddr.toInt
  obtain ⟨hs, hs₀, hs₁⟩ := tdiv_add_tmod (s.virtualAddr.toInt + s.size.toInt)
  unfold Segment.reads Segment.firstRead Segment.readOf
  rw [if_neg (by omega), hend]
  simp only [hp] at h₁ ⊢
  generalize s.virtualAddr.toInt = a at *
  generalize s.size.toInt = n at *
  generalize a.tdiv 128 = first at *
  generalize a.tmod 128 = off at *
  generalize (a + n).tdiv 128 = last at *
  generalize (a + n).tmod 128 = rest at *
  by_cases hone : 128 - off < n
  · -- more than one page
    rw [if_pos hone]
    dsimp only
    rw [ofInt_toNat (by omega) (by omega), ofInt_toNat (by omega) (by omega), List.mem_cons,
      List.mem_append]
    refine or_congr (by rw [show min n (128 - off) = 128 - off by omega, Int.sub_sub_self]) ?_
    simp only [List.mem_map, List.mem_range'_1]
    constructor
    · rintro (h | ⟨i, hi, rfl⟩)
      · split at h
        · obtain rfl := List.mem_singleton.mp h
          refine ⟨last, by omega, by omega, ?_⟩
          congr 1
          · omega
          · congr 1
            omega
        · cases h
      · refine ⟨i, by omega, by omega, ?_⟩
        congr 1
        · omega
        · congr 1
          omega
    · rintro ⟨p, hp₁, hp₂, rfl⟩
      by_cases hl : p = last
      · refine .inl ?_
        rw [if_pos (by omega), List.mem_singleton, hl]
        congr 1
        · omega
        · congr 1
          omega
      · refine .inr ⟨p.toNat, by omega, ?_⟩
        rw [Int.toNat_of_nonneg (by omega)]
        congr 1
        · omega
        · congr 1
          omega
  · -- one page
    rw [if_neg hone]
    dsimp only
    rw [Nat.sub_self, if_neg (by simp), show min n (128 - off) = n by omega, Int.sub_sub_self]
    simp only [List.range'_zero, List.map_nil, List.append_nil, List.mem_singleton]
    refine ⟨.inl, ?_⟩
    rintro (h | ⟨p, hp₁, hp₂, -⟩)
    · exact h
    · omega

end

/-! ### The frames of the page table -/

/-- The loop finds its frames where enough are clear. -/
theorem allocPages_isSome {n i : Nat} {b : BitMap NumPhysPages} (h : n ≤ b.numClear) :
    ∃ entries b', allocPages n i b = some (entries, b') := by
  induction n generalizing i b with
  | zero => exact ⟨[], b, rfl⟩
  | succ n ih =>
      rcases BitMap.find_spec b with ⟨f, hf, hc, -⟩ | ⟨-, hall⟩
      · obtain ⟨entries, b', hr⟩ := ih (i := i + 1) (b := b.mark f) (by
          have := BitMap.numClear_mark hc
          omega)
        exact ⟨_, _, by rw [allocPages, hf]; dsimp only; rw [hr]⟩
      · have hz : b.numClear = 0 := by
          rw [BitMap.numClear_eq, Finset.card_eq_zero, BitMap.clears]
          exact Finset.filter_false_of_mem fun i _ => by simp [hall i]
        omega

/-- `Find` takes the frames from below. -/
theorem allocPages_pairwise {n i : Nat} {b b' : BitMap NumPhysPages}
    {entries : List TranslationEntry} (h : allocPages n i b = some (entries, b')) :
    (entries.map TranslationEntry.physicalPage).Pairwise (· < ·) := by
  induction n generalizing i b entries with
  | zero =>
      cases h
      exact .nil
  | succ n ih =>
      rcases BitMap.find_spec b with ⟨f, hf, -, hlt⟩ | ⟨hf, -⟩
      · rw [allocPages, hf] at h
        dsimp only at h
        split at h
        · cases h
        rename_i rest b₂ hr
        cases h
        rw [List.map_cons, List.pairwise_cons]
        refine ⟨fun g hg => ?_, ih hr⟩
        obtain ⟨e, he, rfl⟩ := List.mem_map.mp hg
        have hg' := allocPages_inRange hr e he
        by_contra hle
        -- the frames up to `f` are marked by now
        refine (allocPages_spec hr).2.2.1 _ hg ⟨hg', ?_⟩
        rcases eq_or_lt_of_le (not_lt.mp hle) with heq | hlt'
        · rw [BitMap.test_mark, Bool.or_eq_true, decide_eq_true_eq]
          exact .inl (Fin.ext heq)
        · rw [BitMap.test_mark, Bool.or_eq_true]
          exact .inr (hlt _ hlt')
      · rw [allocPages, hf] at h
        cases h

/-! ### One read -/

namespace SegmentRead

/-- The virtual address at which a read starts. -/
def start (r : SegmentRead) : Int := r.page * PageSize + r.off

/-- The read puts a byte at the virtual address `v`. -/
def Writes (r : SegmentRead) (v : Int) : Prop := r.start ≤ v ∧ v < r.start + r.n

instance (r : SegmentRead) (v : Int) : Decidable (r.Writes v) := inferInstanceAs (Decidable (_ ∧ _))

/-- The read stays in its page, which is one of the first `numPages`. -/
structure Inside (r : SegmentRead) (numPages : Nat) : Prop where
  page_nonneg : 0 ≤ r.page
  page_lt : r.page < numPages
  off_nonneg : 0 ≤ r.off
  pos_n : 0 < r.n
  off_le : r.off + r.n ≤ PageSize
  pos_nonneg : 0 ≤ r.pos

end SegmentRead

section
variable {exe : Executable} {pageTable : List TranslationEntry} {r : SegmentRead}

theorem getElem?_readAt (exe : Executable) (numBytes position : Int) (k : Nat) :
    (exe.readAt numBytes position)[k]? =
      if (k : Int) < numBytes then exe.bytes[position.toNat + k]? else none := by
  unfold Executable.readAt
  rw [List.getElem?_take, List.getElem?_drop]
  exact if_congr (by omega) rfl rfl

theorem readAt_length_le (exe : Executable) {numBytes : Int} (position : Int) (h : 0 ≤ numBytes) :
    ((exe.readAt numBytes position).length : Int) ≤ numBytes := by
  unfold Executable.readAt
  rw [List.length_take]
  omega

theorem physAddr_mod (pageTable : List TranslationEntry) (v : Nat) :
    physAddr pageTable v % PageSize = v % PageSize := by
  rw [physAddr, Nat.mul_add_mod_of_lt (Nat.mod_lt _ (by decide))]

theorem physAddr_div (pageTable : List TranslationEntry) (v : Nat) : physAddr pageTable v / PageSize =
    pageTable[v / PageSize]?.elim 0 TranslationEntry.physicalPage := by
  rw [physAddr, Nat.mul_comm, Nat.mul_add_div (by decide),
    Nat.div_eq_of_lt (Nat.mod_lt _ (by decide)), Nat.add_zero]

/-- The frame of a page is one of the table. -/
theorem physAddr_frame {v : Nat} (hv : v < pageTable.length * PageSize) :
    physAddr pageTable v / PageSize ∈ pageTable.map TranslationEntry.physicalPage := by
  have hv' : v / PageSize < pageTable.length := (Nat.div_lt_iff_lt_mul (by decide)).mpr hv
  rw [physAddr_div, List.getElem?_eq_getElem hv']
  exact List.mem_map_of_mem (List.getElem_mem hv')

namespace SegmentRead

theorem Inside.start_lt (h : r.Inside pageTable.length) :
    r.start.toNat < pageTable.length * PageSize := by
  obtain ⟨h₁, h₂, h₃, h₄, h₅, -⟩ := h
  unfold start PageSize at *
  omega

/-- A read inside its page writes from the physical address of its start on. -/
theorem Inside.addr_eq (h : r.Inside pageTable.length) :
    r.addr pageTable = physAddr pageTable r.start.toNat := by
  obtain ⟨h₁, -, h₃, h₄, h₅, -⟩ := h
  have hp : ((PageSize : Nat) : Int) = 128 := rfl
  have hdiv : r.start.toNat / PageSize = r.page.toNat := by
    unfold start PageSize at *
    omega
  have hmod : ((r.start.toNat % PageSize : Nat) : Int) = r.off := by
    unfold start PageSize at *
    omega
  rw [addr, physAddr, hdiv, Nat.cast_add, Nat.cast_mul, hmod]

/-- **What a read does to memory**, seen through the page table. -/
theorem Inside.apply_eq (hl : Linear pageTable) (h : r.Inside pageTable.length)
    (mem : Nat → Byte) {v : Nat} (hv : v < pageTable.length * PageSize) :
    r.apply exe pageTable mem (physAddr pageTable v) =
      if r.Writes v then
        (exe.bytes[(r.pos + (v - r.start)).toNat]?).getD (mem (physAddr pageTable v))
      else mem (physAddr pageTable v) := by
  have hw := h.start_lt
  unfold apply
  simp only [h.addr_eq, Int.toNat_natCast, getElem?_readAt]
  obtain ⟨h₁, h₂, h₃, h₄, h₅, h₆⟩ := h
  have hstart : (r.start.toNat : Int) = r.start := by
    rw [Int.toNat_of_nonneg]
    unfold start PageSize
    omega
  have hoff : ((r.start.toNat % PageSize : Nat) : Int) = r.off := by
    unfold start PageSize at *
    omega
  have hmv := physAddr_mod pageTable v
  have hmw := physAddr_mod pageTable r.start.toNat
  by_cases hpage : v / PageSize = r.start.toNat / PageSize
  · have hadd := physAddr_add pageTable hpage
    by_cases hin : r.Writes v
    · rw [if_pos hin]
      obtain ⟨hge, hlt⟩ := hin
      rw [if_pos (by omega), if_pos (by omega)]
      congr 2
      omega
    · rw [if_neg hin]
      unfold Writes at hin
      split
      · rw [if_neg (by omega)]
        rfl
      · rfl
  · -- another page, and another frame
    have hframe := mt (page_eq hl hv hw) hpage
    have hout : ¬ r.Writes v := by
      unfold Writes PageSize at *
      omega
    rw [if_neg hout]
    split
    · rw [if_neg (by unfold PageSize at *; omega)]
      rfl
    · rfl

/-- A read does not touch a frame that is not in the table. -/
theorem Inside.apply_frame (h : r.Inside pageTable.length) (mem : Nat → Byte) {x : Nat}
    (hx : x / PageSize ∉ pageTable.map TranslationEntry.physicalPage) :
    r.apply exe pageTable mem x = mem x := by
  have hne : x / PageSize ≠ physAddr pageTable r.start.toNat / PageSize :=
    fun e => hx (e ▸ physAddr_frame h.start_lt)
  have hmw := physAddr_mod pageTable r.start.toNat
  unfold apply
  simp only [h.addr_eq, Int.toNat_natCast, getElem?_readAt]
  obtain ⟨h₁, h₂, h₃, h₄, h₅, h₆⟩ := h
  have hoff : ((r.start.toNat % PageSize : Nat) : Int) = r.off := by
    unfold start PageSize at *
    omega
  split
  · rw [if_neg (by unfold PageSize at *; omega)]
    rfl
  · rfl

/-- A read inside its page passes its checks. -/
theorem Inside.check_eq (hl : Linear pageTable) (h : r.Inside pageTable.length) :
    r.check exe pageTable = .ok () := by
  have hlen := readAt_length_le exe r.pos (le_of_lt h.pos_n)
  have hmw := physAddr_mod pageTable r.start.toNat
  have hin : physAddr pageTable r.start.toNat / PageSize < NumPhysPages := by
    obtain ⟨e, he, heq⟩ := List.mem_map.mp (physAddr_frame h.start_lt)
    rw [← heq]
    exact hl.inRange e he
  unfold check
  rw [h.addr_eq]
  obtain ⟨h₁, h₂, h₃, h₄, h₅, h₆⟩ := h
  have hoff : ((r.start.toNat % PageSize : Nat) : Int) = r.off := by
    unfold start PageSize at *
    omega
  rw [if_neg (by omega), if_neg (by omega), if_pos]
  refine .inr ⟨by omega, ?_⟩
  unfold MemorySize NumPhysPages PageSize at *
  omega

end SegmentRead

/-- The reads of one segment agree on what they put at an address. -/
theorem foldl_apply {l : List SegmentRead} {x : Nat} {C : SegmentRead → Prop} [DecidablePred C]
    {w : Option Byte} (h : ∀ r ∈ l, ∀ mem, r.apply exe pageTable mem x =
      if C r then w.getD (mem x) else mem x) (mem : Nat → Byte) :
    l.foldl (SegmentRead.apply exe pageTable) mem x =
      if ∃ r ∈ l, C r then w.getD (mem x) else mem x := by
  induction l generalizing mem with
  | nil => simp
  | cons r l ih =>
      rw [List.foldl_cons, ih (fun r hr => h r (List.mem_cons_of_mem _ hr)),
        h r List.mem_cons_self]
      by_cases hr : C r
      · by_cases hl : ∃ r ∈ l, C r
        · rw [if_pos hr, if_pos hl, if_pos (by simp [hr])]
          cases w <;> rfl
        · rw [if_pos hr, if_neg hl, if_pos (by simp [hr])]
      · simp [hr]

end

/-! ### One segment -/

/-- `OpenFile::Length`, an `int`. -/
def Executable.length (exe : Executable) : Int := asInt exe.bytes.length

namespace Segment

/-- The segment lies in an address space of `numPages` pages. -/
def InSpace (s : Segment) (numPages : Nat) : Prop :=
  0 < s.size.toInt →
    0 ≤ s.virtualAddr.toInt ∧ s.virtualAddr.toInt + s.size.toInt ≤ numPages * PageSize

/-- The segment lies in the file. -/
def InFile (s : Segment) (exe : Executable) : Prop :=
  0 < s.size.toInt → 0 ≤ s.inFileAddr.toInt ∧ s.inFileAddr.toInt + s.size.toInt ≤ exe.length

instance (s : Segment) (numPages : Nat) : Decidable (s.InSpace numPages) :=
  inferInstanceAs (Decidable (_ → _))

instance (s : Segment) (exe : Executable) : Decidable (s.InFile exe) :=
  inferInstanceAs (Decidable (_ → _))

/-- What loads without harm in an address space of `numPages` pages from a file of `length` bytes.
A segment that begins less than a page below address 0 does no harm where the file has none of
it. -/
def Fits (s : Segment) (numPages length : Nat) : Prop :=
  s.size.toInt ≤ 0 ∨
    (0 ≤ s.virtualAddr.toInt ∨ -PageSize < s.virtualAddr.toInt ∧ length ≤ s.inFileAddr.toInt) ∧
    0 < numPages ∧ s.virtualAddr.toInt + s.size.toInt ≤ numPages * PageSize ∧
    0 ≤ s.inFileAddr.toInt ∧
    -- the position of the last page does not overflow
    (s.virtualAddr.toInt + s.size.toInt ≤ PageSize ∨
      s.inFileAddr.toInt + ((s.virtualAddr.toInt + s.size.toInt - 1) / PageSize * PageSize -
        s.virtualAddr.toInt) < 2 ^ 31)

instance (s : Segment) (numPages length : Nat) : Decidable (s.Fits numPages length) :=
  inferInstanceAs (Decidable (_ ∨ _))

/-- The byte of the file for the address `a`. -/
def byteAt (s : Segment) (exe : Executable) (a : Int) : Option Byte :=
  exe.bytes[(s.inFileAddr.toInt + (a - s.virtualAddr.toInt)).toNat]?

end Segment

section
variable {s : Segment} {exe : Executable} {numPages : Nat} {r : SegmentRead}

theorem Segment.fits_of_inside (hs : s.InSpace numPages) (hf : s.InFile exe) (length : Nat) :
    s.Fits numPages length := by
  by_cases h₀ : s.size.toInt ≤ 0
  · exact .inl h₀
  obtain ⟨h₁, h₂⟩ := hs (by omega)
  obtain ⟨h₃, h₄⟩ := hf (by omega)
  have h₅ : exe.length < 2 ^ 31 := asInt_lt _
  refine .inr ⟨.inl h₁, ?_, h₂, h₃, .inr ?_⟩ <;> unfold PageSize at * <;> omega

/-- The reads of a segment that fits stay in their pages, but for the empty first one of a segment
that begins below address 0. -/
theorem Segment.Fits.inside {length : Nat} (h : s.Fits numPages length)
    (hn : numPages ≤ NumPhysPages) (hr : r ∈ s.reads) :
    r.Inside numPages ∨
      r = s.firstRead ∧ 0 < numPages ∧ r.page = 0 ∧ length ≤ r.pos ∧ 0 ≤ r.pos := by
  have hp : ((PageSize : Nat) : Int) = 128 := rfl
  have hn' : NumPhysPages = 128 := rfl
  rcases h with h₀ | ⟨h₁, h₂, h₃, h₄, h₅⟩
  · rw [Segment.reads, if_pos h₀] at hr
    cases hr
  have h₀ : 0 < s.size.toInt := by
    by_contra h₀
    rw [Segment.reads, if_pos (by omega)] at hr
    cases hr
  rw [hp] at h₁ h₃ h₅
  obtain ⟨ha, ha₀, ha₁⟩ := tdiv_add_tmod s.virtualAddr.toInt
  rcases (mem_reads h₀ (by omega) (by omega) r).mp hr with rfl | ⟨p, hp₁, hp₂, rfl⟩
  · rcases h₁ with h₁ | ⟨h₁, hlen⟩
    · refine .inl ⟨?_, ?_, ?_, ?_, ?_, h₄⟩ <;> simp only [Segment.firstRead, hp] <;> omega
    · by_cases hneg : 0 ≤ s.virtualAddr.toInt
      · refine .inl ⟨?_, ?_, ?_, ?_, ?_, h₄⟩ <;> simp only [Segment.firstRead, hp] <;> omega
      · refine .inr ⟨rfl, h₂, ?_, hlen, h₄⟩
        simp only [Segment.firstRead, hp]
        omega
  · rw [hp] at hp₁ hp₂
    refine .inl ⟨?_, ?_, le_rfl, ?_, ?_, ?_⟩ <;> simp only [Segment.readOf, hp]
    · omega
    · omega
    · omega
    · omega
    · rw [asInt_eq (by omega) (by omega)]
      omega

/-- The reads of a segment that lies in the address space and in the file stay in their pages. -/
theorem Segment.inside_of_mem (hs : s.InSpace numPages) (hf : s.InFile exe)
    (hn : numPages ≤ NumPhysPages) (hr : r ∈ s.reads) : r.Inside numPages := by
  have hp : ((PageSize : Nat) : Int) = 128 := rfl
  rcases (s.fits_of_inside hs hf 0).inside hn hr with h | ⟨rfl, hpos, hpage, -, h₃⟩
  · exact h
  have h₀ : 0 < s.size.toInt := by
    by_contra h₀
    rw [Segment.reads, if_pos (by omega)] at hr
    cases hr
  obtain ⟨h₁, h₂⟩ := hs h₀
  obtain ⟨ha, ha₀, -⟩ := tdiv_add_tmod s.virtualAddr.toInt
  refine ⟨?_, ?_, ?_, ?_, ?_, h₃⟩ <;> simp only [Segment.firstRead, hp] at * <;> omega

/-- **What loading a segment does to memory**, seen through the page table. -/
theorem Segment.foldl_reads {pageTable : List TranslationEntry} (hl : Linear pageTable)
    (hn : pageTable.length ≤ NumPhysPages) (hs : s.InSpace pageTable.length) (hf : s.InFile exe)
    (mem : Nat → Byte) {v : Nat} (hv : v < pageTable.length * PageSize) :
    s.reads.foldl (SegmentRead.apply exe pageTable) mem (physAddr pageTable v) =
      if s.Covers v then (s.byteAt exe v).getD (mem (physAddr pageTable v))
      else mem (physAddr pageTable v) := by
  have hp : ((PageSize : Nat) : Int) = 128 := rfl
  have hn' : NumPhysPages = 128 := rfl
  by_cases h₀ : 0 < s.size.toInt
  swap
  · rw [Segment.reads, if_pos (by omega), if_neg (by unfold Covers; omega)]
    rfl
  obtain ⟨h₁, h₂⟩ := hs h₀
  obtain ⟨h₃, h₄⟩ := hf h₀
  have h₅ : exe.length < 2 ^ 31 := asInt_lt _
  rw [hp] at h₂
  obtain ⟨ha, ha₀, ha₁⟩ := tdiv_add_tmod s.virtualAddr.toInt
  have hreads := mem_reads h₀ (by omega) (by omega)
  have hinside : ∀ r ∈ s.reads, r.Inside pageTable.length := fun r hr =>
    Segment.inside_of_mem hs hf hn hr
  -- the byte does not depend on the read
  have hbyte : ∀ r ∈ s.reads, r.Writes v →
      r.pos + (v - r.start) = s.inFileAddr.toInt + (v - s.virtualAddr.toInt) := by
    intro r hr hw
    rcases (hreads r).mp hr with rfl | ⟨p, hp₁, hp₂, rfl⟩
    · simp only [SegmentRead.start, Segment.firstRead, hp]
      omega
    · simp only [SegmentRead.start, Segment.readOf, hp] at *
      rw [asInt_eq (by omega) (by omega)]
      omega
  have hcover : (∃ r ∈ s.reads, r.Writes v) ↔ s.Covers v := by
    constructor
    · rintro ⟨r, hr, hw⟩
      rcases (hreads r).mp hr with rfl | ⟨p, hp₁, hp₂, rfl⟩ <;>
        simp only [SegmentRead.Writes, SegmentRead.start, Segment.firstRead, Segment.readOf, hp,
          Segment.Covers] at * <;> omega
    · rintro ⟨hc₁, hc₂⟩
      by_cases hfirst : s.firstRead.Writes v
      · exact ⟨_, firstRead_mem h₀, hfirst⟩
      · refine ⟨s.readOf (v / 128), (hreads _).mpr (.inr ⟨v / 128, ?_, ?_, rfl⟩), ?_⟩ <;>
          simp only [SegmentRead.Writes, SegmentRead.start, Segment.firstRead, Segment.readOf,
            hp] at * <;> omega
  rw [foldl_apply (C := fun r => r.Writes v) (w := s.byteAt exe v)]
  · exact if_congr hcover rfl rfl
  · intro r hr mem
    rw [(hinside r hr).apply_eq hl mem hv]
    split
    · rename_i hw
      rw [hbyte r hr hw]
      rfl
    · rfl

end

/-! ### The image -/

/-- The program, as the file describes it. -/
def Executable.image (exe : Executable) (a : Int) : Byte :=
  if exe.noffHeader.code.Covers a then (exe.noffHeader.code.byteAt exe a).getD 0
  else if exe.noffHeader.initData.Covers a then (exe.noffHeader.initData.byteAt exe a).getD 0
  else 0

section
variable {exe : Executable} {phys phys' : BitMap NumPhysPages} {sp : AddrSpace}

/-- What the constructor leaves behind the address `a`. -/
theorem load_physAddr (hl : Linear sp.pageTable) (hn : sp.numPages ≤ NumPhysPages)
    (hc : exe.noffHeader.code.InSpace sp.numPages) (hcf : exe.noffHeader.code.InFile exe)
    (hd : exe.noffHeader.initData.InSpace sp.numPages) (hdf : exe.noffHeader.initData.InFile exe)
    (hdisj : ∀ a, ¬ (exe.noffHeader.code.Covers a ∧ exe.noffHeader.initData.Covers a))
    (mem : Nat → Byte) {a : Nat} (ha : a < sp.numPages * PageSize) :
    sp.load exe mem (physAddr sp.pageTable a) = exe.image a := by
  have hzero : physAddr sp.pageTable a / PageSize ∈ sp.frames := physAddr_frame ha
  unfold AddrSpace.load Executable.image
  simp only [List.foldl_append]
  rw [Segment.foldl_reads hl hn hd hdf _ ha, Segment.foldl_reads hl hn hc hcf _ ha, if_pos hzero]
  by_cases h₁ : exe.noffHeader.code.Covers a
  · rw [if_neg (fun h₂ => hdisj a ⟨h₁, h₂⟩), if_pos h₁, if_pos h₁]
  · rw [if_neg h₁, if_neg h₁]

/-- The reads leave the other frames alone. -/
theorem load_frame {mem : Nat → Byte} {x : Nat} (hx : x / PageSize ∉ sp.frames)
    (h : ∀ r ∈ exe.noffHeader.code.reads ++ exe.noffHeader.initData.reads,
      r.Inside sp.pageTable.length) : sp.load exe mem x = mem x := by
  unfold AddrSpace.load
  rw [foldl_apply (C := fun _ => False) (w := none)]
  · rw [if_neg (by simp), if_neg hx]
  · intro r hr mem
    rw [(h r hr).apply_frame mem hx, if_neg not_false]

theorem mapM_ok {α β ε : Type} {f : α → Except ε β} : ∀ {l : List α} {ys : List β},
    l.mapM f = .ok ys → ∀ x ∈ l, ∃ y, f x = .ok y
  | [], _, _, x, hx => by cases hx
  | z :: l, ys, h, x, hx => by
      rw [List.mapM_cons] at h
      cases hz : f z with
      | error e =>
          rw [hz] at h
          cases h
      | ok y =>
          rw [hz] at h
          cases hl : l.mapM f with
          | error e =>
              simp only [hl] at h
              cases h
          | ok zs =>
              rcases List.mem_cons.mp hx with rfl | hx
              · exact ⟨y, hz⟩
              · exact mapM_ok hl x hx

/-- When the constructor returns. -/
theorem build_ok (hm : exe.noffHeader.noffMagic = NOFFMAGIC)
    (hn : exe.noffHeader.numPages ≤ phys.numClear) {pageTable : List TranslationEntry}
    (ha : allocPages exe.noffHeader.numPages 0 phys = some (pageTable, phys'))
    (hr : ∀ r ∈ exe.noffHeader.code.reads ++ exe.noffHeader.initData.reads,
      r.check exe pageTable = .ok ()) :
    ∃ sp, AddrSpace.build exe phys = .ok (sp, phys') ∧ sp.pageTable = pageTable := by
  unfold AddrSpace.build
  dsimp only
  rw [if_neg (not_not.mpr hm), if_neg (not_lt.mpr hn)]
  split
  · rename_i h
    rw [ha] at h
    cases h
  · rename_i h
    rw [ha] at h
    cases h
    split
    · rename_i e he
      obtain ⟨r, hmem, hc⟩ := mapM_error he
      rw [hr r hmem] at hc
      cases hc
    · exact ⟨_, rfl, rfl⟩

/-- What a constructor that returns has done. -/
theorem build_inv (h : AddrSpace.build exe phys = .ok (sp, phys')) :
    exe.noffHeader.noffMagic = NOFFMAGIC ∧ exe.noffHeader.numPages ≤ phys.numClear ∧
      allocPages exe.noffHeader.numPages 0 phys = some (sp.pageTable, phys') ∧
      ∀ r ∈ exe.noffHeader.code.reads ++ exe.noffHeader.initData.reads,
        ∃ u, r.check exe sp.pageTable = .ok u := by
  simp only [AddrSpace.build] at h
  split at h
  · cases h
  rename_i hm
  split at h
  · cases h
  rename_i hn
  split at h
  · cases h
  rename_i ha
  split at h
  · cases h
  rename_i hc
  cases h
  exact ⟨not_not.mp hm, not_lt.mp hn, ha, mapM_ok hc⟩

theorem allocPages_linear {n i : Nat} {pageTable : List TranslationEntry}
    (h : allocPages n i phys = some (pageTable, phys')) : Linear pageTable where
  inRange := allocPages_inRange h
  valid e he := (allocPages_entries h e he).1
  writable e he := (allocPages_entries h e he).2
  distinct := (allocPages_spec h).2.1

/-- **The loader builds the image.**  Where the file starts with the magic number, its two segments
do not overlap and lie in the address space and in the file, and there are frames enough, the
constructor returns.  A byte read through the new page table is then that of the image, and no
frame that was marked has changed. -/
theorem load_image (exe : Executable) (phys : BitMap NumPhysPages)
    (hm : exe.noffHeader.noffMagic = NOFFMAGIC) (hn : exe.noffHeader.numPages ≤ phys.numClear)
    (hc : exe.noffHeader.code.InSpace exe.noffHeader.numPages)
    (hcf : exe.noffHeader.code.InFile exe)
    (hd : exe.noffHeader.initData.InSpace exe.noffHeader.numPages)
    (hdf : exe.noffHeader.initData.InFile exe)
    (hdisj : ∀ a, ¬ (exe.noffHeader.code.Covers a ∧ exe.noffHeader.initData.Covers a)) :
    ∃ sp phys', AddrSpace.build exe phys = .ok (sp, phys') ∧
      sp.numPages = exe.noffHeader.numPages ∧
      (∀ (mem : Nat → Byte) (m : Machine), m.pageTable = some sp.pageTable →
        m.pageTableSize = sp.numPages → m.mainMemory = sp.load exe mem →
        ∀ a, a < sp.numPages * PageSize → ∃ m',
          readMem (BitVec.ofNat 32 a) 1 m = .ok ((exe.image a).signExtend 32) m') ∧
      ∀ (mem : Nat → Byte) (x : Nat), Marked phys (x / PageSize) → sp.load exe mem x = mem x := by
  obtain ⟨pageTable, phys', ha⟩ := allocPages_isSome (i := 0) hn
  have hl := allocPages_linear ha
  have hlen := (allocPages_spec ha).1
  have hle : pageTable.length ≤ NumPhysPages := hlen ▸ hn.trans (phys.numClear_le)
  have hinside : ∀ r ∈ exe.noffHeader.code.reads ++ exe.noffHeader.initData.reads,
      r.Inside pageTable.length := by
    intro r hr
    rw [hlen]
    rcases List.mem_append.mp hr with hr | hr
    · exact Segment.inside_of_mem hc hcf (hlen ▸ hle) hr
    · exact Segment.inside_of_mem hd hdf (hlen ▸ hle) hr
  obtain ⟨sp, hb, rfl⟩ := build_ok hm hn ha fun r hr => (hinside r hr).check_eq hl
  have hnum : sp.numPages = exe.noffHeader.numPages := hlen
  refine ⟨sp, phys', hb, hnum, fun mem m ht hs hmem a ha => ?_, fun mem x hx => ?_⟩
  · have hlt : a < 2 ^ 32 := by
      have : sp.numPages ≤ NumPhysPages := hle
      unfold NumPhysPages PageSize at *
      omega
    have hmod : (BitVec.ofNat 32 a).toNat = a := by
      rw [BitVec.toNat_ofNat, Nat.mod_eq_of_lt hlt]
    have hfits : 1 ∣ (BitVec.ofNat 32 a).toNat ∧
        (BitVec.ofNat 32 a).toNat < sp.pageTable.length * PageSize :=
      ⟨one_dvd _, by rw [hmod]; exact ha⟩
    rcases readMem_eq ⟨sp.pageTable, ⟨ht, hs, hl⟩, rfl⟩ (BitVec.ofNat 32 a) .byte with
      ⟨hno, -⟩ | ⟨-, m', hread, -⟩
    · exact absurd hfits hno
    · refine ⟨m', ?_⟩
      rw [wordOf_flat hfits.1 hfits.2, hmod] at hread
      rw [← load_physAddr hl hle (hnum ▸ hc) hcf (hnum ▸ hd) hdf hdisj mem ha, ← hmem]
      exact hread
  · exact load_frame (fun hf => (build_spec hb).2.2.1 _ hf hx) hinside

end

/-- A program whose code crosses from the first page into the second, with its data behind. -/
def crossingProgram : Executable where
  bytes := [0xad, 0xdf, 0xba, 0, 125, 0, 0, 0, 40, 0, 0, 0, 6, 0, 0, 0,
    131, 0, 0, 0, 46, 0, 0, 0, 3, 0, 0, 0, 0, 0, 0, 0, 0, 0, 0, 0, 0, 0, 0, 0,
    1, 2, 3, 4, 5, 6, 7, 8, 9]
  stack _ := 0

theorem load_image_crossing : ∃ sp phys',
    AddrSpace.build crossingProgram (BitMap.new fun _ => 0) = .ok (sp, phys') ∧
    sp.numPages = 9 ∧ crossingProgram.image 128 = 4 ∧ crossingProgram.image 133 = 9 ∧
    ∀ (mem : Nat → Byte) (m : Machine), m.pageTable = some sp.pageTable →
      m.pageTableSize = sp.numPages → m.mainMemory = sp.load crossingProgram mem →
      ∀ a, a < sp.numPages * PageSize → ∃ m', readMem (BitVec.ofNat 32 a) 1 m =
        .ok ((crossingProgram.image a).signExtend 32) m' := by
  have hh : crossingProgram.noffHeader = ⟨NOFFMAGIC, ⟨125, 40, 6⟩, ⟨131, 46, 3⟩, ⟨0, 0, 0⟩⟩ := by
    decide +kernel
  have hn : crossingProgram.noffHeader.numPages = 9 := by decide +kernel
  obtain ⟨sp, phys', hb, hp, hread, -⟩ := load_image crossingProgram (BitMap.new fun _ => 0)
    (by rw [hh]) (by decide +kernel) (by rw [hn, hh]; decide) (by rw [hh]; decide +kernel)
    (by rw [hn, hh]; decide) (by rw [hh]; decide +kernel) (by
      rw [hh]
      rintro a ⟨⟨-, h₁⟩, h₂, -⟩
      have h₁' : a < 125 + 6 := h₁
      have h₂' : 131 ≤ a := h₂
      omega)
  exact ⟨sp, phys', hb, hp.trans hn, by decide +kernel, by decide +kernel, hread⟩

/-! ### Any file -/

/-- The page of a read is one of the table, and what it writes lies in frames of the table. -/
def SegmentRead.Safe (exe : Executable) (pageTable : List TranslationEntry) (r : SegmentRead) :
    Prop :=
  0 ≤ r.page ∧ r.page < pageTable.length ∧ ∀ k : Nat, k < (exe.readAt r.n r.pos).length →
    ∃ f ∈ pageTable.map TranslationEntry.physicalPage,
      (f : Int) * PageSize ≤ r.addr pageTable + k ∧ r.addr pageTable + k < (f + 1) * PageSize

namespace AddrSpace

/-- The constructor returns, and wrote nowhere but in the frames it has taken. -/
def Safe (exe : Executable) (phys : BitMap NumPhysPages) : Prop :=
  ∃ sp phys', build exe phys = .ok (sp, phys') ∧
    ∀ r ∈ exe.noffHeader.code.reads ++ exe.noffHeader.initData.reads, r.Safe exe sp.pageTable

end AddrSpace

/-- The files on which the constructor is safe. -/
def Executable.Loadable (exe : Executable) (phys : BitMap NumPhysPages) : Prop :=
  exe.noffHeader.noffMagic = NOFFMAGIC ∧ exe.noffHeader.numPages ≤ phys.numClear ∧
    exe.noffHeader.code.Fits exe.noffHeader.numPages exe.bytes.length ∧
    exe.noffHeader.initData.Fits exe.noffHeader.numPages exe.bytes.length

instance (exe : Executable) (phys : BitMap NumPhysPages) : Decidable (exe.Loadable phys) :=
  inferInstanceAs (Decidable (_ ∧ _))

section
variable {exe : Executable} {phys : BitMap NumPhysPages} {pageTable : List TranslationEntry}
  {s : Segment} {r : SegmentRead}

theorem SegmentRead.Inside.safe (h : r.Inside pageTable.length) : r.Safe exe pageTable := by
  refine ⟨h.page_nonneg, h.page_lt, fun k hk => ⟨_, physAddr_frame h.start_lt, ?_⟩⟩
  have hlen := readAt_length_le exe r.pos (le_of_lt h.pos_n)
  have hmw := physAddr_mod pageTable r.start.toNat
  rw [h.addr_eq]
  obtain ⟨h₁, h₂, h₃, h₄, h₅, h₆⟩ := h
  have hoff : ((r.start.toNat % PageSize : Nat) : Int) = r.off := by
    unfold SegmentRead.start PageSize at *
    omega
  unfold PageSize at *
  omega

theorem readAt_behind {n position : Int} (h : exe.bytes.length ≤ position) :
    exe.readAt n position = [] := by
  unfold Executable.readAt
  rw [List.drop_eq_nil_of_le (by omega), List.take_nil]

/-- The reads of a segment that fits are safe, and pass their checks. -/
theorem Segment.Fits.safe (hl : Linear pageTable) (hn : pageTable.length ≤ NumPhysPages)
    (h : s.Fits pageTable.length exe.bytes.length) (hr : r ∈ s.reads) :
    r.Safe exe pageTable ∧ r.check exe pageTable = .ok () := by
  rcases h.inside hn hr with hin | ⟨-, hpos, hpage, hlen, h₀⟩
  · exact ⟨hin.safe, hin.check_eq hl⟩
  · have hnil := readAt_behind (n := r.n) hlen
    refine ⟨⟨by omega, by omega, fun k hk => ?_⟩, ?_⟩
    · rw [hnil] at hk
      cases hk
    · unfold SegmentRead.check
      rw [if_neg (by omega), if_neg (by omega), if_pos (.inl hnil)]

/-- A segment whose end overflows has a page far outside. -/
theorem exists_read_outside (h₁ : -128 < s.virtualAddr.toInt) (h₂ : s.virtualAddr.toInt < 2 ^ 14)
    (h₃ : 2 ^ 31 ≤ s.virtualAddr.toInt + s.size.toInt) :
    ∃ r ∈ s.reads, r.page < 0 ∨ 128 ≤ r.page := by
  have hp : ((PageSize : Nat) : Int) = 128 := rfl
  have hsize : s.size.toInt < 2 ^ 31 := BitVec.toInt_lt
  have hend : (s.virtualAddr + s.size).toInt = s.virtualAddr.toInt + s.size.toInt - 2 ^ 32 := by
    rw [BitVec.toInt_add, Int.bmod_def, if_neg (by omega)]
    omega
  obtain ⟨ha, ha₀, ha₁⟩ := tdiv_add_tmod s.virtualAddr.toInt
  obtain ⟨hs, -, hs₁⟩ := tdiv_add_tmod (s.virtualAddr.toInt + s.size.toInt - 2 ^ 32)
  unfold Segment.reads
  rw [if_neg (by omega), hend]
  simp only [hp]
  rw [if_pos (by omega)]
  dsimp only
  generalize s.virtualAddr.toInt.tdiv 128 = first at *
  generalize s.virtualAddr.toInt.tmod 128 = off at *
  generalize (s.virtualAddr.toInt + s.size.toInt - 2 ^ 32).tdiv 128 = last at *
  generalize (s.virtualAddr.toInt + s.size.toInt - 2 ^ 32).tmod 128 = rest at *
  have hlast : (BitVec.ofInt 32 last).toNat = (2 ^ 32 + last).toNat := by
    rw [BitVec.toNat_ofInt]
    omega
  by_cases hrest : rest = 0
  · -- the loop runs to a huge unsigned index
    refine ⟨_, List.mem_cons_of_mem _ (List.mem_append_right _ (List.mem_map_of_mem
      (a := 1000) ?_)), .inr (by simp)⟩
    rw [List.mem_range'_1, hlast, ofInt_toNat (by omega) (by omega)]
    omega
  · rw [if_pos hrest]
    exact ⟨_, List.mem_cons_of_mem _ (List.mem_append_left _ (List.mem_singleton_self _)),
      .inl (by dsimp only; omega)⟩

/-- The frame in front of the first page is not one of the table. -/
theorem not_safe_of_neg (hsort : (pageTable.map TranslationEntry.physicalPage).Pairwise (· < ·))
    (hoff : r.off < 0) (hoff' : -PageSize < r.off) (hpage : r.page = 0)
    (hlen : exe.readAt r.n r.pos ≠ []) : ¬ r.Safe exe pageTable := by
  rintro ⟨-, hlt, hw⟩
  obtain ⟨f, hf, h₁, h₂⟩ := hw 0 (List.length_pos_iff.mpr hlen)
  cases pageTable with
  | nil => cases hf
  | cons e pageTable =>
      have hle : e.physicalPage ≤ f := by
        rcases List.mem_cons.mp hf with rfl | hf
        · exact le_rfl
        · exact ((List.pairwise_cons.mp hsort).1 f hf).le
      have haddr : r.addr (e :: pageTable) = e.physicalPage * PageSize + r.off := by
        rw [SegmentRead.addr, hpage]
        rfl
      rw [haddr] at h₁ h₂
      unfold PageSize at *
      omega

/-- A segment whose reads are safe fits. -/
theorem Segment.fits_of_safe (hn : pageTable.length ≤ NumPhysPages)
    (hsort : (pageTable.map TranslationEntry.physicalPage).Pairwise (· < ·))
    (hsafe : ∀ r ∈ s.reads, r.Safe exe pageTable) (hpos : ∀ r ∈ s.reads, 0 ≤ r.pos) :
    s.Fits pageTable.length exe.bytes.length := by
  have hp : ((PageSize : Nat) : Int) = 128 := rfl
  have hn' : NumPhysPages = 128 := rfl
  by_cases h₀ : s.size.toInt ≤ 0
  · exact .inl h₀
  have hfirst := firstRead_mem (s := s) (by omega)
  obtain ⟨ha, ha₀, ha₁⟩ := tdiv_add_tmod s.virtualAddr.toInt
  obtain ⟨hpage, hpage', -⟩ := hsafe _ hfirst
  have hI : 0 ≤ s.inFileAddr.toInt := hpos _ hfirst
  have hI' : s.inFileAddr.toInt < 2 ^ 31 := BitVec.toInt_lt
  simp only [Segment.firstRead, hp] at hpage hpage'
  have hend : s.virtualAddr.toInt + s.size.toInt < 2 ^ 31 := by
    by_contra hend
    obtain ⟨r, hr, hout⟩ := exists_read_outside (s := s) (by omega) (by omega) (by omega)
    obtain ⟨h₁, h₂, -⟩ := hsafe r hr
    omega
  -- the last page
  have hlast : s.virtualAddr.toInt.tdiv PageSize <
      (s.virtualAddr.toInt + s.size.toInt - 1) / PageSize →
      s.readOf ((s.virtualAddr.toInt + s.size.toInt - 1) / PageSize) ∈ s.reads := fun h =>
    (mem_reads (by omega) (by omega) hend _).mpr (.inr ⟨_, h, le_rfl, rfl⟩)
  rw [hp] at hlast
  have hin : s.virtualAddr.toInt + s.size.toInt ≤ pageTable.length * 128 := by
    by_contra hout
    obtain ⟨-, h₂, -⟩ := hsafe _ (hlast (by omega))
    simp only [Segment.readOf] at h₂
    omega
  refine .inr ⟨?_, by omega, by rw [hp]; exact hin, hI, ?_⟩
  · by_contra hneg
    rw [hp] at hneg
    refine not_safe_of_neg hsort ?_ ?_ ?_ ?_ (hsafe _ hfirst)
    · simp only [Segment.firstRead, hp]
      omega
    · simp only [Segment.firstRead, hp]
      omega
    · simp only [Segment.firstRead, hp]
      omega
    · simp only [Executable.readAt, Segment.firstRead, hp, ne_eq, List.take_eq_nil_iff,
        List.drop_eq_nil_iff]
      omega
  · rw [hp]
    by_contra hover
    have := hpos _ (hlast (by omega))
    simp only [Segment.readOf, hp, asInt, BitVec.toInt_ofInt, Int.bmod_def] at this
    split at this <;> omega

/-- **The constructor is safe exactly on the loadable files.** -/
theorem safe_iff (exe : Executable) (phys : BitMap NumPhysPages) :
    AddrSpace.Safe exe phys ↔ exe.Loadable phys := by
  constructor
  · rintro ⟨sp, phys', hb, hsafe⟩
    obtain ⟨hm, hn, ha, hcheck⟩ := build_inv hb
    have hlen := (allocPages_spec ha).1
    have hle : sp.pageTable.length ≤ NumPhysPages := hlen ▸ hn.trans (phys.numClear_le)
    have hpos : ∀ r ∈ exe.noffHeader.code.reads ++ exe.noffHeader.initData.reads, 0 ≤ r.pos := by
      intro r hr
      obtain ⟨u, hu⟩ := hcheck r hr
      by_contra hneg
      obtain ⟨h₁, h₂, -⟩ := hsafe r hr
      unfold SegmentRead.check at hu
      rw [if_neg (by omega), if_pos (by omega)] at hu
      cases hu
    have hfit : ∀ s : Segment, (∀ r ∈ s.reads, r ∈ exe.noffHeader.code.reads ++
        exe.noffHeader.initData.reads) → s.Fits exe.noffHeader.numPages exe.bytes.length := by
      intro s hs
      rw [← hlen]
      exact Segment.fits_of_safe hle (allocPages_pairwise ha) (fun r hr => hsafe r (hs r hr))
        fun r hr => hpos r (hs r hr)
    exact ⟨hm, hn, hfit _ fun r => List.mem_append_left _, hfit _ fun r => List.mem_append_right _⟩
  · rintro ⟨hm, hn, hc, hd⟩
    obtain ⟨pageTable, phys', ha⟩ := allocPages_isSome (i := 0) hn
    have hlen := (allocPages_spec ha).1
    have hle : pageTable.length ≤ NumPhysPages := hlen ▸ hn.trans (phys.numClear_le)
    have hall : ∀ r ∈ exe.noffHeader.code.reads ++ exe.noffHeader.initData.reads,
        r.Safe exe pageTable ∧ r.check exe pageTable = .ok () := by
      intro r hr
      rw [← hlen] at hc hd
      rcases List.mem_append.mp hr with hr | hr
      · exact hc.safe (allocPages_linear ha) hle hr
      · exact hd.safe (allocPages_linear ha) hle hr
    obtain ⟨sp, hb, rfl⟩ := build_ok hm hn ha fun r hr => (hall r hr).2
    exact ⟨sp, phys', hb, fun r hr => (hall r hr).1⟩

end

end Nachos
