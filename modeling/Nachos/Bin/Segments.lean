import Mathlib.Algebra.Ring.Nat
import Mathlib.Data.Set.Basic
import Nachos.Bin.Coff2noff

/-!
# Bin — Segments

The code and the initialised data on their way through the converter (bin/coff2noff.c).
`inNoffFile` counts along with the writes to the output, so a segment lies where its header says
(`Laid`), as long as each section that is copied has a size above 0: `Read` and `Write` let a size
of -1 pass, which moves the counter back and writes nothing.  And the bytes are those of the section
as long as its `s_scnptr` is a position in a file.

The NOFF file carries the sections of the COFF file exactly when both are so
(`segments_preserved_iff`).
-/

namespace Nachos.Coff2noff
open Lib Syscall

/-- The segment a section is copied to. -/
def segment (h : NoffHeader) (k : Kind) : Segment := if k = .text then h.code else h.initData

def place (h : NoffHeader) (k : Kind) (seg : Segment) : NoffHeader :=
  if k = .text then { h with code := seg } else { h with initData := seg }

theorem place_text {h : NoffHeader} {k : Kind} {seg : Segment} (hk : k = .text) :
    place h k seg = { h with code := seg } := if_pos hk

theorem place_data {h : NoffHeader} {k : Kind} {seg : Segment} (hk : k = .data) :
    place h k seg = { h with initData := seg } := if_neg (by rw [hk]; decide)

/-- The bytes of a section lie at `a` in the output. -/
def BytesAt (coff out : List Byte) (s : Scnhdr) (a : Word) : Prop :=
  ∀ k : Nat, (k : Int) < s.s_size.toInt → 0 ≤ s.s_scnptr.toInt ∧ 0 ≤ a.toInt ∧
    ∃ b, coff[s.s_scnptr.toInt.toNat + k]? = some b ∧ out[a.toInt.toNat + k]? = some b

/-- The places of a segment in the output. -/
def places (seg : Segment) : Set Int :=
  {x | seg.inFileAddr.toInt ≤ x ∧ x < seg.inFileAddr.toInt + seg.size.toInt}

/-- **The output carries the sections**: each segment has the address, the size and the bytes of its
section, and size 0 where there is none; and the header and the segments lie apart. -/
structure Preserved (coff out : List Byte) (sections : List Scnhdr) : Prop where
  address : ∀ s ∈ copied sections, (segment (header out) s.kind).virtualAddr = s.s_paddr
  size : ∀ s ∈ copied sections, (segment (header out) s.kind).size = s.s_size
  bytes : ∀ s ∈ copied sections, BytesAt coff out s (segment (header out) s.kind).inFileAddr
  absent : ∀ k, k = .text ∨ k = .data → (∀ s ∈ sections, s.kind ≠ k) →
    (segment (header out) k).size = 0
  behind : ∀ k, k = .text ∨ k = .data → ∀ x ∈ places (segment (header out) k),
    ¬ (0 ≤ x ∧ x < sizeofNoffHeader)
  apart : ∀ x ∈ places (header out).code, x ∉ places (header out).initData

/-- **Each section that has bytes has a position in the file**, and none of size -1 before it. -/
def Located (sections : List Scnhdr) : Prop :=
  (∀ s ∈ copied sections, 0 < s.s_size.toInt → 0 ≤ s.s_scnptr.toInt) ∧
    (copied sections).Pairwise fun s t => 0 < t.s_size.toInt → 0 < s.s_size.toInt

/-! ### One section -/

/-- What copying a section does. -/
structure Copies (s : Scnhdr) (st st' : Locals) : Prop where
  noffH : st'.noffH = place st.noffH s.kind ⟨s.s_paddr, st.inNoffFile, s.s_size⟩
  next : st'.inNoffFile = st.inNoffFile + s.s_size
  input : st'.fdIn.content = st.fdIn.content
  output : (s.s_size.toInt = -1 ∧ st'.fdOut = st.fdOut) ∨
    ∃ buffer : List Byte, (buffer.length : Int) = s.s_size.toInt ∧
      st.fdOut.offset + buffer.length < 2 ^ 31 ∧
      (0 ≤ s.s_scnptr.toInt → ∀ k < buffer.length,
        buffer[k]? = st.fdIn.content[s.s_scnptr.toInt.toNat + k]?) ∧
      st'.fdOut =
        ⟨writeFile st.fdOut.content st.fdOut.offset buffer, st.fdOut.offset + buffer.length⟩

section
variable {s : Scnhdr} {st st' : Locals} {seg : Segment} {fd fd' : Fd} {buf : List Byte} {n : Int}

/-- A `Read` gets all it asks for; or it asks for -1 bytes, and gets none. -/
theorem Read_cases (h : fd.Read n = .ok (buf, fd')) :
    fd'.content = fd.content ∧ ((n = -1 ∧ buf = []) ∨
      ((buf.length : Int) = n ∧ buf = readPartial fd.content fd.offset n.toNat)) := by
  unfold Fd.Read Fd.read at h
  by_cases hn : n < 0
  · rw [if_pos hn] at h
    dsimp only at h
    split at h
    · cases h
    · rename_i hret
      cases h
      exact ⟨rfl, .inl ⟨by omega, rfl⟩⟩
  · rw [if_neg hn] at h
    dsimp only at h
    split at h
    · cases h
    · rename_i hret
      cases h
      exact ⟨rfl, .inr ⟨not_not.mp hret, rfl⟩⟩

/-- A `Write` writes all; or it is asked for -1 bytes, and writes none. -/
theorem Write_cases (h : fd.Write buf n = .ok fd') :
    (n = -1 ∧ fd' = fd) ∨ (0 ≤ n ∧ fd.offset + n < 2 ^ 31 ∧
      fd' = ⟨writeFile fd.content fd.offset (buf.take n.toNat), fd.offset + n.toNat⟩) := by
  unfold Fd.Write Fd.write at h
  by_cases hn : 0 ≤ n ∧ fd.offset + n < 2 ^ 31
  · rw [if_pos hn] at h
    dsimp only at h
    rw [if_neg (not_not.mpr rfl)] at h
    cases h
    exact .inr ⟨hn.1, hn.2, rfl⟩
  · rw [if_neg hn] at h
    dsimp only at h
    split at h
    · cases h
    · rename_i hret
      cases h
      exact .inl ⟨(not_not.mp hret).symm, rfl⟩

theorem getElem?_readPartial {content : List Byte} {off m k : Nat}
    (h : k < (readPartial content off m).length) :
    (readPartial content off m)[k]? = content[off + k]? := by
  unfold readPartial at h ⊢
  rw [List.length_take] at h
  rw [List.getElem?_take_of_lt (by omega), List.getElem?_drop]

theorem copy_spec (hs : s.s_size ≠ 0) (h : st.copy s = .ok (seg, st')) :
    seg = ⟨s.s_paddr, st.inNoffFile, s.s_size⟩ ∧
      Copies s st { st' with noffH := place st'.noffH s.kind seg } := by
  unfold Locals.copy at h
  cases hread : (st.fdIn.lseek s.s_scnptr.toInt).Read s.s_size.toInt with
  | error e => rw [hread] at h; cases h
  | ok x =>
      obtain ⟨buffer, fdIn⟩ := x
      rw [hread] at h
      dsimp only at h
      cases hwrite : st.fdOut.Write buffer s.s_size.toInt with
      | error e => rw [hwrite] at h; cases h
      | ok fdOut =>
          rw [hwrite] at h
          cases h
          have hcontent : (st.fdIn.lseek s.s_scnptr.toInt).content = st.fdIn.content := by
            unfold Fd.lseek
            split <;> rfl
          obtain ⟨hin, hr⟩ := Read_cases hread
          refine ⟨rfl, rfl, rfl, hin.trans hcontent, ?_⟩
          rcases Write_cases hwrite with ⟨hn, hout⟩ | ⟨hn, hfit, hout⟩
          · exact .inl ⟨hn, hout⟩
          · have hne : s.s_size.toInt ≠ 0 := fun he => hs (BitVec.eq_of_toInt_eq he)
            obtain ⟨hlen, hbuf⟩ := hr.resolve_left fun hr => by omega
            have htake : buffer.take s.s_size.toInt.toNat = buffer :=
              List.take_of_length_le (by omega)
            have hnat : s.s_size.toInt.toNat = buffer.length := by omega
            rw [htake, hnat] at hout
            refine .inr ⟨buffer, hlen, by omega, fun hptr k hk => ?_, hout⟩
            rw [hbuf, getElem?_readPartial (by rwa [← hbuf]), hcontent, Fd.lseek, if_pos hptr]

/-- A section that is loaded is copied; initialised data is loaded once. -/
theorem load_spec (hk : s.kind ≠ .empty ∧ s.kind ≠ .bss) (h : st.load s = .ok st') :
    Copies s st st' ∧ ((s.kind = .text) ∨ (s.kind = .data ∧ st.noffH.initData.size = 0)) := by
  have hs : s.s_size ≠ 0 := by
    intro he
    exact hk.1 (by rw [Scnhdr.kind, if_pos he])
  unfold Locals.load at h
  cases hkind : s.kind with
  | empty => exact absurd hkind hk.1
  | bss => exact absurd hkind hk.2
  | unknown => rw [hkind] at h; cases h
  | text =>
      rw [hkind] at h
      dsimp only at h
      cases hcopy : st.copy s with
      | error e => rw [hcopy] at h; cases h
      | ok x =>
          rw [hcopy] at h
          cases h
          have hc := (copy_spec hs hcopy).2
          rw [place_text hkind] at hc
          exact ⟨hc, .inl rfl⟩
  | data =>
      rw [hkind] at h
      dsimp only at h
      split at h
      · cases h
      rename_i hnone
      cases hcopy : st.copy s with
      | error e => rw [hcopy] at h; cases h
      | ok x =>
          rw [hcopy] at h
          cases h
          have hc := (copy_spec hs hcopy).2
          rw [place_data hkind] at hc
          exact ⟨hc, .inr ⟨rfl, not_not.mp hnone⟩⟩

/-! ### The loop -/

variable {sections l done : List Scnhdr} {coff out : List Byte} {stack : NoffHeader} {fdIn : Fd}

theorem loadAll_cons_ok (h : st.loadAll (s :: l) = .ok st') :
    ∃ st₁, st.load s = .ok st₁ ∧ st₁.loadAll l = .ok st' := by
  rw [Locals.loadAll] at h
  cases hload : st.load s with
  | error e => rw [hload] at h; cases h
  | ok st₁ => rw [hload] at h; exact ⟨st₁, rfl, h⟩

theorem segment_place_self (h : NoffHeader) (k : Kind) : segment (place h k seg) k = seg := by
  unfold segment place
  split <;> rfl

theorem segment_place_ne {h : NoffHeader} {k k' : Kind} (hk : k = .text ∨ k = .data)
    (hk' : k' = .text ∨ k' = .data) (hne : k' ≠ k) :
    segment (place h k seg) k' = segment h k' := by
  rcases hk with rfl | rfl <;> rcases hk' with rfl | rfl <;> first | rfl | exact absurd rfl hne

/-- Where the loop gets to its end, every section that is copied is one of code or of initialised
data, and there is at most one of the latter. -/
theorem loadAll_kinds (hl : ∀ s ∈ l, s.kind ≠ .empty ∧ s.kind ≠ .bss)
    (h : st.loadAll l = .ok st') :
    (∀ s ∈ l, s.kind = .text ∨ s.kind = .data) ∧
      (l.countP fun s => s.kind = .data) ≤ if st.noffH.initData.size = 0 then 1 else 0 := by
  induction l generalizing st with
  | nil => exact ⟨fun s hs => absurd hs List.not_mem_nil, by simp⟩
  | cons s l ih =>
      obtain ⟨st₁, hload, hrest⟩ := loadAll_cons_ok h
      rw [List.forall_mem_cons] at hl
      obtain ⟨hc, hk⟩ := load_spec hl.1 hload
      obtain ⟨hkinds, hcount⟩ := ih hl.2 hrest
      rw [hc.noffH] at hcount
      rcases hk with hk | ⟨hk, hnone⟩
      · rw [place_text hk] at hcount
        rw [List.forall_mem_cons, List.countP_cons_of_neg (by simp [hk])]
        exact ⟨⟨.inl hk, hkinds⟩, hcount⟩
      · have hs : s.s_size ≠ 0 := fun he => hl.1.1 (by rw [Scnhdr.kind, if_pos he])
        rw [place_data hk, if_neg hs] at hcount
        rw [List.forall_mem_cons, List.countP_cons_of_pos (by simp [hk]), if_pos hnone]
        exact ⟨⟨.inr hk, hkinds⟩, by omega⟩

/-- **The segments lie where the header says**, behind the header and apart; and while every section
had a size above 0, `inNoffFile` is the place where the next one is written. -/
structure Laid (coff : List Byte) (done : List Scnhdr) (st : Locals) : Prop where
  input : st.fdIn.content = coff
  room : sizeofNoffHeader ≤ st.fdOut.offset
  length : st.fdOut.content.length ≤ st.fdOut.offset
  recorded : ∀ s ∈ done, ∃ a, segment st.noffH s.kind = ⟨s.s_paddr, a, s.s_size⟩ ∧
    BytesAt coff st.fdOut.content s a ∧
    (0 < s.s_size.toInt → (sizeofNoffHeader : Int) ≤ a.toInt ∧
      a.toInt + s.s_size.toInt ≤ st.fdOut.offset)
  absent : ∀ k, k = .text ∨ k = .data → (∀ s ∈ done, s.kind ≠ k) → (segment st.noffH k).size = 0
  apart : ∀ x ∈ places st.noffH.code, x ∉ places st.noffH.initData
  inStep : (∀ s ∈ done, 0 < s.s_size.toInt) → st.inNoffFile.toInt = st.fdOut.offset

theorem notMem_places (h : seg.size.toInt ≤ 0) (x : Int) : x ∉ places seg := by
  rintro ⟨h₁, h₂⟩
  omega

theorem size_of_mem_places {x : Int} (h : x ∈ places seg) : 0 < seg.size.toInt := by
  by_contra hsize
  exact notMem_places (not_lt.mp hsize) x h

/-- What is written behind the end leaves the bytes where they are. -/
theorem BytesAt.write {a : Word} {off : Nat} {buffer : List Byte} (h : BytesAt coff out s a)
    (hoff : out.length ≤ off) : BytesAt coff (writeFile out off buffer) s a := by
  intro k hk
  obtain ⟨hptr, ha, b, hin, hout⟩ := h k hk
  have hlt : a.toInt.toNat + k < out.length := (List.getElem?_eq_some_iff.mp hout).1
  refine ⟨hptr, ha, b, hin, ?_⟩
  rw [getElem?_writeFile_outside hlt (.inl (by omega)), hout]

theorem BytesAt.copies {a : Word} (h : BytesAt coff st.fdOut.content s a)
    (hlen : st.fdOut.content.length ≤ st.fdOut.offset) {t : Scnhdr} (hc : Copies t st st') :
    BytesAt coff st'.fdOut.content s a := by
  rcases hc.output with ⟨-, hout⟩ | ⟨buffer, -, -, -, hout⟩
  · rw [hout]
    exact h
  · rw [hout]
    exact h.write hlen

/-- The output does not get shorter, and its end stays before the place of the next write. -/
theorem Copies.offset (hc : Copies s st st') (hlen : st.fdOut.content.length ≤ st.fdOut.offset) :
    st.fdOut.offset ≤ st'.fdOut.offset ∧ st'.fdOut.content.length ≤ st'.fdOut.offset := by
  rcases hc.output with ⟨-, hout⟩ | ⟨buffer, -, -, -, hout⟩
  · rw [hout]
    exact ⟨le_rfl, hlen⟩
  · rw [hout]
    exact ⟨Nat.le_add_right .., length_writeFile_le hlen⟩

/-- The bytes of the section that is copied. -/
theorem Copies.bytesAt (hc : Copies s st st')
    (hptr : 0 < s.s_size.toInt → 0 ≤ s.s_scnptr.toInt)
    (hstep : 0 < s.s_size.toInt → st.inNoffFile.toInt = st.fdOut.offset) :
    BytesAt st.fdIn.content st'.fdOut.content s st.inNoffFile := by
  intro k hk
  have hpos : 0 < s.s_size.toInt := by omega
  rcases hc.output with ⟨hn, -⟩ | ⟨buffer, hlen, -, hbuf, hout⟩
  · omega
  · have hk' : k < buffer.length := by omega
    refine ⟨hptr hpos, by rw [hstep hpos]; omega, buffer.get ⟨k, hk'⟩, ?_, ?_⟩
    · rw [← hbuf (hptr hpos) k hk']
      exact List.getElem?_eq_getElem hk'
    · rw [hstep hpos, hout, Int.toNat_natCast, getElem?_writeFile_inside hk']
      exact List.getElem?_eq_getElem hk'

theorem toInt_add {x y : Word} {z : Int} (h : x.toInt + y.toInt = z) (h₁ : -2 ^ 31 ≤ z)
    (h₂ : z < 2 ^ 31) : (x + y).toInt = z := by
  rw [BitVec.toInt_add, h]
  exact Int.bmod_eq_of_le (by omega) (by omega)

theorem Copies.grows (hc : Copies s st st') (hsize : 0 < s.s_size.toInt) :
    (st'.fdOut.offset : Int) = st.fdOut.offset + s.s_size.toInt ∧
      (st'.fdOut.offset : Int) < 2 ^ 31 := by
  rcases hc.output with ⟨hn, -⟩ | ⟨buffer, hlen, hfit, -, hout⟩
  · omega
  · rw [hout]
    dsimp only
    omega

/-- The place of the next section is behind every segment. -/
theorem Laid.apart_new {t : Scnhdr} (h : Laid coff done st)
    (hpos : 0 < t.s_size.toInt → ∀ s ∈ done, 0 < s.s_size.toInt) (k : Kind)
    (hk : k = .text ∨ k = .data) {x : Int} (hx : x ∈ places ⟨t.s_paddr, st.inNoffFile, t.s_size⟩) :
    x ∉ places (segment st.noffH k) := by
  have ht : 0 < t.s_size.toInt := size_of_mem_places hx
  have hnext := h.inStep (hpos ht)
  intro hx'
  by_cases hex : ∃ s ∈ done, s.kind = k
  · obtain ⟨s, hs, rfl⟩ := hex
    obtain ⟨a, hseg, -, hin⟩ := h.recorded s hs
    have hend := (hin (hpos ht s hs)).2
    rw [hseg] at hx'
    obtain ⟨h₁, -⟩ := hx
    obtain ⟨-, h₂⟩ := hx'
    dsimp only at h₁ h₂
    omega
  · have habsent := h.absent k hk fun s hs e => hex ⟨s, hs, e⟩
    exact notMem_places (by rw [habsent]; decide) x hx'

/-- **One more section.** -/
theorem Laid.copies {t : Scnhdr} (h : Laid coff done st) (hc : Copies t st st')
    (hk : t.kind = .text ∨ t.kind = .data) (hdone : ∀ s ∈ done, s.kind = .text ∨ s.kind = .data)
    (hnew : ∀ s ∈ done, s.kind ≠ t.kind)
    (hptr : 0 < t.s_size.toInt → 0 ≤ t.s_scnptr.toInt)
    (hpos : 0 < t.s_size.toInt → ∀ s ∈ done, 0 < s.s_size.toInt) :
    Laid coff (done ++ [t]) st' := by
  obtain ⟨hoff, hlen⟩ := hc.offset h.length
  have hstep : 0 < t.s_size.toInt → st.inNoffFile.toInt = st.fdOut.offset :=
    fun ht => h.inStep (hpos ht)
  refine ⟨hc.input.trans h.input, h.room.trans hoff, hlen, ?_, ?_, ?_, ?_⟩
  · intro s hs
    rw [List.mem_append, List.mem_singleton] at hs
    rcases hs with hs | rfl
    · obtain ⟨a, hseg, hbytes, hin⟩ := h.recorded s hs
      refine ⟨a, ?_, hbytes.copies h.length hc, fun hsize => ?_⟩
      · rw [hc.noffH, segment_place_ne hk (hdone s hs) (hnew s hs), hseg]
      · obtain ⟨h₁, h₂⟩ := hin hsize
        exact ⟨h₁, by omega⟩
    · refine ⟨st.inNoffFile, by rw [hc.noffH, segment_place_self], ?_, fun hsize => ?_⟩
      · rw [← h.input]
        exact hc.bytesAt hptr hstep
      · have hroom := h.room
        have hgrows := (hc.grows hsize).1
        rw [hstep hsize]
        omega
  · intro k hk' hnone
    have hne : k ≠ t.kind := fun e => hnone t (by simp) e.symm
    rw [hc.noffH, segment_place_ne hk hk' hne]
    exact h.absent k hk' fun s hs => hnone s (List.mem_append_left _ hs)
  · have hother := h.apart_new hpos
    rw [hc.noffH]
    rcases hk with hk | hk
    · rw [place_text hk]
      exact fun x hx => hother .data (.inr rfl) hx
    · rw [place_data hk]
      exact fun x hx hx' => hother .text (.inl rfl) hx' hx
  · intro hall
    have ht : 0 < t.s_size.toInt := hall t (by simp)
    obtain ⟨hgrows, hlt⟩ := hc.grows ht
    rw [hc.next]
    exact toInt_add (by rw [hstep ht, hgrows]) (by omega) hlt

/-- **All sections.** -/
theorem Laid.loadAll (h : Laid coff done st) (hrun : st.loadAll l = .ok st')
    (hl : ∀ s ∈ l, s.kind ≠ .empty ∧ s.kind ≠ .bss)
    (hdone : ∀ s ∈ done, s.kind = .text ∨ s.kind = .data)
    (hkinds : ((done ++ l).map Scnhdr.kind).Nodup)
    (hptr : ∀ s ∈ l, 0 < s.s_size.toInt → 0 ≤ s.s_scnptr.toInt)
    (hpos : (done ++ l).Pairwise fun s t => 0 < t.s_size.toInt → 0 < s.s_size.toInt) :
    Laid coff (done ++ l) st' := by
  induction l generalizing done st with
  | nil =>
      cases hrun
      rwa [List.append_nil]
  | cons t l ih =>
      obtain ⟨st₁, hload, hrest⟩ := loadAll_cons_ok hrun
      rw [List.forall_mem_cons] at hl hptr
      obtain ⟨hc, hk⟩ := load_spec hl.1 hload
      have hk : t.kind = .text ∨ t.kind = .data := hk.imp_right And.left
      have hnew : ∀ s ∈ done, s.kind ≠ t.kind := by
        intro s hs
        rw [List.map_append, List.map_cons, List.nodup_append] at hkinds
        exact hkinds.2.2 _ (List.mem_map_of_mem hs) _ List.mem_cons_self
      have hpos' : 0 < t.s_size.toInt → ∀ s ∈ done, 0 < s.s_size.toInt := by
        intro ht s hs
        exact (List.pairwise_append.mp hpos).2.2 s hs t List.mem_cons_self ht
      have h₁ := h.copies hc hk hdone hnew hptr.1 hpos'
      have hdone' : ∀ s ∈ done ++ [t], s.kind = .text ∨ s.kind = .data := by
        intro s hs
        rw [List.mem_append, List.mem_singleton] at hs
        rcases hs with hs | rfl
        · exact hdone s hs
        · exact hk
      rw [List.append_cons] at hkinds hpos ⊢
      exact ih h₁ hrest hl.2 hdone' hkinds hptr.2 hpos

theorem laid_start (hin : fdIn.content = coff) : Laid coff [] (Locals.start stack fdIn) where
  input := hin
  room := le_rfl
  length := Nat.zero_le _
  recorded s hs := absurd hs List.not_mem_nil
  absent k hk _ := by rcases hk with rfl | rfl <;> rfl
  apart x hx := absurd hx (notMem_places le_rfl x)
  inStep _ := rfl

/-- The header leaves the bytes behind it. -/
theorem BytesAt.header {a : Word} (h : NoffHeader) (hb : BytesAt coff out s a)
    (ha : 0 < s.s_size.toInt → (sizeofNoffHeader : Int) ≤ a.toInt) :
    BytesAt coff (writeFile out 0 (headerBytes h)) s a := by
  intro k hk
  obtain ⟨hptr, ha₀, b, hin, hout⟩ := hb k hk
  have hlt : a.toInt.toNat + k < out.length := (List.getElem?_eq_some_iff.mp hout).1
  have hbehind := ha (by omega)
  refine ⟨hptr, ha₀, b, hin, ?_⟩
  rw [getElem?_writeFile_outside hlt (.inr (by rw [length_headerBytes]; omega)), hout]

theorem readSections_content {fd : Fd} (h : readSections fd = .ok (sections, fdIn)) :
    fdIn.content = fd.content := by
  unfold readSections at h
  split at h
  · cases h
  rename_i fileh fd₁ h₁
  split at h
  · cases h
  split at h
  · cases h
  rename_i systemh fd₂ h₂
  split at h
  · cases h
  dsimp only at h
  split at h
  · cases h
  rename_i buf fd₃ h₃
  cases h
  rw [(Read_cases h₃).1, (Read_cases h₂).1, (Read_cases h₁).1]

theorem segment_setUninit (st : Locals) (u : Segment) (k : Kind) :
    segment (st.setUninit u).noffH k = segment st.noffH k := rfl

theorem mem_copied (hs : s ∈ copied sections) :
    s ∈ sections ∧ s.kind ≠ .empty ∧ s.kind ≠ .bss := by
  rw [copied, List.mem_filter, decide_eq_true_iff] at hs
  exact hs

/-- Sections of two kinds, at most one of each. -/
theorem nodup_kinds (hk : ∀ s ∈ l, s.kind = .text ∨ s.kind = .data)
    (htext : (l.countP fun s => s.kind = .text) ≤ 1)
    (hdata : (l.countP fun s => s.kind = .data) ≤ 1) : (l.map Scnhdr.kind).Nodup := by
  rw [List.nodup_iff_count_le_one]
  intro k
  rw [List.count_eq_countP, List.countP_map]
  by_cases h₁ : k = .text
  · rw [h₁]
    exact htext
  by_cases h₂ : k = .data
  · rw [h₂]
    exact hdata
  · rw [List.countP_eq_zero.mpr fun s hs hsk => ?_]
    · exact Nat.zero_le _
    · rw [Function.comp_apply, beq_iff_eq] at hsk
      rcases hk s hs with e | e
      · exact h₁ (hsk.symm.trans e)
      · exact h₂ (hsk.symm.trans e)

/-- What the converter has copied when it succeeds, and the header of its output. -/
theorem main_copied (hr : readSections ⟨coff, 0⟩ = .ok (sections, fdIn))
    (h : main stack coff = .ok out) : ∃ st u,
      (Locals.start stack fdIn).loadAll (copied sections) = .ok st ∧
      header out = (st.setUninit u).noffH ∧
      out = writeFile st.fdOut.content 0 (headerBytes (st.setUninit u).noffH) := by
  obtain ⟨st, hrun, -, hout⟩ := (main_iff hr).mp h
  refine ⟨st, _, hrun, ?_, hout⟩
  rw [hout, header_writeFile]

/-- The sections that are copied are of two kinds, and no two are of one. -/
theorem copied_kinds (htext : (sections.countP fun s => s.kind = .text) ≤ 1)
    (hrun : (Locals.start stack fdIn).loadAll (copied sections) = .ok st) :
    (∀ s ∈ copied sections, s.kind = .text ∨ s.kind = .data) ∧
      ((copied sections).map Scnhdr.kind).Nodup := by
  obtain ⟨hk, hdata⟩ := loadAll_kinds (fun s hs => (mem_copied hs).2) hrun
  have hle : ((copied sections).countP fun s => s.kind = .text) ≤ 1 :=
    (List.filter_sublist.countP_le ..).trans htext
  exact ⟨hk, nodup_kinds hk hle (hdata.trans (by split <;> omega))⟩

/-- **In a file whose sections are located, they come through.** -/
theorem preserved_of_located (hr : readSections ⟨coff, 0⟩ = .ok (sections, fdIn))
    (htext : (sections.countP fun s => s.kind = .text) ≤ 1) (h : main stack coff = .ok out)
    (hloc : Located sections) : Preserved coff out sections := by
  obtain ⟨st, u, hrun, hheader, hout⟩ := main_copied hr h
  obtain ⟨hk, hnodup⟩ := copied_kinds htext hrun
  have hlaid : Laid coff (copied sections) st :=
    (laid_start (readSections_content hr)).loadAll hrun (fun s hs => (mem_copied hs).2)
      (fun s hs => absurd hs List.not_mem_nil) hnodup hloc.1 hloc.2
  have hseg : ∀ k, segment (header out) k = segment st.noffH k := by
    intro k
    rw [hheader, segment_setUninit]
  refine ⟨fun s hs => ?_, fun s hs => ?_, fun s hs => ?_, fun k hk hnone => ?_,
    fun k hk x hx => ?_, ?_⟩
  · obtain ⟨a, hrec, -⟩ := hlaid.recorded s hs
    rw [hseg, hrec]
  · obtain ⟨a, hrec, -⟩ := hlaid.recorded s hs
    rw [hseg, hrec]
  · obtain ⟨a, hrec, hbytes, hin⟩ := hlaid.recorded s hs
    rw [hseg, hrec, hout]
    exact hbytes.header _ fun hsize => (hin hsize).1
  · rw [hseg]
    exact hlaid.absent k hk fun s hs => hnone s (mem_copied hs).1
  · rw [hseg] at hx
    by_cases hex : ∃ s ∈ copied sections, s.kind = k
    · obtain ⟨s, hs, rfl⟩ := hex
      obtain ⟨a, hrec, -, hin⟩ := hlaid.recorded s hs
      rw [hrec] at hx
      have hbehind := (hin (size_of_mem_places hx)).1
      obtain ⟨h₁, -⟩ := hx
      dsimp only at h₁
      omega
    · have habsent := hlaid.absent k hk fun s hs e => hex ⟨s, hs, e⟩
      exact absurd hx (notMem_places (by rw [habsent]; decide) x)
  · rw [hheader]
    exact hlaid.apart

/-- There are two sections at most. -/
theorem copied_cases (hk : ∀ s ∈ l, s.kind = .text ∨ s.kind = .data)
    (hnodup : (l.map Scnhdr.kind).Nodup) : l.length ≤ 1 ∨ ∃ s t, l = [s, t] := by
  match l with
  | [] => exact .inl (Nat.zero_le _)
  | [s] => exact .inl le_rfl
  | [s, t] => exact .inr ⟨s, t, rfl⟩
  | s :: t :: r :: l =>
      -- three sections of two kinds
      exfalso
      simp only [List.map_cons, List.nodup_cons, List.mem_cons, not_or] at hnodup
      obtain ⟨⟨h₁, h₂, -⟩, ⟨h₃, -⟩, -⟩ := hnodup
      have hs := hk s (by simp)
      have ht := hk t (by simp)
      have hr := hk r (by simp)
      rcases hs with hs | hs <;> rcases ht with ht | ht <;> rcases hr with hr | hr <;>
        simp [hs, ht, hr] at h₁ h₂ h₃

/-- A section of size -1 puts the next one over the header. -/
theorem pos_of_behind {s t : Scnhdr} {st₁ st₂ : Locals}
    (hs : s.kind ≠ .empty) (hc₁ : Copies s (Locals.start stack fdIn) st₁) (hc₂ : Copies t st₁ st₂)
    (hbehind : ∀ x ∈ places (segment st₂.noffH t.kind), ¬ (0 ≤ x ∧ x < sizeofNoffHeader))
    (ht : 0 < t.s_size.toInt) : 0 < s.s_size.toInt := by
  rcases hc₁.output with ⟨hn, -⟩ | ⟨buffer, hlen, -⟩
  · exfalso
    have haddr : st₁.inNoffFile.toInt = 39 := by
      rw [hc₁.next]
      exact toInt_add (by rw [hn]; rfl) (by decide) (by decide)
    rw [hc₂.noffH, segment_place_self] at hbehind
    refine hbehind 39 ⟨?_, ?_⟩ (by decide)
    · exact haddr.le
    · show 39 < st₁.inNoffFile.toInt + t.s_size.toInt
      omega
  · have hne : s.s_size.toInt ≠ 0 := by
      intro he
      exact hs (by rw [Scnhdr.kind, if_pos (BitVec.eq_of_toInt_eq he)])
    omega

/-- **Only the sections of a file that are located come through.** -/
theorem located_of_preserved (hr : readSections ⟨coff, 0⟩ = .ok (sections, fdIn))
    (htext : (sections.countP fun s => s.kind = .text) ≤ 1) (h : main stack coff = .ok out)
    (hp : Preserved coff out sections) : Located sections := by
  obtain ⟨st, u, hrun, hheader, -⟩ := main_copied hr h
  obtain ⟨hk, hnodup⟩ := copied_kinds htext hrun
  refine ⟨fun s hs hsize => (hp.bytes s hs 0 (by omega)).1, ?_⟩
  rcases copied_cases hk hnodup with hone | ⟨s, t, hl⟩
  · match hl : copied sections, hone with
    | [], _ => exact List.Pairwise.nil
    | [s], _ => exact List.pairwise_singleton ..
  · have hs : s ∈ copied sections := by rw [hl]; simp
    have ht : t ∈ copied sections := by rw [hl]; simp
    have hbehind := hp.behind t.kind (hk t ht)
    rw [hheader, segment_setUninit] at hbehind
    rw [hl] at hrun ⊢
    obtain ⟨st₁, hload₁, hrest⟩ := loadAll_cons_ok hrun
    obtain ⟨st₂, hload₂, hrest⟩ := loadAll_cons_ok hrest
    cases hrest
    rw [List.pairwise_pair]
    exact pos_of_behind (mem_copied hs).2.1 (load_spec (mem_copied hs).2 hload₁).1
      (load_spec (mem_copied ht).2 hload₂).1 hbehind

theorem named_unique {a b : List Byte} (ha : s.named a = true) (hb : s.named b = true) :
    CString.strn 8 a = CString.strn 8 b := by
  rw [Scnhdr.named, beq_iff_eq, CString.strncmp_eq_zero_iff] at ha hb
  rw [← ha, hb]

theorem kind_data (hs : s.s_size ≠ 0) (h : s.isData = true ∨ s.isRdata = true) :
    s.kind = .data := by
  have htext : ¬ s.isText = true := by
    intro htext
    rcases h with h | h
    · exact absurd (named_unique htext h) (by decide)
    · exact absurd (named_unique htext h) (by decide)
  rw [Scnhdr.kind, if_neg hs, if_neg htext, if_pos (by rwa [Bool.or_eq_true])]

/-- The converter rejects a file with both kinds of initialised data. -/
theorem both_data_rejected (hr : readSections ⟨coff, 0⟩ = .ok (sections, fdIn)) {s t : Scnhdr}
    (hs : s ∈ sections) (hsn : s.s_size ≠ 0) (hsd : s.isData = true)
    (ht : t ∈ sections) (htn : t.s_size ≠ 0) (htd : t.isRdata = true) :
    main stack coff ≠ .ok out := by
  intro h
  obtain ⟨st, u, hrun, -⟩ := main_copied hr h
  have hks := kind_data hsn (.inl hsd)
  have hkt := kind_data htn (.inr htd)
  have hne : s ≠ t := by
    rintro rfl
    exact absurd (named_unique hsd htd) (by decide)
  have hmem : ∀ x ∈ sections, x.kind = .data →
      x ∈ (copied sections).filter fun s => s.kind = .data := by
    intro x hx hk
    rw [List.mem_filter, copied, List.mem_filter, hk]
    exact ⟨⟨hx, by decide⟩, by decide⟩
  have hcount := (loadAll_kinds (fun s hs => (mem_copied hs).2) hrun).2
  rw [List.countP_eq_length_filter,
    if_pos (show (Locals.start stack fdIn).noffH.initData.size = 0 from rfl)] at hcount
  have hs' := hmem s hs hks
  have ht' := hmem t ht hkt
  cases hl : (copied sections).filter fun s => s.kind = .data with
  | nil =>
      rw [hl] at hs'
      exact List.not_mem_nil hs'
  | cons x l =>
      rw [hl] at hs' ht' hcount
      obtain rfl : l = [] := List.length_eq_zero_iff.mp (by rw [List.length_cons] at hcount; omega)
      exact hne ((List.mem_singleton.mp hs').trans (List.mem_singleton.mp ht').symm)

/-- **The NOFF file carries the code and the initialised data of the COFF file exactly when its
sections are located**: where the converter accepts a file with at most one section of code, each
segment has the address, the size and the bytes of its section, apart from the others and from the
header, if and only if each section that has bytes has a position in the file and none of size -1
before it.  A file with both kinds of initialised data is rejected. -/
theorem segments_preserved_iff (hr : readSections ⟨coff, 0⟩ = .ok (sections, fdIn)) :
    (∀ out, (sections.countP fun s => s.kind = .text) ≤ 1 → main stack coff = .ok out →
      (Preserved coff out sections ↔ Located sections)) ∧
    ((∃ s ∈ sections, s.s_size ≠ 0 ∧ s.isData = true) →
      (∃ s ∈ sections, s.s_size ≠ 0 ∧ s.isRdata = true) → ∃ e, main stack coff = .error e) := by
  constructor
  · intro out htext h
    exact ⟨located_of_preserved hr htext h, preserved_of_located hr htext h⟩
  · rintro ⟨s, hs, hsn, hsd⟩ ⟨t, ht, htn, htd⟩
    cases h : main stack coff with
    | error e => exact ⟨e, rfl⟩
    | ok out => exact absurd h (both_data_rejected hr hs hsn hsd ht htn htd)

end

/-- `.text`, four bytes that lie at `s_scnptr` in the file. -/
def textSection (s_scnptr : Word) : Scnhdr :=
  ⟨[0x2e, 0x74, 0x65, 0x78, 0x74, 0, 0, 0], 0, 4, s_scnptr⟩

/-- `.data`, two bytes at 159. -/
def dataSection : Scnhdr := ⟨[0x2e, 0x64, 0x61, 0x74, 0x61, 0, 0, 0], 0x80, 2, 159⟩

/-- A file with both; the code lies behind the initialised data. -/
def twoSegments : List Byte :=
  coffFile [textSection 161, dataSection] [0, 0, 0, 7, 8, 1, 2, 3, 4]

/-- Both are carried to the output. -/
theorem segments_preserved_two : ∃ out, main zeroHeader twoSegments = .ok out ∧
    Preserved twoSegments out [textSection 161, dataSection] := by
  have hr : ∃ fdIn, readSections ⟨twoSegments, 0⟩ = .ok ([textSection 161, dataSection], fdIn) :=
    ⟨_, rfl⟩
  have hmain : ∃ out, main zeroHeader twoSegments = .ok out := ⟨_, rfl⟩
  obtain ⟨fdIn, hr⟩ := hr
  obtain ⟨out, hmain⟩ := hmain
  refine ⟨out, hmain, ((segments_preserved_iff hr).1 out (by decide) hmain).mpr ?_⟩
  exact ⟨by decide, by decide⟩

/-- A negative position: the converter accepts the file, and takes the bytes from where it is, just
behind the headers. -/
theorem segments_elsewhere : ∃ fdIn out,
    readSections ⟨coffFile [textSection (-1)] [1, 2, 3, 4], 0⟩ = .ok ([textSection (-1)], fdIn) ∧
    ([textSection (-1)].countP fun s => s.kind = .text) ≤ 1 ∧
    main zeroHeader (coffFile [textSection (-1)] [1, 2, 3, 4]) = .ok out ∧
    out.drop sizeofNoffHeader = [1, 2, 3, 4] ∧
    ¬ Preserved (coffFile [textSection (-1)] [1, 2, 3, 4]) out [textSection (-1)] := by
  refine ⟨_, _, rfl, by decide, rfl, rfl, fun hp => ?_⟩
  have hbytes := hp.bytes (textSection (-1)) (by decide) 0 (by decide)
  exact absurd hbytes.1 (by decide)

end Nachos.Coff2noff
