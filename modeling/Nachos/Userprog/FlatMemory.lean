import Mathlib.Data.Nat.Digits.Defs
import Nachos.Lib.Traces
import Nachos.Machine.Memory
import Nachos.Userprog.AddrSpace

/-!
# Userprog — FlatMemory

User memory as a program sees it.  `Flat.step` is an array of bytes with aligned little-endian
reads and writes of 1, 2 or 4 bytes; `Memory.step` is `ReadMem` and `WriteMem` (machine/translate.cc)
on a machine with a page table `AddrSpace` has built.  `flat` reads the array off the machine, page
by page, and every call answers as the array does (`step_flat`): an aligned access stays in its page
(`offset_add_size_le`), and different pages have different frames (`physAddr_near`).
-/

namespace Nachos
open Lib Machine

/-- The sizes of an access. -/
inductive AccessSize where
  | byte | half | word
  deriving DecidableEq, Repr

def AccessSize.bytes : AccessSize → Nat
  | byte => 1
  | half => 2
  | word => 4

theorem AccessSize.bytes_cases (size : AccessSize) :
    size.bytes = 1 ∨ size.bytes = 2 ∨ size.bytes = 4 := by
  cases size <;> decide

/-- A call of `ReadMem` or of `WriteMem`. -/
inductive Access where
  | read (addr : Word) (size : AccessSize)
  | write (addr : Word) (size : AccessSize) (value : Word)
  deriving DecidableEq, Repr

def Access.addr : Access → Word
  | read addr _ | write addr _ _ => addr

def Access.size : Access → AccessSize
  | read _ size | write _ size _ => size

/-- How a call ends. -/
inductive Outcome where
  | value (v : Word)
  | written
  | raised (which : ExceptionType)
  deriving DecidableEq, Repr

/-- The access is aligned, and lies below `n`. -/
def Access.Fits (a : Access) (n : Nat) : Prop := a.size.bytes ∣ a.addr.toNat ∧ a.addr.toNat < n

instance (a : Access) (n : Nat) : Decidable (a.Fits n) := inferInstanceAs (Decidable (_ ∧ _))

/-! ### The array -/

namespace Flat

/-- The value of the bytes of an access, the first one least significant; one byte is sign
extended. -/
def wordOf : AccessSize → List Byte → Word
  | .byte, bytes => (bytes.headD 0).signExtend 32
  | _, bytes => BitVec.ofNat 32 (Nat.ofDigits 256 (bytes.map BitVec.toNat))

/-- What a write puts at `x`, where it covers `x`. -/
def byteFor (addr : Word) (size : AccessSize) (value : Word) (x : Nat) : Option Byte :=
  if addr.toNat ≤ x ∧ x < addr.toNat + size.bytes then
    some (value.extractLsb' (8 * (x - addr.toNat)) 8)
  else none

/-- An array of bytes. -/
def step (mem : List Byte) (a : Access) : Except Stop (Outcome × List Byte) :=
  if a.Fits mem.length then
    match a with
    | .read addr size =>
        .ok (.value (wordOf size ((mem.drop addr.toNat).take size.bytes)), mem)
    | .write addr size value =>
        .ok (.written, mem.mapIdx fun x b => (byteFor addr size value x).getD b)
  else .ok (.raised .addressErrorException, mem)

/-- What a call has written at `x`. -/
def wrote (x : Nat) : Access × Outcome → Option Byte
  | (.write addr size value, .written) => byteFor addr size value x
  | _ => none

/-- The byte last written at `x` by the calls of `l`, or the initial one. -/
def lastWritten (initial : List Byte) (l : List (Access × Outcome)) (x : Nat) : Byte :=
  (l.reverse.findSome? (wrote x)).getD (initial.getD x 0)

/-- What the array answers to a call that fits, after those of `l`. -/
def answer (initial : List Byte) (l : List (Access × Outcome)) : Access → Outcome
  | .read addr size =>
      .value (wordOf size ((List.range' addr.toNat size.bytes).map (lastWritten initial l)))
  | .write _ _ _ => .written

theorem lastWritten_snoc (initial : List Byte) (l : List (Access × Outcome)) (c : Access × Outcome)
    (x : Nat) : lastWritten initial (l ++ [c]) x = (wrote x c).getD (lastWritten initial l x) :=
  lastWrite_snoc (wrote x) l c _

theorem step_length {mem mem' : List Byte} {a : Access} {r : Outcome}
    (h : step mem a = .ok (r, mem')) : mem'.length = mem.length := by
  unfold step at h
  split at h
  · cases a with
    | read addr size => cases h; rfl
    | write addr size value => cases h; exact List.length_mapIdx
  · cases h; rfl

/-- A step changes a byte to what it has written there. -/
theorem step_getElem? {mem mem' : List Byte} {a : Access} {r : Outcome}
    (h : step mem a = .ok (r, mem')) (x : Nat) :
    mem'[x]? = mem[x]?.map fun b => (wrote x (a, r)).getD b := by
  unfold step at h
  split at h
  · cases a with
    | read addr size => cases h; simp [wrote]
    | write addr size value => cases h; rw [List.getElem?_mapIdx]; rfl
  · cases h
    cases a <;> simp [wrote]

/-- **The array holds what was last written.** -/
theorem trace_lastWritten {mem mem' : List Byte} {l : List (Access × Outcome)}
    (h : Trace step mem l mem') : mem'.length = mem.length ∧
      ∀ x, x < mem.length → mem'[x]? = some (lastWritten mem l x) := by
  refine h.inv (I := fun l mem' => mem'.length = mem.length ∧
    ∀ x, x < mem.length → mem'[x]? = some (lastWritten mem l x)) ⟨rfl, fun x hx => ?_⟩ ?_
  · simp [lastWritten, hx]
  · intro l mem₁ a r mem₂ ih hs
    refine ⟨(step_length hs).trans ih.1, fun x hx => ?_⟩
    rw [step_getElem? hs, ih.2 x hx, lastWritten_snoc]
    rfl

/-- So the bytes of an access are those last written. -/
theorem take_lastWritten {mem mem' : List Byte} {l : List (Access × Outcome)}
    (h : Trace step mem l mem') {a n : Nat} (hn : a + n ≤ mem.length) :
    (mem'.drop a).take n = (List.range' a n).map (lastWritten mem l) := by
  obtain ⟨hlen, hget⟩ := trace_lastWritten h
  apply List.ext_getElem?
  intro i
  rw [List.getElem?_take, List.getElem?_map]
  split
  · rename_i hi
    rw [List.getElem?_drop, hget _ (by omega), List.getElem?_range' hi, Nat.one_mul]
    rfl
  · rw [List.getElem?_eq_none (by rw [List.length_range']; omega)]
    rfl

theorem step_answer {mem mem' mem'' : List Byte} {l : List (Access × Outcome)} {a : Access}
    {r : Outcome} (h : Trace step mem l mem') (hs : step mem' a = .ok (r, mem''))
    (hle : a.Fits mem.length → a.addr.toNat + a.size.bytes ≤ mem.length) :
    r = if a.Fits mem.length then answer mem l a else .raised .addressErrorException := by
  unfold step at hs
  rw [(trace_lastWritten h).1] at hs
  split at hs
  · rename_i hf
    rw [if_pos hf]
    have htake := take_lastWritten h (hle hf)
    cases a with
    | read addr size =>
        cases hs
        exact congrArg (fun b => Outcome.value (wordOf size b)) htake
    | write addr size value => cases hs; rfl
  · rename_i hf
    cases hs
    rw [if_neg hf]

end Flat

/-! ### The machine -/

namespace Memory

/-- A call of the machine.  An exception ends the call with the machine the kernel is handed. -/
def step (m : Machine) : Access → Except Stop (Outcome × Machine)
  | .read addr size =>
      match readMem addr size.bytes m with
      | .ok v m' => .ok (.value v, m')
      | .raised which m' => .ok (.raised which, m')
      | .aborted => .error .assertFails
  | .write addr size value =>
      match writeMem addr size.bytes value m with
      | .ok _ m' => .ok (.written, m')
      | .raised which m' => .ok (.raised which, m')
      | .aborted => .error .assertFails

end Memory

/-- A page table as `AddrSpace` builds it: every entry is valid and writable, and the frames are
different frames of `mainMemory`. -/
structure Linear (pageTable : List TranslationEntry) : Prop where
  inRange : ∀ e ∈ pageTable, e.physicalPage < NumPhysPages
  valid : ∀ e ∈ pageTable, e.valid = true
  writable : ∀ e ∈ pageTable, e.readOnly = false
  distinct : (pageTable.map TranslationEntry.physicalPage).Nodup

/-- A property of the entries that does not look at their use and dirty bits. -/
theorem forall_mapping {P : TranslationEntry → Prop} (hP : ∀ e, P e.mapping ↔ P e)
    {l l' : List TranslationEntry}
    (h : l'.map TranslationEntry.mapping = l.map TranslationEntry.mapping)
    (hl : ∀ e ∈ l, P e) : ∀ e ∈ l', P e := by
  intro e he
  have hm : e.mapping ∈ l.map TranslationEntry.mapping := h ▸ List.mem_map_of_mem he
  obtain ⟨e', he', heq⟩ := List.mem_map.mp hm
  exact (hP e).mp (heq ▸ (hP e').mpr (hl e' he'))

theorem Linear.congr {l l' : List TranslationEntry} (hl : Linear l)
    (h : l'.map TranslationEntry.mapping = l.map TranslationEntry.mapping) : Linear l' where
  inRange := forall_mapping (fun _ => Iff.rfl) h hl.inRange
  valid := forall_mapping (fun _ => Iff.rfl) h hl.valid
  writable := forall_mapping (fun _ => Iff.rfl) h hl.writable
  distinct := by
    rw [map_physicalPage, h, ← map_physicalPage]
    exact hl.distinct

theorem allocPages_entries : ∀ {n i : Nat} {b b' : BitMap NumPhysPages}
    {entries : List TranslationEntry}, allocPages n i b = some (entries, b') →
    ∀ e ∈ entries, e.valid = true ∧ e.readOnly = false
  | 0, _, _, _, _, h => by
      cases h
      simp
  | n + 1, i, b, b', entries, h => by
      simp only [allocPages] at h
      split at h
      · cases h
      split at h
      · cases h
      rename_i f b₁ _ _ rest b₂ hr
      cases h
      intro e he
      rcases List.mem_cons.mp he with rfl | he
      · exact ⟨rfl, rfl⟩
      · exact allocPages_entries hr e he

/-- **What the constructor of `AddrSpace` builds.** -/
theorem build_linear {exe : Executable} {phys phys' : BitMap NumPhysPages} {sp : AddrSpace}
    (h : AddrSpace.build exe phys = .ok (sp, phys')) : Linear sp.pageTable := by
  obtain ⟨-, hnd, -⟩ := build_spec h
  simp only [AddrSpace.build] at h
  split at h
  · cases h
  split at h
  · cases h
  split at h
  · cases h
  rename_i hp
  split at h
  · cases h
  cases h
  exact ⟨allocPages_inRange hp, fun e he => (allocPages_entries hp e he).1,
    fun e he => (allocPages_entries hp e he).2, hnd⟩

/-- The machine runs on the page table `pageTable`. -/
structure Paged (pageTable : List TranslationEntry) (m : Machine) : Prop where
  table : m.pageTable = some pageTable
  size : m.pageTableSize = pageTable.length
  linear : Linear pageTable

/-- The physical address of the byte at `v`. -/
def physAddr (pageTable : List TranslationEntry) (v : Nat) : Nat :=
  (pageTable[v / PageSize]?.elim 0 TranslationEntry.physicalPage) * PageSize + v % PageSize

/-- User memory, as an array. -/
def flat (pageTable : List TranslationEntry) (m : Machine) : List Byte :=
  (List.range (pageTable.length * PageSize)).map fun v => m.mainMemory (physAddr pageTable v)

section
variable {pageTable : List TranslationEntry} {m : Machine} {addr : Word} {size : AccessSize}

theorem length_flat : (flat pageTable m).length = pageTable.length * PageSize := by
  simp [flat]

theorem physAddr_congr {l l' : List TranslationEntry}
    (h : l'.map TranslationEntry.mapping = l.map TranslationEntry.mapping) (v : Nat) :
    physAddr l' v = physAddr l v := by
  have hp : ∀ l : List TranslationEntry, l[v / PageSize]?.elim 0 TranslationEntry.physicalPage =
      (l.map TranslationEntry.mapping)[v / PageSize]?.elim 0 TranslationEntry.physicalPage := by
    intro l
    rw [List.getElem?_map]
    cases l[v / PageSize]? <;> rfl
  unfold physAddr
  rw [hp, hp l, h]

/-- The alignment check of `Translate`. -/
theorem misaligned_iff : ((size.bytes = 4 ∧ addr &&& 3 ≠ 0) ∨ (size.bytes = 2 ∧ addr &&& 1 ≠ 0)) ↔
    ¬ size.bytes ∣ addr.toNat := by
  have h₁ : addr &&& 1 = 0 ↔ 2 ∣ addr.toNat := by
    rw [← BitVec.toNat_inj, BitVec.toNat_and, Nat.dvd_iff_mod_eq_zero, ← Nat.and_one_is_mod]
    rfl
  have h₃ : addr &&& 3 = 0 ↔ 4 ∣ addr.toNat := by
    rw [← BitVec.toNat_inj, BitVec.toNat_and, Nat.dvd_iff_mod_eq_zero]
    exact Eq.congr_left (Nat.and_two_pow_sub_one_eq_mod _ 2)
  unfold AccessSize.bytes
  cases size with
  | byte => simp
  | half => rw [← h₁]; simp
  | word => rw [← h₃]; simp

/-- An aligned access stays in its page. -/
theorem offset_le (h : size.bytes ∣ addr.toNat) :
    addr.toNat % PageSize + size.bytes ≤ PageSize :=
  offset_add_size_le size.bytes_cases fun hm => misaligned_iff.mp hm h

theorem fits_le {n : Nat} (h : size.bytes ∣ addr.toNat) (hlt : addr.toNat < n * PageSize) :
    addr.toNat + size.bytes ≤ n * PageSize := by
  have hoff := offset_le h
  unfold PageSize at *
  omega

variable (addr size) in
/-- **`Translate` on a table of `AddrSpace`.** -/
theorem translate_eq (hp : Paged pageTable m) (writing : Bool) :
    (¬ (size.bytes ∣ addr.toNat ∧ addr.toNat < pageTable.length * PageSize) ∧
      translate addr size.bytes writing m = .ok (.error .addressErrorException) m) ∨
    (size.bytes ∣ addr.toNat ∧ addr.toNat < pageTable.length * PageSize) ∧
      ∃ pageTable', pageTable'.map TranslationEntry.mapping =
          pageTable.map TranslationEntry.mapping ∧
        translate addr size.bytes writing m =
          .ok (.ok (physAddr pageTable addr.toNat)) { m with pageTable := some pageTable' } := by
  unfold Machine.translate
  by_cases ha : size.bytes ∣ addr.toNat
  · rw [if_neg (fun hm => misaligned_iff.mp hm ha), hp.table, hp.size]
    dsimp only
    by_cases hlt : addr.toNat < pageTable.length * PageSize
    · have hv : addr.toNat / PageSize < pageTable.length := by
        rw [Nat.div_lt_iff_lt_mul (by decide)]
        exact hlt
      have he : pageTable[addr.toNat / PageSize]? = some pageTable[addr.toNat / PageSize] :=
        List.getElem?_eq_getElem hv
      have hmem := List.getElem_mem hv
      have hfr := hp.linear.inRange _ hmem
      have hoff := offset_le ha
      rw [if_neg (by omega), he]
      dsimp only
      rw [if_neg (by simp [hp.linear.valid _ hmem]), if_neg (by simp [hp.linear.writable _ hmem]),
        if_neg (by omega)]
      have hle : pageTable[addr.toNat / PageSize].physicalPage * PageSize +
          addr.toNat % PageSize + size.bytes ≤ MemorySize := by
        unfold MemorySize
        unfold NumPhysPages PageSize at *
        omega
      rw [if_pos hle]
      refine .inr ⟨⟨ha, hlt⟩, _,
        map_mapping_set he true (pageTable[addr.toNat / PageSize].dirty || writing), ?_⟩
      simp only [physAddr, he, Option.elim_some]
    · have hv : pageTable.length ≤ addr.toNat / PageSize := by
        rw [Nat.le_div_iff_mul_le (by decide)]
        omega
      rw [if_pos hv]
      exact .inl ⟨fun h => hlt h.2, rfl⟩
  · rw [if_pos (misaligned_iff.mpr ha)]
    exact .inl ⟨fun h => ha h.1, rfl⟩

/-! ### The two agree -/

theorem getElem?_flat {v : Nat} (hv : v < pageTable.length * PageSize) :
    (flat pageTable m)[v]? = some (m.mainMemory (physAddr pageTable v)) := by
  rw [flat, List.getElem?_map, List.getElem?_range hv]
  rfl

/-- Different pages have different frames. -/
theorem page_eq (hl : Linear pageTable) {x y : Nat} (hx : x < pageTable.length * PageSize)
    (hy : y < pageTable.length * PageSize)
    (h : physAddr pageTable x / PageSize = physAddr pageTable y / PageSize) :
    x / PageSize = y / PageSize := by
  have hdiv : ∀ v, physAddr pageTable v / PageSize =
      pageTable[v / PageSize]?.elim 0 TranslationEntry.physicalPage := by
    intro v
    rw [physAddr, Nat.mul_comm, Nat.mul_add_div (by decide),
      Nat.div_eq_of_lt (Nat.mod_lt _ (by decide)), Nat.add_zero]
  have hx' : x / PageSize < pageTable.length := (Nat.div_lt_iff_lt_mul (by decide)).mpr hx
  have hy' : y / PageSize < pageTable.length := (Nat.div_lt_iff_lt_mul (by decide)).mpr hy
  rw [hdiv, hdiv, List.getElem?_eq_getElem hx', List.getElem?_eq_getElem hy'] at h
  refine (List.getElem?_inj (by rw [List.length_map]; exact hx') hl.distinct).mp ?_
  rw [List.getElem?_map, List.getElem?_map, List.getElem?_eq_getElem hx',
    List.getElem?_eq_getElem hy']
  exact congrArg some h

variable (pageTable) in
/-- Inside a page, physical addresses are as far apart as virtual ones. -/
theorem physAddr_add {x y : Nat} (h : x / PageSize = y / PageSize) :
    physAddr pageTable x + y = physAddr pageTable y + x := by
  have hx := Nat.div_add_mod x PageSize
  have hy := Nat.div_add_mod y PageSize
  unfold physAddr
  rw [h] at hx ⊢
  omega

/-- **The bytes of an access are those of its virtual addresses.** -/
theorem physAddr_near (hl : Linear pageTable) (ha : size.bytes ∣ addr.toNat)
    (hlt : addr.toNat < pageTable.length * PageSize) {x : Nat}
    (hx : x < pageTable.length * PageSize) :
    (physAddr pageTable addr.toNat ≤ physAddr pageTable x ∧
      physAddr pageTable x < physAddr pageTable addr.toNat + size.bytes) ↔
    (addr.toNat ≤ x ∧ x < addr.toNat + size.bytes) := by
  have hoff := offset_le ha
  by_cases h : x / PageSize = addr.toNat / PageSize
  · have := physAddr_add pageTable h
    omega
  · constructor
    · -- both lie in the frame of the page of `addr`
      rintro ⟨h₁, h₂⟩
      refine absurd (page_eq hl hx hlt ?_) h
      have hm : physAddr pageTable addr.toNat % PageSize = addr.toNat % PageSize := by
        rw [physAddr, Nat.mul_add_mod_of_lt (Nat.mod_lt _ (by decide))]
      unfold PageSize at *
      omega
    · rintro ⟨h₁, h₂⟩
      refine absurd ?_ h
      unfold PageSize at *
      omega

theorem storeLE_apply (mem : Nat → Byte) (a n value x : Nat) : storeLE mem a n value x =
    if a ≤ x ∧ x < a + n then BitVec.ofNat 8 (value / 256 ^ (x - a)) else mem x := by
  induction n generalizing mem a value with
  | zero => rw [if_neg (by omega)]; rfl
  | succ n ih =>
      rw [storeLE, ih]
      by_cases hx : x = a
      · subst hx
        rw [if_neg (by omega), if_pos (by omega), Function.update_self, Nat.sub_self, pow_zero,
          Nat.div_one]
      · rw [Function.update_of_ne hx, Nat.div_div_eq_div_mul]
        by_cases hin : a ≤ x ∧ x < a + (n + 1)
        · have e : x - a = x - (a + 1) + 1 := by omega
          rw [if_pos (by omega), if_pos hin, e, pow_succ']
        · rw [if_neg (by omega), if_neg hin]

theorem loadLE_eq {mem : List Byte} {f : Nat → Byte} {a p n : Nat}
    (h : ∀ i, i < n → mem[a + i]? = some (f (p + i))) :
    Nat.ofDigits 256 (((mem.drop a).take n).map BitVec.toNat) = loadLE f p n := by
  induction n generalizing a p with
  | zero => rfl
  | succ n ih =>
      have h₀ := h 0 (by omega)
      obtain ⟨hlt, hget⟩ := List.getElem?_eq_some_iff.mp h₀
      simp only [Nat.add_zero] at hlt hget
      have hrest : ∀ i, i < n → mem[a + 1 + i]? = some (f (p + 1 + i)) := by
        intro i hi
        rw [Nat.add_assoc, Nat.add_assoc, Nat.add_comm 1 i]
        exact h (i + 1) (by omega)
      rw [List.drop_eq_getElem_cons hlt, List.take_succ_cons, List.map_cons, Nat.ofDigits_cons,
        hget, loadLE, ih hrest]

/-- The byte that a write puts at an offset. -/
theorem extract_eq (value : Word) (i : Nat) :
    value.extractLsb' (8 * i) 8 = BitVec.ofNat 8 (value.toNat / 256 ^ i) := by
  rw [BitVec.extractLsb', Nat.shiftRight_eq_div_pow, pow_mul]
  rfl

/-- What the `switch` of `ReadMem` reads. -/
def valueAt (mem : Nat → Byte) (physicalAddress : Nat) : AccessSize → Word
  | .byte => (mem physicalAddress).signExtend 32
  | .half => BitVec.ofNat 32 (loadLE mem physicalAddress 2)
  | .word => BitVec.ofNat 32 (loadLE mem physicalAddress 4)

/-- The value of a `ReadMem` is that of the bytes of the array. -/
theorem wordOf_flat (ha : size.bytes ∣ addr.toNat)
    (hlt : addr.toNat < pageTable.length * PageSize) :
    Flat.wordOf size (((flat pageTable m).drop addr.toNat).take size.bytes) =
      valueAt m.mainMemory (physAddr pageTable addr.toNat) size := by
  have hle := fits_le ha hlt
  have hoff := offset_le ha
  have hget : ∀ i, i < size.bytes → (flat pageTable m)[addr.toNat + i]? =
      some (m.mainMemory (physAddr pageTable addr.toNat + i)) := by
    intro i hi
    have hpage : (addr.toNat + i) / PageSize = addr.toNat / PageSize := by
      unfold PageSize at *
      omega
    have hadd := physAddr_add pageTable hpage
    rw [getElem?_flat (by omega)]
    congr 2
    omega
  have hload := loadLE_eq hget
  cases size with
  | byte =>
      have h₀ := hget 0 (by decide)
      simp only [Nat.add_zero] at h₀
      simp only [Flat.wordOf, AccessSize.bytes, List.headD_eq_head?_getD, List.head?_take,
        List.head?_drop, h₀]
      rfl
  | half | word => exact congrArg (BitVec.ofNat 32) hload

/-- A `WriteMem` writes the bytes the array does. -/
theorem flat_write (hl : Linear pageTable) (ha : size.bytes ∣ addr.toNat)
    (hlt : addr.toNat < pageTable.length * PageSize) {value : Word} {m' : Machine}
    (hm : m'.mainMemory =
      storeLE m.mainMemory (physAddr pageTable addr.toNat) size.bytes value.toNat) :
    flat pageTable m' = (flat pageTable m).mapIdx fun x b =>
      (Flat.byteFor addr size value x).getD b := by
  apply List.ext_getElem?
  intro x
  rw [List.getElem?_mapIdx]
  by_cases hx : x < pageTable.length * PageSize
  · have hnear := physAddr_near hl ha hlt hx
    rw [getElem?_flat hx, getElem?_flat hx, hm, storeLE_apply, Flat.byteFor]
    by_cases hin : addr.toNat ≤ x ∧ x < addr.toNat + size.bytes
    · have hoff := offset_le ha
      have hpage : x / PageSize = addr.toNat / PageSize := by
        unfold PageSize at *
        omega
      have hadd := physAddr_add pageTable hpage
      have hsub : physAddr pageTable x - physAddr pageTable addr.toNat = x - addr.toNat := by
        omega
      rw [if_pos (hnear.mpr hin), if_pos hin, hsub, extract_eq]
      rfl
    · rw [if_neg (fun h => hin (hnear.mp h)), if_neg hin]
      rfl
  · rw [List.getElem?_eq_none (by rw [length_flat]; omega),
      List.getElem?_eq_none (by rw [length_flat]; omega)]
    rfl

theorem flat_congr {pageTable' : List TranslationEntry} {m' : Machine}
    (h : pageTable'.map TranslationEntry.mapping = pageTable.map TranslationEntry.mapping)
    (hm : m'.mainMemory = m.mainMemory) : flat pageTable' m' = flat pageTable m := by
  have hlen : pageTable'.length = pageTable.length := by
    have := congrArg List.length h
    simpa using this
  unfold flat
  rw [hlen, hm]
  exact List.map_congr_left fun v _ => by rw [physAddr_congr h]

/-- The machine runs on the page table `pageTable`, up to its use and dirty bits. -/
def Runs (pageTable : List TranslationEntry) (m : Machine) : Prop :=
  ∃ pageTable', Paged pageTable' m ∧
    pageTable'.map TranslationEntry.mapping = pageTable.map TranslationEntry.mapping

theorem Runs.flat_eq {table : List TranslationEntry}
    (h : table.map TranslationEntry.mapping = pageTable.map TranslationEntry.mapping) :
    flat table m = flat pageTable m := flat_congr h rfl

theorem Runs.length {table : List TranslationEntry}
    (h : table.map TranslationEntry.mapping = pageTable.map TranslationEntry.mapping) :
    table.length = pageTable.length := by
  simpa using congrArg List.length h

/-- The use and dirty bits do not matter. -/
theorem Runs.touch {table table' : List TranslationEntry} {m' : Machine} (hp : Paged table m)
    (hmap : table.map TranslationEntry.mapping = pageTable.map TranslationEntry.mapping)
    (ht : table'.map TranslationEntry.mapping = table.map TranslationEntry.mapping)
    (hm : m'.pageTable = some table') (hs : m'.pageTableSize = m.pageTableSize) :
    Runs pageTable m' :=
  ⟨table', ⟨hm, by rw [hs, hp.size, Runs.length ht], hp.linear.congr ht⟩, ht.trans hmap⟩

/-- The machine an exception at `addr` hands to the kernel. -/
def trapped (addr : Word) (m : Machine) : Machine := (m.setRegister BadVAddrReg addr).delayedLoad 0 0

/-- **`ReadMem`**: an address error, or the value of the bytes of the array. -/
theorem readMem_eq (h : Runs pageTable m) (addr : Word) (size : AccessSize) :
    (¬ (Access.read addr size).Fits (pageTable.length * PageSize) ∧
      readMem addr size.bytes m = .raised .addressErrorException (trapped addr m)) ∨
    (Access.read addr size).Fits (pageTable.length * PageSize) ∧ ∃ m',
      readMem addr size.bytes m =
        .ok (Flat.wordOf size (((flat pageTable m).drop addr.toNat).take size.bytes)) m' ∧
      Runs pageTable m' ∧ m'.registers = m.registers ∧ m'.mainMemory = m.mainMemory := by
  obtain ⟨table, hp, hmap⟩ := h
  have hb : readMem addr size.bytes m = Exec.bind (translate addr size.bytes false) _ m := rfl
  rw [hb, Exec.bind, ← Runs.length hmap, ← Runs.flat_eq hmap]
  rcases translate_eq addr size hp false with ⟨hf, e⟩ | ⟨⟨ha, hlt⟩, table', ht, e⟩
  · rw [e]
    exact .inl ⟨hf, rfl⟩
  · rw [e, wordOf_flat ha hlt]
    refine .inr ⟨⟨ha, hlt⟩, { m with pageTable := some table' }, ?_, .touch hp hmap ht rfl rfl, rfl,
      rfl⟩
    cases size <;> rfl

/-- **`WriteMem`**: an address error, or the bytes written to the array. -/
theorem writeMem_eq (h : Runs pageTable m) (addr : Word) (size : AccessSize) (value : Word) :
    (¬ (Access.write addr size value).Fits (pageTable.length * PageSize) ∧
      writeMem addr size.bytes value m = .raised .addressErrorException (trapped addr m)) ∨
    (Access.write addr size value).Fits (pageTable.length * PageSize) ∧ ∃ m',
      writeMem addr size.bytes value m = .ok () m' ∧ Runs pageTable m' ∧
      m'.registers = m.registers ∧ flat pageTable m' = (flat pageTable m).mapIdx fun x b =>
        (Flat.byteFor addr size value x).getD b := by
  obtain ⟨table, hp, hmap⟩ := h
  have hb : writeMem addr size.bytes value m = Exec.bind (translate addr size.bytes true) _ m := rfl
  rw [hb, Exec.bind, ← Runs.length hmap]
  rcases translate_eq addr size hp true with ⟨hf, e⟩ | ⟨⟨ha, hlt⟩, table', ht, e⟩
  · rw [e]
    exact .inl ⟨hf, rfl⟩
  · rw [e]
    dsimp only
    rw [if_pos size.bytes_cases]
    refine .inr ⟨⟨ha, hlt⟩, _, rfl, .touch hp hmap ht rfl rfl, rfl, ?_⟩
    rw [← Runs.flat_eq hmap, ← Runs.flat_eq hmap]
    exact flat_write hp.linear ha hlt rfl

/-- A call on the machine answers as the array does, and is one of the array. -/
structure Agrees (pageTable : List TranslationEntry) (m : Machine) (a : Access) (r : Outcome)
    (m' : Machine) : Prop where
  runs : Runs pageTable m'
  flat : Flat.step (flat pageTable m) a = .ok (r, Nachos.flat pageTable m')
  raised : ∀ which, r = .raised which → m'.mainMemory = m.mainMemory

/-- **Every call answers as the array does.** -/
theorem step_flat (h : Runs pageTable m) (a : Access) :
    ∃ r m', Memory.step m a = .ok (r, m') ∧ Agrees pageTable m a r m' := by
  have hlen : (flat pageTable m).length = pageTable.length * PageSize := length_flat
  -- the same exception, and no memory changed
  have hfail : ¬ a.Fits (pageTable.length * PageSize) →
      Agrees pageTable m a (.raised .addressErrorException) (trapped a.addr m) := by
    intro hf
    obtain ⟨table, hp, hmap⟩ := h
    refine ⟨⟨table, ⟨hp.table, hp.size, hp.linear⟩, hmap⟩, ?_, fun _ _ => rfl⟩
    unfold Flat.step
    rw [hlen, if_neg hf]
    rfl
  cases a with
  | read addr size =>
      rw [Memory.step]
      rcases readMem_eq h addr size with ⟨hf, e⟩ | ⟨hf, m', e, hr, -, hm⟩
      · exact ⟨_, _, by rw [e]; rfl, hfail hf⟩
      · refine ⟨_, _, by rw [e], hr, ?_, fun _ hv => by cases hv⟩
        rw [Flat.step, hlen, if_pos hf, flat_congr rfl hm]
  | write addr size value =>
      rw [Memory.step]
      rcases writeMem_eq h addr size value with ⟨hf, e⟩ | ⟨hf, m', e, hr, -, hm⟩
      · exact ⟨_, _, by rw [e]; rfl, hfail hf⟩
      · refine ⟨_, _, by rw [e], hr, ?_, fun _ hv => by cases hv⟩
        rw [Flat.step, hlen, if_pos hf, hm]

theorem trace_flat (h : Runs pageTable m) {l : List (Access × Outcome)} {m' : Machine}
    (ht : Trace Memory.step m l m') :
    Runs pageTable m' ∧ Trace Flat.step (flat pageTable m) l (flat pageTable m') := by
  obtain ⟨mem, htr, hr, rfl⟩ := ht.refines
    (R := fun m mem => Runs pageTable m ∧ mem = flat pageTable m) ⟨h, rfl⟩ (by
      rintro m₁ _ a r m₂ ⟨hr, rfl⟩ hs
      obtain ⟨r', m₂', hs', hag⟩ := step_flat hr a
      rw [hs'] at hs
      cases hs
      exact ⟨_, hag.flat, hag.runs, rfl⟩)
  exact ⟨hr, htr⟩

/-- **Paged memory is a flat array of bytes.**  On a page table that `AddrSpace` has built, any
calls of `ReadMem` and `WriteMem` are calls of an array of `numPages * PageSize` bytes.  And after
them every further call succeeds if it is aligned and in range, a read with the bytes last written
at its addresses, or else the initial ones; otherwise it raises an address error and leaves memory
as it was. -/
theorem paged_memory_flat {exe : Executable} {phys phys' : BitMap NumPhysPages} {sp : AddrSpace}
    {l : List (Access × Outcome)} {m' : Machine} (hb : AddrSpace.build exe phys = .ok (sp, phys'))
    (ht : m.pageTable = some sp.pageTable) (hs : m.pageTableSize = sp.numPages)
    (h : Trace Memory.step m l m') :
    Trace Flat.step (flat sp.pageTable m) l (flat sp.pageTable m') ∧
    (flat sp.pageTable m).length = sp.numPages * PageSize ∧
    ∀ a : Access, ∃ r m₂, Memory.step m' a = .ok (r, m₂) ∧
      r = (if a.Fits (sp.numPages * PageSize) then Flat.answer (flat sp.pageTable m) l a
        else .raised .addressErrorException) ∧
      (¬ a.Fits (sp.numPages * PageSize) → m₂.mainMemory = m'.mainMemory) := by
  obtain ⟨hr, htr⟩ := trace_flat ⟨sp.pageTable, ⟨ht, hs, build_linear hb⟩, rfl⟩ h
  have hlen : (flat sp.pageTable m).length = sp.numPages * PageSize := length_flat
  refine ⟨htr, hlen, fun a => ?_⟩
  obtain ⟨r, m₂, hst, hag⟩ := step_flat hr a
  have hans := Flat.step_answer htr hag.flat fun hf => by
    rw [hlen] at hf ⊢
    exact fits_le hf.1 hf.2
  rw [hlen] at hans
  exact ⟨r, m₂, hst, hans, fun hf => hag.raised .addressErrorException (by rw [hans, if_neg hf])⟩

end

/-- A program without segments: eight pages of stack. -/
def emptyProgram : Executable where
  bytes := [0xad, 0xdf, 0xba, 0]
  stack _ := 0

/-- The machine on which a program without segments is started. -/
def emptyMachine (sp : AddrSpace) : Machine where
  registers _ := 0
  mainMemory _ := 0
  pageTable := some sp.pageTable
  pageTableSize := sp.numPages

/-- A half word is written at the end of the first page and a byte behind it; a word is read back,
and the byte. -/
theorem paged_memory_flat_halves : ∃ sp phys' l m',
    AddrSpace.build emptyProgram (BitMap.new fun _ => 0) = .ok (sp, phys') ∧
    Trace Memory.step (emptyMachine sp) l m' ∧ l.length = 2 ∧
    (∃ m₂, Memory.step m' (.read 124 .word) = .ok (.value 0x81800000, m₂)) ∧
    (∃ m₂, Memory.step m' (.read 128 .byte) = .ok (.value 0xfffffff0, m₂)) ∧
    ∃ m₂, Memory.step m' (.read 1024 .byte) = .ok (.raised .addressErrorException, m₂) ∧
      m₂.mainMemory = m'.mainMemory := by
  have hbuild : (AddrSpace.build emptyProgram (BitMap.new fun _ => 0)).toOption.any (fun x =>
      x.1.numPages = 8 ∧ (trace Memory.step (emptyMachine x.1)
        [.write 126 .half 0x8180, .write 128 .byte 0xf0]).any fun y =>
          y.1 = [(.write 126 .half 0x8180, .written), (.write 128 .byte 0xf0, .written)] ∧
          Flat.answer (flat x.1.pageTable (emptyMachine x.1)) y.1 (.read 124 .word) =
            .value 0x81800000 ∧
          Flat.answer (flat x.1.pageTable (emptyMachine x.1)) y.1 (.read 128 .byte) =
            .value 0xfffffff0) = true := by
    decide +kernel
  obtain ⟨⟨sp, phys'⟩, hb, hp⟩ := (Option.any_eq_true ..).mp hbuild
  obtain ⟨hn, htr⟩ := of_decide_eq_true hp
  obtain ⟨⟨l, m'⟩, hl, hl'⟩ := (Option.any_eq_true ..).mp htr
  obtain ⟨he, h₁, h₂⟩ := of_decide_eq_true hl'
  dsimp only at hn he h₁ h₂
  have hb' := toOption_some hb
  have ht := Trace.of_trace hl
  obtain ⟨-, -, hall⟩ := paged_memory_flat hb' (m := emptyMachine sp) rfl rfl ht
  rw [hn] at hall
  refine ⟨sp, phys', l, m', hb', ht, by rw [he]; rfl, ?_, ?_, ?_⟩
  · obtain ⟨r, m₂, hst, hr, -⟩ := hall (.read 124 .word)
    exact ⟨m₂, by rw [hst, hr, if_pos (by decide), h₁]⟩
  · obtain ⟨r, m₂, hst, hr, -⟩ := hall (.read 128 .byte)
    exact ⟨m₂, by rw [hst, hr, if_pos (by decide), h₂]⟩
  · obtain ⟨r, m₂, hst, hr, hm⟩ := hall (.read 1024 .byte)
    exact ⟨m₂, by rw [hst, hr, if_neg (by decide)], hm (by decide)⟩

end Nachos
