import Nachos.Lib.Copy
import Nachos.Userprog.FlatMemory

/-!
# Userprog — Copy

`Machine::User2System` and `Machine::System2User` (machine/machine.cc) on the flat array of the
memory of a process.  Both stop behind the first zero byte: what they copy is `through isNul`, and
`System2User` leaves an `overlay`.  An address error in the middle of a copy is an exception, and
the kernel does not come back to it.

`user2SystemWith` is `User2System` with another `ReadMem`: with one that reads no byte outside a
range, the copy shows that it needs none.
-/

namespace Nachos
open Lib Machine

/-- The terminator of a string. -/
def isNul (b : Byte) : Bool := b == 0

/-! ### Sequences -/

section
variable {α β : Type} {x : Exec α} {f : α → Exec β} {m m₁ : Machine}

theorem bind_ok {a : α} (h : x m = .ok a m₁) : (x >>= f) m = f a m₁ := by
  show Exec.bind x f m = _
  rw [Exec.bind, h]

theorem bind_raised {which : ExceptionType} (h : x m = .raised which m₁) :
    (x >>= f) m = .raised which m₁ := by
  show Exec.bind x f m = _
  rw [Exec.bind, h]

end

/-! ### One byte -/

section
variable {pageTable : List TranslationEntry} {m : Machine} {v : Word} {b : Byte}

theorem isNul_iff : isNul b = true ↔ b = 0 := beq_iff_eq

theorem isNul_eq_false : isNul b = false ↔ b ≠ 0 := by
  rw [← Bool.not_eq_true, isNul_iff]

theorem signExtend_eq_zero : b.signExtend 32 = 0 ↔ b = 0 := by
  constructor
  · intro h
    rw [← BitVec.toInt_inj, BitVec.toInt_signExtend_of_le (by decide)] at h
    rw [← BitVec.toInt_inj, h]
    rfl
  · rintro rfl
    rfl

theorem truncate_signExtend : (b.signExtend 32).truncate 8 = b := by
  apply BitVec.eq_of_getLsbD_eq
  intro i hi
  rw [BitVec.truncate_eq_setWidth, BitVec.getLsbD_setWidth, BitVec.getLsbD_signExtend,
    decide_eq_true hi, decide_eq_true (by omega : i < 32), Bool.true_and, Bool.true_and, if_pos hi]

/-- A page table has at most as many entries as there are frames. -/
theorem Linear.length_le (h : Linear pageTable) : pageTable.length ≤ NumPhysPages := by
  have hsub : pageTable.map TranslationEntry.physicalPage ⊆ List.range NumPhysPages := by
    intro f hf
    obtain ⟨e, he, rfl⟩ := List.mem_map.mp hf
    exact List.mem_range.mpr (h.inRange e he)
  have hle := (h.distinct.subperm hsub).length_le
  rwa [List.length_map, List.length_range] at hle

theorem Runs.size_le (h : Runs pageTable m) : pageTable.length * PageSize ≤ 2 ^ 14 := by
  obtain ⟨table, hp, hmap⟩ := h
  rw [← Runs.length hmap]
  exact Nat.mul_le_mul_right PageSize hp.linear.length_le

/-- The address of the `i`th byte of a buffer. -/
theorem toNat_add_ofNat {i : Nat} (h : v.toNat + i < 2 ^ 32) :
    (v + BitVec.ofNat 32 i).toNat = v.toNat + i := by
  rw [BitVec.toNat_add, BitVec.toNat_ofNat]
  omega

theorem readMem_byte (h : Runs pageTable m) (hb : (flat pageTable m)[v.toNat]? = some b) :
    ∃ m', readMem v 1 m = .ok (b.signExtend 32) m' ∧ Runs pageTable m' ∧
      m'.registers = m.registers ∧ flat pageTable m' = flat pageTable m := by
  have hlt : v.toNat < pageTable.length * PageSize := by
    rw [← length_flat (m := m)]
    exact (List.getElem?_eq_some_iff.mp hb).1
  rcases readMem_eq h v .byte with ⟨hf, -⟩ | ⟨-, m', e, hr, hregs, hmem⟩
  · exact absurd ⟨Nat.one_dvd _, hlt⟩ hf
  · refine ⟨m', ?_, hr, hregs, by unfold flat; rw [hmem]⟩
    rw [show readMem v 1 m = _ from e]
    have hhead : (((flat pageTable m).drop v.toNat).take 1).headD 0 = b := by
      rw [List.headD_eq_head?_getD, List.head?_take, if_neg Nat.one_ne_zero, List.head?_drop, hb]
      rfl
    rw [← hhead]
    rfl

theorem writeMem_byte (h : Runs pageTable m) (hv : v.toNat < pageTable.length * PageSize) :
    ∃ m', writeMem v 1 (b.signExtend 32) m = .ok () m' ∧ Runs pageTable m' ∧
      m'.registers = m.registers ∧ flat pageTable m' = overlay (flat pageTable m) v.toNat [b] := by
  rcases writeMem_eq h v .byte (b.signExtend 32) with ⟨hf, -⟩ | ⟨-, m', e, hr, hregs, hmem⟩
  · exact absurd ⟨Nat.one_dvd _, hv⟩ hf
  · refine ⟨m', e, hr, hregs, ?_⟩
    rw [hmem, overlay]
    congr 1
    funext x a
    unfold Flat.byteFor
    rw [show AccessSize.byte.bytes = 1 from rfl]
    by_cases hx : v.toNat = x
    · subst hx
      rw [if_pos ⟨Nat.le_refl _, Nat.lt_succ_self _⟩, if_pos (Nat.le_refl _), Nat.sub_self,
        Option.getD_some]
      exact truncate_signExtend
    · rw [if_neg (by omega), Option.getD_none]
      split
      · rw [List.getD_eq_getElem?_getD, List.getElem?_eq_none (by rw [List.length_singleton]; omega),
          Option.getD_none]
      · rfl

/-- Outside its memory a process has nothing to write to. -/
theorem writeMem_outside (h : Runs pageTable m) (hv : pageTable.length * PageSize ≤ v.toNat)
    (value : Word) : ∃ m', writeMem v 1 value m = .raised .addressErrorException m' := by
  rcases writeMem_eq h v .byte value with ⟨-, e⟩ | ⟨hf, -⟩
  · exact ⟨_, e⟩
  · exact absurd hf.2 (Nat.not_lt.mpr hv)

end

/-! ### `User2System` -/

/-- The loop of `User2System` with `read` in the place of `ReadMem`. -/
def user2SystemLoopWith (read : Word → Exec Word) (virtAddr : Word) :
    (limit i : Nat) → Exec (List Byte)
  | 0, _ => pure []
  | limit + 1, i => do
      let oneChar ← read (virtAddr + BitVec.ofNat 32 i)
      if oneChar = 0 then pure [oneChar.truncate 8]
      else
        let rest ← user2SystemLoopWith read virtAddr limit (i + 1)
        pure (oneChar.truncate 8 :: rest)

def user2SystemWith (read : Word → Exec Word) (virtAddr : Word) (limit : Nat) :
    Exec (List Byte) := do
  let copied ← user2SystemLoopWith read virtAddr limit 0
  pure (copied ++ List.replicate (limit + 1 - copied.length) 0)

/-- A `ReadMem` of one byte that is lost outside `[lo, hi]`. -/
def readWithin (lo hi : Nat) (addr : Word) : Exec Word :=
  if lo ≤ addr.toNat ∧ addr.toNat ≤ hi then readMem addr 1 else Exec.abort

section
variable {pageTable : List TranslationEntry} {m : Machine} {v : Word} {limit i : Nat}

theorem user2SystemLoopWith_readMem :
    user2SystemLoopWith (readMem · 1) v limit i = user2SystemLoop v limit i := by
  induction limit generalizing i with
  | zero => rfl
  | succ limit ih => rw [user2SystemLoopWith, user2SystemLoop, ih]

theorem user2SystemWith_readMem : user2SystemWith (readMem · 1) v limit = user2System v limit := by
  rw [user2SystemWith, user2SystemLoopWith_readMem]
  rfl

/-- What is left for `User2System` to copy, with `limit` bytes to go from `v + i` on. -/
def toCopy (pageTable : List TranslationEntry) (m : Machine) (v : Word) (limit i : Nat) :
    List Byte := through isNul (((flat pageTable m).drop (v.toNat + i)).take limit)

/-- The loop, where the buffer ends in the memory of the process or a zero byte comes first.  It
calls `read` for the bytes it copies only. -/
theorem user2SystemLoopWith_eq (h : Runs pageTable m)
    (hfit : v.toNat + i + limit ≤ pageTable.length * PageSize ∨
      0 ∈ (flat pageTable m).drop (v.toNat + i)) :
    ∃ m', Runs pageTable m' ∧ m'.registers = m.registers ∧
      flat pageTable m' = flat pageTable m ∧ ∀ read : Word → Exec Word,
        (∀ addr : Word, v.toNat + i ≤ addr.toNat →
          addr.toNat < v.toNat + i + (toCopy pageTable m v limit i).length →
          read addr = readMem addr 1) →
        user2SystemLoopWith read v limit i m = .ok (toCopy pageTable m v limit i) m' := by
  induction limit generalizing i m with
  | zero => exact ⟨m, h, rfl, rfl, fun _ _ => rfl⟩
  | succ limit ih =>
      have hN := h.size_le
      have hlen : (flat pageTable m).length = pageTable.length * PageSize := length_flat
      have hlt : v.toNat + i < (flat pageTable m).length := by
        rcases hfit with hfit | hfit
        · omega
        · by_contra hge
          rw [List.drop_eq_nil_of_le (by omega)] at hfit
          cases hfit
      have haddr := toNat_add_ofNat (v := v) (i := i) (by omega)
      obtain ⟨b, hb⟩ : ∃ b, (flat pageTable m)[v.toNat + i]? = some b :=
        ⟨_, List.getElem?_eq_getElem hlt⟩
      have hdrop : (flat pageTable m).drop (v.toNat + i) =
          b :: (flat pageTable m).drop (v.toNat + (i + 1)) := by
        rw [List.drop_eq_getElem_cons hlt, (List.getElem?_eq_some_iff.mp hb).2, Nat.add_assoc]
      have hcopy : toCopy pageTable m v (limit + 1) i =
          if isNul b then [b] else b :: toCopy pageTable m v limit (i + 1) := by
        rw [toCopy, hdrop, List.take_succ_cons, through]
        rfl
      obtain ⟨m₁, e₁, hr₁, hregs₁, hflat₁⟩ := readMem_byte h (v := v + BitVec.ofNat 32 i)
        (by rw [haddr]; exact hb)
      rw [hcopy]
      by_cases h0 : b = 0
      · rw [if_pos (isNul_iff.mpr h0), List.length_singleton]
        refine ⟨m₁, hr₁, hregs₁, hflat₁, fun read hread => ?_⟩
        rw [user2SystemLoopWith, hread _ (by omega) (by omega), bind_ok e₁,
          if_pos (signExtend_eq_zero.mpr h0), truncate_signExtend]
        rfl
      · have hsame : toCopy pageTable m₁ v limit (i + 1) = toCopy pageTable m v limit (i + 1) := by
          rw [toCopy, hflat₁]
          rfl
        have hfit' : v.toNat + (i + 1) + limit ≤ pageTable.length * PageSize ∨
            0 ∈ (flat pageTable m₁).drop (v.toNat + (i + 1)) := by
          rw [hflat₁]
          rcases hfit with hfit | hfit
          · exact .inl (by omega)
          · rw [hdrop] at hfit
            exact .inr ((List.mem_cons.mp hfit).resolve_left (Ne.symm h0))
        rw [if_neg (mt isNul_iff.mp h0), List.length_cons]
        obtain ⟨m₂, hr₂, hregs₂, hflat₂, e₂⟩ := ih hr₁ hfit'
        rw [hsame] at e₂
        refine ⟨m₂, hr₂, hregs₂.trans hregs₁, hflat₂.trans hflat₁, fun read hread => ?_⟩
        rw [user2SystemLoopWith, hread _ (by omega) (by omega), bind_ok e₁,
          if_neg (mt signExtend_eq_zero.mp h0), truncate_signExtend,
          bind_ok (e₂ read fun addr hlo hhi => hread addr (by omega) (by omega))]
        rfl

/-- What `User2System` answers: the bytes up to the first zero, and zeros. -/
def kernelBuf (pageTable : List TranslationEntry) (m : Machine) (v : Word) (limit : Nat) :
    List Byte :=
  toCopy pageTable m v limit 0 ++
    List.replicate (limit + 1 - (toCopy pageTable m v limit 0).length) 0

/-- **`User2System`**, where the buffer ends in the memory of the process or a zero byte comes
first. -/
theorem user2System_eq (h : Runs pageTable m) (limit : Nat)
    (hfit : v.toNat + limit ≤ pageTable.length * PageSize ∨ 0 ∈ (flat pageTable m).drop v.toNat) :
    ∃ m', Runs pageTable m' ∧ m'.registers = m.registers ∧
      flat pageTable m' = flat pageTable m ∧
      user2System v limit m = .ok (kernelBuf pageTable m v limit) m' ∧
      ∀ read : Word → Exec Word,
        (∀ addr : Word, v.toNat ≤ addr.toNat →
          addr.toNat < v.toNat + (toCopy pageTable m v limit 0).length →
          read addr = readMem addr 1) →
        user2SystemWith read v limit m = .ok (kernelBuf pageTable m v limit) m' := by
  obtain ⟨m', hr, hregs, hflat, e⟩ := user2SystemLoopWith_eq (i := 0) h hfit
  have hwith : ∀ read : Word → Exec Word, (∀ addr : Word, v.toNat ≤ addr.toNat →
      addr.toNat < v.toNat + (toCopy pageTable m v limit 0).length → read addr = readMem addr 1) →
      user2SystemWith read v limit m = .ok (kernelBuf pageTable m v limit) m' := by
    intro read hread
    rw [user2SystemWith, bind_ok (e read hread)]
    rfl
  refine ⟨m', hr, hregs, hflat, ?_, hwith⟩
  rw [← user2SystemWith_readMem]
  exact hwith _ fun _ _ _ => rfl

end

/-! ### `System2User` -/

section
variable {pageTable : List TranslationEntry} {m : Machine} {v : Word} {buffer : Nat → Byte}
  {rest i : Nat}

/-- The bytes `System2User` copies, with `n` to go from `buffer + i` on. -/
def toUser (buffer : Nat → Byte) (n i : Nat) : List Byte :=
  through isNul ((List.range' i n).map buffer)

theorem toUser_last (h : rest = 0 ∨ buffer i = 0) : toUser buffer (rest + 1) i = [buffer i] := by
  rcases h with rfl | h
  · rw [toUser]
    exact through_eq_self fun j a hj => absurd hj (by simp)
  · exact through_cons_pos (isNul_iff.mpr h)

theorem toUser_more (h : buffer i ≠ 0) :
    toUser buffer (rest + 1) i = buffer i :: toUser buffer rest (i + 1) :=
  through_cons_neg (isNul_eq_false.mpr h)

/-- The last round of the loop, and any other. -/
theorem system2UserLoop_last (h : rest = 0 ∨ buffer i = 0) : system2UserLoop v buffer rest i =
    (writeMem (v + BitVec.ofNat 32 i) 1 ((buffer i).signExtend 32) >>= fun _ => pure (i + 1)) := by
  cases rest with
  | zero => rfl
  | succ rest =>
      unfold system2UserLoop
      dsimp only
      rw [if_pos (h.resolve_left rest.succ_ne_zero)]

theorem system2UserLoop_more (h : buffer i ≠ 0) : system2UserLoop v buffer (rest + 1) i =
    (writeMem (v + BitVec.ofNat 32 i) 1 ((buffer i).signExtend 32) >>= fun _ =>
      system2UserLoop v buffer rest (i + 1)) := by
  conv_lhs => unfold system2UserLoop
  dsimp only
  rw [if_neg h]

theorem system2UserLoop_stop (h : Runs pageTable m) (hend : rest = 0 ∨ buffer i = 0)
    (hfit : v.toNat + i < pageTable.length * PageSize) :
    ∃ m', system2UserLoop v buffer rest i m = .ok (i + 1) m' ∧ Runs pageTable m' ∧
      m'.registers = m.registers ∧
      flat pageTable m' = overlay (flat pageTable m) (v.toNat + i) [buffer i] := by
  have hN := h.size_le
  have haddr := toNat_add_ofNat (v := v) (i := i) (by omega)
  obtain ⟨m₁, e₁, hm₁⟩ := writeMem_byte h (v := v + BitVec.ofNat 32 i) (b := buffer i) (by omega)
  rw [system2UserLoop_last hend, bind_ok e₁, ← haddr]
  exact ⟨m₁, rfl, hm₁⟩

/-- The loop, where what it copies ends in the memory of the process. -/
theorem system2UserLoop_eq (h : Runs pageTable m)
    (hfit : v.toNat + i + (toUser buffer (rest + 1) i).length ≤ pageTable.length * PageSize) :
    ∃ m', system2UserLoop v buffer rest i m = .ok (i + (toUser buffer (rest + 1) i).length) m' ∧
      Runs pageTable m' ∧ m'.registers = m.registers ∧
      flat pageTable m' = overlay (flat pageTable m) (v.toNat + i) (toUser buffer (rest + 1) i) := by
  induction rest generalizing i m with
  | zero =>
      rw [toUser_last (.inl rfl), List.length_singleton] at hfit ⊢
      exact system2UserLoop_stop h (.inl rfl) (by omega)
  | succ rest ih =>
      by_cases h0 : buffer i = 0
      · rw [toUser_last (.inr h0), List.length_singleton] at hfit ⊢
        exact system2UserLoop_stop h (.inr h0) (by omega)
      · rw [toUser_more h0, List.length_cons] at hfit ⊢
        have hN := h.size_le
        have haddr := toNat_add_ofNat (v := v) (i := i) (by omega)
        obtain ⟨m₁, e₁, hr₁, hregs₁, hflat₁⟩ :=
          writeMem_byte h (v := v + BitVec.ofNat 32 i) (b := buffer i) (by omega)
        obtain ⟨m₂, e₂, hr₂, hregs₂, hflat₂⟩ := ih (i := i + 1) hr₁ (by omega)
        refine ⟨m₂, ?_, hr₂, hregs₂.trans hregs₁, ?_⟩
        · rw [system2UserLoop_more h0, bind_ok e₁, e₂, Nat.add_right_comm i 1]
          rfl
        · rw [hflat₂, hflat₁, haddr, ← Nat.add_assoc, overlay_cons]

/-- The loop comes to an address outside the memory of the process. -/
theorem system2UserLoop_raised (h : Runs pageTable m) (hi : v.toNat + i < 2 ^ 32)
    (hfit : pageTable.length * PageSize < v.toNat + i + (toUser buffer (rest + 1) i).length) :
    ∃ m', system2UserLoop v buffer rest i m = .raised .addressErrorException m' := by
  have haddr := toNat_add_ofNat hi
  induction rest generalizing i m with
  | zero =>
      rw [toUser_last (.inl rfl), List.length_singleton] at hfit
      obtain ⟨m₁, e₁⟩ := writeMem_outside h (v := v + BitVec.ofNat 32 i) (by omega)
        ((buffer i).signExtend 32)
      exact ⟨m₁, by rw [system2UserLoop_last (.inl rfl), bind_raised e₁]⟩
  | succ rest ih =>
      by_cases h0 : buffer i = 0
      · rw [toUser_last (.inr h0), List.length_singleton] at hfit
        obtain ⟨m₁, e₁⟩ := writeMem_outside h (v := v + BitVec.ofNat 32 i) (by omega)
          ((buffer i).signExtend 32)
        exact ⟨m₁, by rw [system2UserLoop_last (.inr h0), bind_raised e₁]⟩
      · rw [toUser_more h0, List.length_cons] at hfit
        rw [system2UserLoop_more h0]
        by_cases hlt : v.toNat + i < pageTable.length * PageSize
        · have hN := h.size_le
          obtain ⟨m₁, e₁, hr₁, -⟩ :=
            writeMem_byte h (v := v + BitVec.ofNat 32 i) (b := buffer i) (by omega)
          rw [bind_ok e₁]
          have hi₁ : v.toNat + (i + 1) < 2 ^ 32 := by omega
          exact ih hr₁ hi₁ (by omega) (toNat_add_ofNat hi₁)
        · obtain ⟨m₁, e₁⟩ := writeMem_outside h (v := v + BitVec.ofNat 32 i) (by omega)
            ((buffer i).signExtend 32)
          exact ⟨m₁, bind_raised e₁⟩

/-- **`System2User`** of `len` bytes, where what it copies ends in the memory of the process. -/
theorem system2User_eq (h : Runs pageTable m) (buffer : Nat → Byte) (len : Nat)
    (hfit : v.toNat + (toUser buffer len 0).length ≤ pageTable.length * PageSize) :
    ∃ m', system2User v len buffer m = .ok ((toUser buffer len 0).length : Int) m' ∧
      Runs pageTable m' ∧ m'.registers = m.registers ∧
      flat pageTable m' = overlay (flat pageTable m) v.toNat (toUser buffer len 0) := by
  rw [system2User, if_neg (by omega)]
  cases len with
  | zero => exact ⟨m, rfl, h, rfl, overlay_nil.symm⟩
  | succ len =>
      obtain ⟨m', e, hm'⟩ := system2UserLoop_eq (i := 0) h hfit
      rw [if_neg (by omega), show ((len + 1 : Nat) : Int).toNat - 1 = len by omega, bind_ok e]
      exact ⟨m', by rw [Nat.zero_add]; rfl, hm'⟩

theorem system2User_raised (h : Runs pageTable m) (buffer : Nat → Byte) {len : Nat}
    (hfit : pageTable.length * PageSize < v.toNat + (toUser buffer len 0).length)
    (hlen : len ≠ 0) :
    ∃ m', system2User v len buffer m = .raised .addressErrorException m' := by
  obtain ⟨len, rfl⟩ := Nat.exists_eq_succ_of_ne_zero hlen
  obtain ⟨m', e⟩ := system2UserLoop_raised (i := 0) h v.isLt hfit
  refine ⟨m', ?_⟩
  rw [system2User, if_neg (by omega), if_neg (by omega),
    show ((len.succ : Nat) : Int).toNat - 1 = len by omega, bind_raised e]

end

/-! ### Strings -/

section
variable {pageTable : List TranslationEntry} {m : Machine} {v : Word} {s : List Byte}

/-- A copy of a string takes the terminator with it, and nothing behind it. -/
theorem through_string (hs : 0 ∉ s) (r : List Byte) : through isNul (s ++ 0 :: r) = s ++ [0] := by
  induction s with
  | nil => rfl
  | cons b s ih =>
      rw [List.mem_cons, not_or] at hs
      rw [List.cons_append, through_cons_neg (isNul_eq_false.mpr (Ne.symm hs.1)), ih hs.2]
      rfl

/-- A copy does not come to the end of a string with a zero in it. -/
theorem length_through_of_mem {t : List Byte} (hs : 0 ∈ s) :
    (through isNul (s ++ t)).length ≤ s.length := by
  by_contra hlt
  obtain ⟨j, hj, he⟩ := List.mem_iff_getElem.mp hs
  have := (lt_length_through_iff.mp (Nat.not_le.mp hlt)).2 j 0 hj
    (by rw [List.getElem?_append_left hj, List.getElem?_eq_getElem hj, he])
  cases this

/-- The C string of a buffer. -/
theorem takeWhile_string (hs : 0 ∉ s) (r : List Byte) :
    (s ++ ([0] ++ r)).takeWhile (· ≠ 0) = s := by
  have hall : ∀ b ∈ s, decide (b ≠ 0) = true := fun b hb =>
    decide_eq_true fun h0 => hs (h0 ▸ hb)
  rw [List.takeWhile_append_of_pos hall]
  exact List.append_nil s

/-- The buffer of a string. -/
theorem map_buffer {buffer : Nat → Byte} (hbuf : ∀ i ≤ s.length, buffer i = (s ++ [0]).getD i 0) :
    (List.range' 0 (s.length + 1)).map buffer = s ++ [0] := by
  rw [List.map_congr_left fun i hi => hbuf i (by rw [List.mem_range'_1] at hi; omega),
    map_getD_range (by simp)]
  exact List.take_of_length_le (by simp)

/-- What a process finds where a string was copied to. -/
theorem take_drop_overlay (mem : List Byte) (off : Nat) {L : Nat} (hfit : off + s.length < mem.length)
    (hL : s.length < L) : ∃ r, ((overlay mem off (s ++ [0])).drop off).take L = s ++ 0 :: r := by
  refine ⟨(mem.drop (off + (s ++ [0]).length)).take (L - (s.length + 1)), ?_⟩
  rw [drop_overlay (by rw [List.length_append, List.length_singleton]; omega), List.take_append,
    List.take_of_length_le (by rw [List.length_append, List.length_singleton]; omega)]
  simp [List.append_assoc]

/-- **Strings survive the copy.**  A string `s` that is copied to `v` with its terminator, inside the
memory of a process, changes these bytes and no others; and a `User2System` from `v` with room for
it, which reads none but these bytes, has it in its buffer. -/
theorem string_survives_copy {buffer : Nat → Byte} {L : Nat} (h : Runs pageTable m) (hs : 0 ∉ s)
    (hfit : v.toNat + s.length < pageTable.length * PageSize)
    (hbuf : ∀ i ≤ s.length, buffer i = (s ++ [0]).getD i 0) (hL : s.length < L) :
    ∃ m₁, system2User v (s.length + 1) buffer m = .ok (s.length + 1) m₁ ∧
      (∀ x, (flat pageTable m₁)[x]? =
        if v.toNat ≤ x ∧ x ≤ v.toNat + s.length then (s ++ [0])[x - v.toNat]?
        else (flat pageTable m)[x]?) ∧
      ∃ buf m₂, user2System v L m₁ = .ok buf m₂ ∧ buf.length = L + 1 ∧ 0 ∈ buf ∧
        buf.takeWhile (· ≠ 0) = s ∧ flat pageTable m₂ = flat pageTable m₁ ∧
        user2SystemWith (readWithin v.toNat (v.toNat + s.length)) v L m₁ = .ok buf m₂ := by
  have hlen : (flat pageTable m).length = pageTable.length * PageSize := length_flat
  have hbs : toUser buffer (s.length + 1) 0 = s ++ [0] := by
    rw [toUser, map_buffer hbuf]
    exact through_string hs []
  obtain ⟨m₁, e₁, hr₁, -, hflat₁⟩ := system2User_eq (v := v) h buffer (s.length + 1)
    (by rw [hbs, List.length_append, List.length_singleton]; omega)
  rw [hbs] at e₁ hflat₁
  rw [List.length_append, List.length_singleton, Nat.cast_add, Nat.cast_one] at e₁
  have hcopy : toCopy pageTable m₁ v L 0 = s ++ [0] := by
    obtain ⟨r, hr⟩ := take_drop_overlay (flat pageTable m) v.toNat
      (by rw [hlen]; exact hfit) hL
    rw [toCopy, hflat₁, Nat.add_zero, hr, through_string hs]
  have h0 : 0 ∈ (flat pageTable m₁).drop v.toNat := by
    rw [hflat₁, drop_overlay (by rw [List.length_append, List.length_singleton]; omega)]
    simp
  obtain ⟨m₂, -, -, hflat₂, e₂, hwith⟩ := user2System_eq hr₁ L (.inr h0)
  refine ⟨m₁, e₁, fun x => ?_, _, m₂, e₂, ?_, ?_, ?_, hflat₂, hwith _ fun addr hlo hhi => ?_⟩
  · rw [hflat₁, getElem?_overlay, List.length_append, List.length_singleton]
    exact if_congr (by omega) rfl rfl
  · rw [kernelBuf, hcopy, List.length_append, List.length_replicate, List.length_append,
      List.length_singleton]
    omega
  · rw [kernelBuf, hcopy]
    simp
  · rw [kernelBuf, hcopy, List.append_assoc]
    exact takeWhile_string hs _
  · rw [hcopy, List.length_append, List.length_singleton] at hhi
    exact if_pos ⟨hlo, by omega⟩

end

/-- Two pages, the first one behind the second in `mainMemory`. -/
def twoPages : List TranslationEntry :=
  [⟨0, 5, true, false, false, false⟩, ⟨1, 2, true, false, false, false⟩]

def twoPageMachine : Machine where
  registers _ := 0
  mainMemory _ := 7
  pageTable := some twoPages
  pageTableSize := 2

theorem twoPageMachine_runs : Runs twoPages twoPageMachine :=
  ⟨twoPages, ⟨rfl, rfl, by decide, by decide, by decide, by decide⟩, rfl⟩

/-- A string across the end of the first page. -/
theorem string_survives_copy_pages : ∃ m₁ buf m₂,
    system2User 127 3 (fun i => ([0x68, 0xe9, 0] : List Byte).getD i 0) twoPageMachine =
      .ok 3 m₁ ∧ (flat twoPages m₁)[128]? = some 0xe9 ∧ (flat twoPages m₁)[130]? = some 7 ∧
    user2System 127 256 m₁ = .ok buf m₂ ∧ buf.takeWhile (· ≠ 0) = [0x68, 0xe9] := by
  obtain ⟨m₁, e₁, hflat, buf, m₂, e₂, -, -, hbuf, -⟩ := string_survives_copy (v := 127)
    (s := [0x68, 0xe9]) (L := 256) twoPageMachine_runs (by decide) (by decide)
    (show ∀ i ≤ 2, (fun i => ([0x68, 0xe9, 0] : List Byte).getD i 0) i = _ from fun _ _ => rfl)
    (by decide)
  exact ⟨m₁, buf, m₂, e₁, hflat 128, hflat 130, e₂, hbuf⟩

end Nachos
