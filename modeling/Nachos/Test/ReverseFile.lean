import Nachos.Test.CopyFile

/-!
# Test — ReverseFile

test/reverse.c, from where its files are open: it goes through the source from its end, a block at a
time, reverses the block in its own memory and appends it to the destination.
-/

namespace Nachos.Syscall
open Lib Machine Filesys

/-- `tmp = *p; *p = *q; *q = tmp` on characters. -/
def swap (p q : Word) : Exec Unit := do
  let tmp ← readMem p 1
  let c ← readMem q 1
  writeMem p 1 c
  writeMem q 1 tmp

/-- The loop of `reverse`, at `i` with `rest` rounds to go. -/
def reverseLoop (str : Word) (len : Nat) : (rest i : Nat) → Exec Unit
  | 0, _ => pure ()
  | rest + 1, i => do
      swap (str + BitVec.ofNat 32 i) (str + BitVec.ofNat 32 (len - i - 1))
      reverseLoop str len rest (i + 1)

/-- `reverse`. -/
def reverse (str : Word) (len : Nat) : Exec Unit := reverseLoop str len (len / 2) 0

/-- How reverse.c ends. -/
inductive ReverseEnd where
  /-- "Reverse file thanh cong." -/
  | over (w : World)
  /-- "Loi seek file." -/
  | seekFails (w : World)
  /-- "Loi doc file." -/
  | readFails (w : World)
  /-- "Loi ghi file." -/
  | writeFails (w : World)
  /-- A system call does not return. -/
  | stops (o : Outcome)
  /-- `reverse` comes to an address outside the memory of the process. -/
  | raised

/-- `Seek(pos, fid)`; what stands in `r6` does not matter. -/
def World.seekCall (other : Call → World → Effect) (w : World) (pos : Int) (fid : Word) : Outcome :=
  w.syscall other SC_Seek (BitVec.ofInt 32 pos) fid (w.machine.registers 6)

/-- The loop of reverse.c, for `fuel` rounds. -/
def reverseFrom (other : Call → World → Effect) (buf s_fid d_fid : Word) :
    (fuel : Nat) → (curPos : Int) → World → Option ReverseEnd
  | 0, _, _ => none
  | fuel + 1, curPos, w =>
      if 0 < curPos then
        let prePos := max 0 (curPos - 256)
        match w.seekCall other prePos s_fid with
        | .returned w =>
            if (w.machine.registers 2).toInt = -1 then some (.seekFails w)
            else
              match w.syscall other SC_Read buf (BitVec.ofInt 32 (curPos - prePos)) s_fid with
              | .returned w =>
                  let charCount := w.machine.registers 2
                  if charCount.toInt ≠ curPos - prePos then some (.readFails w)
                  else
                    match reverse buf charCount.toNat w.machine with
                    | .ok _ m =>
                        match { w with machine := m }.syscall other SC_Write buf charCount d_fid with
                        | .returned w =>
                            if (w.machine.registers 2).toInt ≠ charCount.toInt then
                              some (.writeFails w)
                            else reverseFrom other buf s_fid d_fid fuel prePos w
                        | o => some (.stops o)
                    | _ => some .raised
              | o => some (.stops o)
        | o => some (.stops o)
      else some (.over w)

/-- reverse.c from where its files are open. -/
def reverseFile (other : Call → World → Effect) (buf s_fid d_fid : Word) (fuel : Nat) (w : World) :
    Option ReverseEnd :=
  match w.seekCall other (-1) s_fid with
  | .returned w => reverseFrom other buf s_fid d_fid fuel (w.machine.registers 2).toInt w
  | o => some (.stops o)

/-! ### `reverse` -/

section
variable {pageTable : List TranslationEntry} {m : Machine} {p q str : Word} {len i rest : Nat}

theorem swap_eq (h : Runs pageTable m) (hp : p.toNat < pageTable.length * PageSize)
    (hq : q.toNat < pageTable.length * PageSize) (hne : p.toNat ≠ q.toNat) :
    ∃ m', swap p q m = .ok () m' ∧ Runs pageTable m' ∧ ∀ x, (flat pageTable m')[x]? =
      if x = p.toNat then (flat pageTable m)[q.toNat]?
      else if x = q.toNat then (flat pageTable m)[p.toNat]? else (flat pageTable m)[x]? := by
  have hlen : (flat pageTable m).length = pageTable.length * PageSize := length_flat
  obtain ⟨tmp, htmp⟩ : ∃ b, (flat pageTable m)[p.toNat]? = some b :=
    ⟨_, List.getElem?_eq_getElem (by omega)⟩
  obtain ⟨c, hc⟩ : ∃ b, (flat pageTable m)[q.toNat]? = some b :=
    ⟨_, List.getElem?_eq_getElem (by omega)⟩
  obtain ⟨m₁, e₁, h₁, -, hflat₁⟩ := readMem_byte h htmp
  obtain ⟨m₂, e₂, h₂, -, hflat₂⟩ := readMem_byte h₁ (by rw [hflat₁]; exact hc)
  obtain ⟨m₃, e₃, h₃, -, hflat₃⟩ := writeMem_byte (b := c) h₂ hp
  obtain ⟨m₄, e₄, h₄, -, hflat₄⟩ := writeMem_byte (b := tmp) h₃ hq
  refine ⟨m₄, ?_, h₄, fun x => ?_⟩
  · rw [swap, bind_ok e₁, bind_ok e₂, bind_ok e₃, e₄]
  · rw [hflat₄, hflat₃, hflat₂, hflat₁, getElem?_overlay, getElem?_overlay, length_overlay, hlen,
      List.length_singleton, List.length_singleton, htmp, hc]
    by_cases hxq : x = q.toNat
    · subst hxq
      rw [if_pos (by omega), if_neg (Ne.symm hne), if_pos rfl, Nat.sub_self]
      rfl
    · rw [if_neg (by omega)]
      by_cases hxp : x = p.toNat
      · subst hxp
        rw [if_pos (by omega), if_pos rfl, Nat.sub_self]
        rfl
      · rw [if_neg (by omega), if_neg hxp, if_neg hxq]

/-- **What the loop exchanges**: the bytes from `i` on with those from the end on, as many as there
are rounds. -/
theorem reverseLoop_eq (h : Runs pageTable m) (hfit : str.toNat + len ≤ pageTable.length * PageSize)
    (hi : i + rest ≤ len / 2) :
    ∃ m', reverseLoop str len rest i m = .ok () m' ∧ Runs pageTable m' ∧
      ∀ x, (flat pageTable m')[x]? =
        if str.toNat + i ≤ x ∧ x < str.toNat + i + rest ∨
            str.toNat + len - (i + rest) ≤ x ∧ x < str.toNat + len - i
          then (flat pageTable m)[2 * str.toNat + len - 1 - x]?
        else (flat pageTable m)[x]? := by
  induction rest generalizing i m with
  | zero => exact ⟨m, rfl, h, fun x => by rw [if_neg (by omega)]⟩
  | succ rest ih =>
      have hN := h.size_le
      have hp := toNat_add_ofNat (v := str) (i := i) (by omega)
      have hq := toNat_add_ofNat (v := str) (i := len - i - 1) (by omega)
      obtain ⟨m₁, e₁, h₁, hflat₁⟩ := swap_eq h (p := str + BitVec.ofNat 32 i)
        (q := str + BitVec.ofNat 32 (len - i - 1)) (by omega) (by omega) (by omega)
      rw [hp, hq] at hflat₁
      obtain ⟨m₂, e₂, h₂, hflat₂⟩ := ih h₁ (i := i + 1) (by omega)
      refine ⟨m₂, ?_, h₂, fun x => ?_⟩
      · rw [reverseLoop, bind_ok e₁, e₂]
      · rw [hflat₂, hflat₁, hflat₁]
        by_cases hx : x = str.toNat + i
        · rw [if_neg (by omega), if_pos hx, if_pos (by omega)]
          congr 1
          omega
        · by_cases hx' : x = str.toNat + (len - i - 1)
          · rw [if_neg (by omega), if_neg hx, if_pos hx', if_pos (by omega)]
            congr 1
            omega
          · rw [if_neg hx, if_neg hx']
            by_cases hin : str.toNat + (i + 1) ≤ x ∧ x < str.toNat + (i + 1) + rest ∨
                str.toNat + len - (i + 1 + rest) ≤ x ∧ x < str.toNat + len - (i + 1)
            · rw [if_pos hin, if_neg (by omega), if_neg (by omega), if_pos (by omega)]
            · rw [if_neg hin, if_neg (by omega)]

/-- **`reverse`.** -/
theorem reverse_eq (h : Runs pageTable m) (hfit : str.toNat + len ≤ pageTable.length * PageSize) :
    ∃ m', reverse str len m = .ok () m' ∧ Runs pageTable m' ∧
      ((flat pageTable m').drop str.toNat).take len =
        (((flat pageTable m).drop str.toNat).take len).reverse := by
  obtain ⟨m', e, h', hflat⟩ := reverseLoop_eq h hfit (show 0 + len / 2 ≤ len / 2 by omega)
  refine ⟨m', e, h', ?_⟩
  have hlen : (((flat pageTable m).drop str.toNat).take len).length = len := by
    rw [List.length_take, List.length_drop, length_flat]
    omega
  apply List.ext_getElem?
  intro x
  by_cases hx : x < len
  · rw [List.getElem?_take_of_lt hx, List.getElem?_drop, hflat,
      List.getElem?_reverse (by rw [hlen]; exact hx), hlen, List.getElem?_take_of_lt (by omega),
      List.getElem?_drop]
    by_cases hmid : x = len / 2 ∧ len % 2 = 1
    · rw [if_neg (by omega)]
      congr 1
      omega
    · rw [if_pos (by omega)]
      congr 1
      omega
  · rw [List.getElem?_eq_none (by rw [List.length_take]; omega),
      List.getElem?_eq_none (by rw [List.length_reverse, hlen]; omega)]

end

/-! ### The calls of a round -/

section
variable {other : Call → World → Effect} {pageTable : List TranslationEntry} {w : World}
  {buf s_fid d_fid : Word} {f : OpenFile} {P : World → Prop} {out : World → List Byte}
  {fits : List Byte → Prop}

/-- A `Seek` into the file, or to its end. -/
theorem call_seek (hfid : 2 ≤ s_fid.toInt) (hf : w.files s_fid.toInt = some f)
    (hlt : (w.content f).length < 2 ^ 31) {position : Int}
    {pos : Nat} (hpos : position = -1 ∧ pos = (w.content f).length ∨
      position = pos ∧ pos ≤ (w.content f).length) :
    w.call other (.seek s_fid.toInt position) =
      .returns ⟨pos, []⟩ (w.setOffset s_fid.toInt f pos) := by
  have hlength : w.Length f = .ok (w.content f).length := by
    rw [HostFiles.Length, asInt_eq (by omega) (by omega)]
    exact if_pos (Int.natCast_nonneg _)
  rw [World.call, World.onHost, HostFiles.call, onFile_some (getOpenFile_eq hfid hf), HostFiles.Seek,
    hlength]
  dsimp only
  rcases hpos with ⟨rfl, rfl⟩ | ⟨rfl, hle⟩
  · rw [if_pos rfl]
    rfl
  · rw [if_neg (by omega), if_neg (by omega),
      if_neg (show ¬ ((w.content f).length : Int) < pos by omega), ite_self]
    rfl

theorem Sink.seek (hs : Sink other pageTable s_fid d_fid P out fits) (hruns : Runs pageTable w.machine)
    (hfid : 2 ≤ s_fid.toInt) (hf : w.files s_fid.toInt = some f) (hP : P w)
    (hlt : (w.content f).length < 2 ^ 31) {position : Int} {pos : Nat}
    (hpos : position = -1 ∧ pos = (w.content f).length ∨
      position = pos ∧ pos ≤ (w.content f).length) :
    ∃ w₁, w.seekCall other position s_fid = .returned w₁ ∧ Runs pageTable w₁.machine ∧
      (w₁.machine.registers 2).toInt = pos ∧
      w₁.files s_fid.toInt = some { f with currentOffset := pos } ∧
      (∀ g, w₁.content g = w.content g) ∧ P w₁ ∧ out w₁ = out w := by
  have hint : (BitVec.ofInt 32 position).toInt = position :=
    BitVec.toInt_ofInt_eq_self (by decide) (by omega) (by omega)
  have ha := args_args hruns (BitVec.ofInt 32 position) s_fid (w.machine.registers 6)
  have hf₁ : (w.args (BitVec.ofInt 32 position) s_fid (w.machine.registers 6)).files s_fid.toInt =
    some f := hf
  obtain ⟨hP₁, ho₁⟩ := hs.args hP (BitVec.ofInt 32 position) s_fid (w.machine.registers 6)
  obtain ⟨hP₂, ho₂⟩ := hs.moved (pos : Int) hf₁ hP₁
  refine ⟨_, ?_, runs_resume (w := World.setOffset (w.args ..) s_fid.toInt f pos) ha.runs pos,
    resume_toInt _ (by omega) (by omega), Function.update_self .., fun g => rfl,
    (hs.machine _ hP₂).1, ((hs.machine _ hP₂).2.trans ho₂).trans ho₁⟩
  show exec other SyscallSeek _ = _
  rw [SyscallSeek, exec, exec, ha.r4, ha.r5, if_neg (by omega), exec_call (call_getOpenFile hfid hf₁),
    if_neg Int.one_ne_zero, hint, exec_call (call_seek hfid hf₁ hlt hpos)]
  rfl

/-- Without a zero nothing is lost. -/
theorem padded_eq_self {bytes : List Byte} (h : 0 ∉ bytes) : padded bytes = bytes :=
  (padded_eq_iff bytes).mpr fun _ _ _ _ hzero => absurd (List.mem_of_getElem? hzero) h

theorem eq_of_padded {u bytes : List Byte} (h : padded u = bytes) (hnul : 0 ∉ bytes) : u = bytes := by
  rw [← h, padded_eq_self]
  intro hmem
  obtain ⟨i, hi⟩ := List.mem_iff_getElem?.mp hmem
  refine hnul (h ▸ List.mem_of_getElem? (i := i) ?_)
  rw [getElem?_padded (List.getElem?_eq_some_iff.mp hi).1, hi, ite_self]

/-- **The loop appends what lies before its position, from the end on.** -/
theorem Sink.reverseFrom (hs : Sink other pageTable s_fid d_fid P out fits)
    (hruns : Runs pageTable w.machine) (hbuf : buf ≠ 0)
    (hfit : buf.toNat + 256 ≤ pageTable.length * PageSize) (hfid : 2 ≤ s_fid.toInt)
    (hf : w.files s_fid.toInt = some f) (hP : P w) (hnul : 0 ∉ w.content f)
    (hlt : (w.content f).length < 2 ^ 31) {c : Nat} (hc : c ≤ (w.content f).length)
    (hfits : ∀ l, l <+: ((w.content f).take c).reverse → fits (out w ++ l)) :
    ∃ fuel w', Syscall.reverseFrom other buf s_fid d_fid fuel c w = some (.over w') ∧ P w' ∧
      out w' = out w ++ ((w.content f).take c).reverse := by
  induction c using Nat.strong_induction_on generalizing w f with
  | _ c ih =>
      by_cases hzero : c = 0
      · subst hzero
        refine ⟨1, w, ?_, hP, by rw [List.take_zero, List.reverse_nil, List.append_nil]⟩
        rw [Syscall.reverseFrom, if_neg (by omega)]
      · obtain ⟨pre, hpre⟩ : ∃ pre : Nat, max 0 ((c : Int) - 256) = pre :=
          ⟨c - 256, by omega⟩
        obtain ⟨n, hn⟩ : ∃ n : Nat, c = pre + n := ⟨c - pre, by omega⟩
        have hcount : (BitVec.ofInt 32 n).toInt = n :=
          BitVec.toInt_ofInt_eq_self (by decide) (by omega) (by omega)
        have hcountNat : (BitVec.ofInt 32 n).toNat = n := by
          have := toInt_eq_toNat (n := BitVec.ofInt 32 n) (by omega)
          omega
        obtain ⟨w₁, e₁, hruns₁, hr₁, hf₁, hcontent₁, hP₁, hout₁⟩ := hs.seek hruns hfid hf hP hlt
          (.inr ⟨rfl, show pre ≤ (w.content f).length by omega⟩)
        have hblock : readPartial (w₁.content { f with currentOffset := (pre : Int) })
            (pre : Int).toNat (BitVec.ofInt 32 n).toNat = ((w.content f).drop pre).take n := by
          rw [readPartial, hcountNat, hcontent₁]
          rfl
        have hlenBlock : (((w.content f).drop pre).take n).length = n := by
          rw [List.length_take, List.length_drop]
          omega
        obtain ⟨w₂, e₂, hruns₂, hr₂, hf₂, hcontent₂, hbytes₂, hP₂, hout₂⟩ := hs.read hruns₁ hbuf
          (show 0 ≤ (BitVec.ofInt 32 n).toInt by omega) (by omega) hfid hf₁ (Int.natCast_nonneg pre) hP₁
          hblock.symm (by rw [hlenBlock]; dsimp only; omega)
        rw [hlenBlock, if_pos (by omega)] at hr₂
        have hnulBlock : 0 ∉ ((w.content f).drop pre).take n := fun h =>
          hnul (List.mem_of_mem_drop (List.mem_of_mem_take h))
        rw [hlenBlock, padded_eq_self hnulBlock] at hbytes₂
        have huser := eq_of_padded hbytes₂ hnulBlock
        have hr₂Nat : (w₂.machine.registers 2).toNat = n := by
          have := toInt_eq_toNat (n := w₂.machine.registers 2) (by omega)
          omega
        obtain ⟨m, e₃, hruns₃, hflat₃⟩ := reverse_eq hruns₂
          (show buf.toNat + (w₂.machine.registers 2).toNat ≤ _ by omega)
        obtain ⟨hP₃, hout₃⟩ := hs.machine m hP₂
        have huser₃ : userBytes pageTable (World.args { w₂ with machine := m } buf
            (w₂.machine.registers 2) d_fid) buf (w₂.machine.registers 2).toNat =
              (((w.content f).drop pre).take n).reverse := by
          rw [← huser, ← hr₂Nat]
          exact hflat₃
        have hsplit : ((w.content f).take c).reverse =
            (((w.content f).drop pre).take n).reverse ++ ((w.content f).take pre).reverse := by
          rw [← List.reverse_append, ← List.take_add, ← hn]
        have hpadded := padded_eq_self (mt List.mem_reverse.mp hnulBlock)
        obtain ⟨w₄, e₄, hr₄, hruns₄, hf₄, hcontent₄, hP₄, hout₄⟩ := hs.write
          (args_args (w := { w₂ with machine := m }) hruns₃ buf (w₂.machine.registers 2) d_fid) hbuf
          (by omega) (by omega) (hs.args hP₃ ..).1 hf₂ (by
            rw [huser₃, hpadded, (hs.args hP₃ ..).2, hout₃, hout₂, hout₁]
            exact hfits _ (hsplit ▸ List.prefix_append ..))
        have hcontent : w₄.content _ = w.content f :=
          hcontent₄.trans ((hcontent₂ _).trans (hcontent₁ _))
        rw [huser₃, hpadded, (hs.args hP₃ ..).2, hout₃, hout₂, hout₁] at hout₄
        obtain ⟨fuel, w', e, hP', hout'⟩ := ih pre (by omega) hruns₄ hf₄ hP₄
          (by rw [hcontent]; exact hnul) (by rw [hcontent]; exact hlt) (by rw [hcontent]; omega)
          fun l hl => by
            rw [hcontent] at hl
            rw [hout₄, List.append_assoc]
            exact hfits _ (hsplit ▸ (List.prefix_append_right_inj _).mpr hl)
        refine ⟨fuel + 1, w', ?_, hP', ?_⟩
        · have hsub : (c : Int) - pre = n := by omega
          have hw : World.syscall other { w₂ with machine := m } SC_Write buf
            (w₂.machine.registers 2) d_fid = .returned w₄ := e₄
          rw [Syscall.reverseFrom, if_pos (by omega)]
          dsimp only
          rw [hpre, e₁]
          dsimp only
          rw [if_neg (by omega), hsub, e₂]
          dsimp only
          rw [if_neg (not_not.mpr hr₂), e₃]
          dsimp only
          rw [hw]
          dsimp only
          rw [if_neg (not_not.mpr hr₄), e]
        · rw [hout', hcontent, hout₄, List.append_assoc, ← hsplit]

/-- **reverse.c reverses its file**, when there is no zero in it: the program comes to its end, the
destination is then the source from its end on, and nothing else has changed. -/
theorem reverse_reverses {g : OpenFile} (h : Opened w s_fid d_fid f g)
    (hruns : Runs pageTable w.machine) (hbuf : buf ≠ 0)
    (hfit : buf.toNat + 256 ≤ pageTable.length * PageSize) (hnul : 0 ∉ w.content f)
    (hlt : (w.content f).length < 2 ^ 31) :
    ∃ fuel w', reverseFile other buf s_fid d_fid fuel w = some (.over w') ∧
      w'.contents (w.inode g.file) = (w.content f).reverse ∧
      (∀ j, j ≠ w.inode g.file → w'.contents j = w.contents j) ∧ w'.sent = w.sent := by
  obtain ⟨hs, hf, -⟩ := h.source
  have hsink : Sink other pageTable s_fid d_fid (Appends s_fid d_fid (w.inode g.file) w)
    (fun w' => w'.contents (w.inode g.file)) fun content => content.length < 2 ^ 31 :=
    sink_file h.dest.1 h.apart.1
  have hP := h.appends
  have hempty : w.contents (w.inode g.file) = [] := h.empty
  obtain ⟨w₁, e₁, hruns₁, hr₁, hf₁, hcontent₁, hP₁, hout₁⟩ := hsink.seek hruns hs hf hP hlt
    (.inl ⟨rfl, rfl⟩)
  have hcontent : w₁.content { f with currentOffset := ((w.content f).length : Int) } =
    w.content f := hcontent₁ _
  obtain ⟨fuel, w', e, hP', hout⟩ := hsink.reverseFrom hruns₁ hbuf hfit hs hf₁ hP₁
    (by rw [hcontent]; exact hnul) (by rw [hcontent]; exact hlt)
    (show (w.content f).length ≤ _ by rw [hcontent])
    fun l hl => by
      have hle := hl.length_le
      rw [List.length_reverse, List.length_take] at hle
      rw [hout₁, hempty, List.nil_append]
      omega
  rw [hcontent, hout₁, hempty, List.take_length, List.nil_append] at hout
  refine ⟨fuel, w', ?_, hout, hP'.others, hP'.sent⟩
  rw [reverseFile, e₁]
  dsimp only
  rw [hr₁, e]

theorem reverse_reverses_three : ∃ fuel w',
    reverseFile noOther 1 2 3 fuel (twoFiles [0x41, 0x42, 0x43]) = some (.over w') ∧
    w'.contents 6 = [0x43, 0x42, 0x41] := by
  have h := @reverse_reverses noOther threePages (twoFiles [0x41, 0x42, 0x43]) 1 2 3 _ _
    (twoFiles_opened _) (twoFiles_runs _) (by decide) (by decide) (by decide) (by decide)
  obtain ⟨fuel, w', e, hdest, -⟩ := h
  exact ⟨fuel, w', e, hdest⟩

end

end Nachos.Syscall
