import Nachos.Userprog.Transfer

/-!
# Test — CopyFile

The loops of test/copy.c and test/cat.c, from where their files are open: `Read` a block into `buf`,
`Write` as much as has been read, until `Read` answers that nothing is left.  Each system call runs
its handler on the `World` of the process.

`System2User` stops behind a zero and `User2System` fills up with zeros, so of each block that has
been read the part behind its first zero is written as zeros (`masked`), whatever an earlier block has
left in `buf`.  The position of a file is an `int`, so the content is one of less than 2³¹ bytes.
-/

namespace Nachos.Syscall
open Lib Machine Filesys

def SC_Read : Word := 19
def SC_Write : Word := 20
def SC_Seek : Word := 21

/-- The arguments of a system call, in their registers. -/
def World.args (w : World) (r4 r5 r6 : Word) : World :=
  { w with machine := ((w.machine.setRegister 4 r4).setRegister 5 r5).setRegister 6 r6 }

/-- A system call. -/
def World.syscall (other : Call → World → Effect) (w : World) (type r4 r5 r6 : Word) : Outcome :=
  exec other (handler type) (w.args r4 r5 r6)

/-- How the loop of a program ends. -/
inductive LoopEnd where
  /-- The last `Read` has answered `charCount`. -/
  | over (charCount : Int) (w : World)
  /-- A `Write` has answered something else than the `Read` before it. -/
  | short (w : World)
  /-- A system call does not return. -/
  | stops (o : Outcome)

/-- `while ((charCount = Read(buf, MAX_LEN, s_fid)) > 0)`, for `fuel` rounds. -/
def copyLoop (other : Call → World → Effect) (buf MAX_LEN s_fid d_fid : Word) :
    (fuel : Nat) → World → Option LoopEnd
  | 0, _ => none
  | fuel + 1, w =>
      match w.syscall other SC_Read buf MAX_LEN s_fid with
      | .returned w =>
          let charCount := w.machine.registers 2
          if 0 < charCount.toInt then
            match w.syscall other SC_Write buf charCount d_fid with
            | .returned w =>
                if charCount.toInt ≠ (w.machine.registers 2).toInt then some (.short w)
                else copyLoop other buf MAX_LEN s_fid d_fid fuel w
            | o => some (.stops o)
          else some (.over charCount.toInt w)
      | o => some (.stops o)

/-- A content where in each block of `n` bytes what follows a zero is zeros. -/
def masked (n : Nat) (content : List Byte) : List Byte :=
  content.mapIdx fun i b => if 0 ∈ (content.take i).drop (i / n * n) then 0 else b

/-! ### Blocks -/

section
variable {bytes content : List Byte} {i n : Nat}

theorem mem_take_drop_iff {a : Nat} : (0 : Byte) ∈ (bytes.take i).drop a ↔
    ∃ j, a ≤ j ∧ j < i ∧ bytes[j]? = some 0 := by
  rw [List.mem_iff_getElem?]
  constructor
  · rintro ⟨k, hk⟩
    rw [List.getElem?_drop, List.getElem?_take] at hk
    split at hk
    · exact ⟨a + k, Nat.le_add_right a k, ‹_›, hk⟩
    · cases hk
  · rintro ⟨j, ha, hj, h⟩
    refine ⟨j - a, ?_⟩
    rw [List.getElem?_drop, Nat.add_sub_cancel' ha, List.getElem?_take_of_lt hj, h]

theorem getElem?_padded (hi : i < bytes.length) :
    (padded bytes)[i]? = if 0 ∈ bytes.take i then some 0 else bytes[i]? := by
  have hstop : (0 ∈ bytes.take i) ↔ ¬ i < (through isNul bytes).length := by
    rw [← List.drop_zero (l := bytes.take i), mem_take_drop_iff, lt_length_through_iff, not_and]
    constructor
    · rintro ⟨j, -, hj, h⟩ - hall
      have := hall j 0 hj h
      rw [isNul_iff.mpr rfl] at this
      cases this
    · intro h
      have hall := h hi
      push Not at hall
      obtain ⟨j, a, hj, hget, ha⟩ := hall
      obtain rfl : a = 0 := isNul_iff.mp (by simpa using ha)
      exact ⟨j, Nat.zero_le j, hj, hget⟩
  rw [padded, List.getElem?_append]
  by_cases hlt : i < (through isNul bytes).length
  · rw [if_pos hlt, if_neg fun h => hstop.mp h hlt, getElem?_through hlt]
  · rw [if_neg hlt, if_pos (hstop.mpr hlt), List.getElem?_replicate, if_pos (by omega)]

theorem length_masked : (masked n content).length = content.length := List.length_mapIdx

theorem getElem?_masked : (masked n content)[i]? =
    content[i]?.map fun b => if 0 ∈ (content.take i).drop (i / n * n) then 0 else b := by
  rw [masked, List.getElem?_mapIdx]

/-- The first block, and the others. -/
theorem masked_step (hn : 0 < n) (content : List Byte) :
    masked n content = padded (content.take n) ++ masked n (content.drop n) := by
  apply List.ext_getElem?
  intro i
  have hlen : (padded (content.take n)).length = min n content.length := by
    rw [length_padded, List.length_take]
  rw [getElem?_masked, List.getElem?_append, hlen]
  by_cases hi : i < min n content.length
  · have hget : content[i]? = some content[i] := List.getElem?_eq_getElem (by omega)
    rw [if_pos hi, getElem?_padded (by rw [List.length_take]; exact hi), List.take_take,
      Nat.min_eq_left (by omega), Nat.div_eq_of_lt (by omega), Nat.zero_mul, List.drop_zero,
      List.getElem?_take_of_lt (by omega), hget, Option.map_some]
    split <;> rfl
  · rw [if_neg hi, getElem?_masked]
    by_cases hlt : i < content.length
    · obtain ⟨k, rfl⟩ := Nat.exists_eq_add_of_le (show n ≤ i by omega)
      have hblock : ((content.drop n).take k).drop (k / n * n) =
          (content.take (n + k)).drop ((n + k) / n * n) := by
        rw [← Nat.add_sub_cancel_left (n := n) (m := k), ← List.drop_take, List.drop_drop,
          Nat.add_sub_cancel_left, Nat.add_div_left k hn, Nat.succ_mul, Nat.add_comm n]
      rw [Nat.min_eq_left (by omega), Nat.add_sub_cancel_left, List.getElem?_drop, hblock]
    · rw [List.getElem?_eq_none (by omega), List.getElem?_eq_none (by rw [List.length_drop]; omega)]
      rfl

/-- When nothing is lost. -/
theorem masked_eq_iff (n : Nat) (content : List Byte) : masked n content = content ↔
    ∀ i j, j < i → i < content.length → i / n * n ≤ j → content[j]? = some 0 →
      content[i]? = some 0 := by
  constructor
  · intro h i j hj hi hblock hzero
    have hget := congrArg (·[i]?) h
    rw [getElem?_masked, List.getElem?_eq_getElem hi, Option.map_some,
      if_pos (mem_take_drop_iff.mpr ⟨j, hblock, hj, hzero⟩)] at hget
    rw [List.getElem?_eq_getElem hi, ← hget]
  · intro h
    apply List.ext_getElem?
    intro i
    rw [getElem?_masked]
    by_cases hi : i < content.length
    · rw [List.getElem?_eq_getElem hi, Option.map_some]
      split
      · rename_i hmem
        obtain ⟨j, hblock, hj, hzero⟩ := mem_take_drop_iff.mp hmem
        rw [← h i j hj hi hblock hzero, List.getElem?_eq_getElem hi]
      · rfl
    · rw [List.getElem?_eq_none (Nat.not_lt.mp hi)]
      rfl

end

/-! ### One round -/

section
variable {other : Call → World → Effect} {pageTable : List TranslationEntry} {w : World}
  {buf MAX_LEN s_fid d_fid : Word} {f : OpenFile} {P : World → Prop} {out : World → List Byte}
  {fits : List Byte → Prop}

theorem args_args (h : Runs pageTable w.machine) (r4 r5 r6 : Word) :
    Args pageTable (w.args r4 r5 r6) r4 r5 r6 :=
  ⟨runs_congr h rfl rfl, rfl, rfl, rfl⟩

theorem runs_resume (h : Runs pageTable w.machine) (value : Int) :
    Runs pageTable (w.resume value).machine := runs_congr h rfl rfl

/-- What a `Write` sends of the bytes a `Read` has left, over what was there before. -/
theorem padded_through {bytes r : List Byte}
    (hlen : bytes.length ≤ (through isNul bytes ++ r).length) :
    padded ((through isNul bytes ++ r).take bytes.length) = padded bytes := by
  rw [padded, through_take_through, List.length_take, Nat.min_eq_left hlen, padded]

/-- **A place that a `Write` to `d_fid` appends to**, while `s_fid` is read: `out` is what it holds,
`P` says in which worlds it does, and `fits` what it can hold. -/
structure Sink (other : Call → World → Effect) (pageTable : List TranslationEntry)
    (s_fid d_fid : Word) (P : World → Prop) (out : World → List Byte) (fits : List Byte → Prop) :
    Prop where
  machine : ∀ {w} m, P w → P { w with machine := m } ∧ out { w with machine := m } = out w
  moved : ∀ {w f} off, w.files s_fid.toInt = some f → P w →
    P (w.setOffset s_fid.toInt f off) ∧ out (w.setOffset s_fid.toInt f off) = out w
  write : ∀ {w v n f}, Args pageTable w v n d_fid → v ≠ 0 → 0 ≤ n.toInt →
    v.toNat + n.toNat ≤ pageTable.length * PageSize → P w → w.files s_fid.toInt = some f →
    fits (out w ++ padded (userBytes pageTable w v n.toNat)) →
    ∃ w', exec other SyscallWrite w = .returned w' ∧
      (w'.machine.registers 2).toInt = n.toInt ∧ Runs pageTable w'.machine ∧
      w'.files s_fid.toInt = some f ∧ w'.content f = w.content f ∧ P w' ∧
      out w' = out w ++ padded (userBytes pageTable w v n.toNat)

theorem Sink.args (hs : Sink other pageTable s_fid d_fid P out fits) (hP : P w) (r4 r5 r6 : Word) :
    P (w.args r4 r5 r6) ∧ out (w.args r4 r5 r6) = out w := hs.machine _ hP

/-- The `Read` of a round. -/
theorem Sink.read (hs : Sink other pageTable s_fid d_fid P out fits) (hruns : Runs pageTable w.machine)
    (hbuf : buf ≠ 0) (hn : 0 ≤ MAX_LEN.toInt)
    (hfit : buf.toNat + MAX_LEN.toNat ≤ pageTable.length * PageSize) (hfid : 2 ≤ s_fid.toInt)
    (hf : w.files s_fid.toInt = some f) (hoff : 0 ≤ f.currentOffset) (hP : P w) {bytes : List Byte}
    (hbytes : bytes = readPartial (w.content f) f.currentOffset.toNat MAX_LEN.toNat)
    (hlt : f.currentOffset + bytes.length < 2 ^ 31) :
    ∃ w₁, w.syscall other SC_Read buf MAX_LEN s_fid = .returned w₁ ∧ Runs pageTable w₁.machine ∧
      (w₁.machine.registers 2).toInt = (if 0 < bytes.length then (bytes.length : Int) else -2) ∧
      w₁.files s_fid.toInt = some { f with currentOffset := f.currentOffset + bytes.length } ∧
      (∀ g, w₁.content g = w.content g) ∧
      padded (userBytes pageTable w₁ buf bytes.length) = padded bytes ∧ P w₁ ∧ out w₁ = out w := by
  have hle : bytes.length ≤ MAX_LEN.toNat := by
    rw [hbytes, readPartial]
    exact List.length_take_le ..
  have hN := hruns.size_le
  have hthrough := length_through_le (p := isNul) (l := bytes)
  obtain ⟨m', e, hruns', hflat⟩ := exec_read_open other (args_args hruns buf MAX_LEN s_fid) hbuf hn
    hfit hfid hf hoff hbytes
  rw [asInt_eq (by omega) hlt] at e
  rw [List.append_nil] at hflat
  have hflat₀ : flat pageTable (w.args buf MAX_LEN s_fid).machine = flat pageTable w.machine := rfl
  obtain ⟨hP₁, ho₁⟩ := hs.args hP buf MAX_LEN s_fid
  obtain ⟨hP₂, ho₂⟩ := hs.moved (f.currentOffset + bytes.length)
    (show (w.args buf MAX_LEN s_fid).files s_fid.toInt = some f from hf) hP₁
  refine ⟨_, e, runs_resume hruns' _, resume_toInt _ (by split <;> omega) (by split <;> omega),
    Function.update_self .., fun g => rfl, ?_, (hs.machine _ hP₂).1, ?_⟩
  · have hmem : flat pageTable (World.resume { (w.args buf MAX_LEN s_fid).setOffset s_fid.toInt f
        (f.currentOffset + bytes.length) with machine := m' }
          (if 0 < bytes.length then (bytes.length : Int) else -2)).machine = flat pageTable m' := rfl
    rw [userBytes, hmem, hflat, hflat₀, drop_overlay (by rw [length_flat]; omega)]
    refine padded_through ?_
    rw [List.length_append, List.length_drop, length_flat]
    omega
  · rw [← ho₁]
    exact (hs.machine _ hP₂).2.trans ho₂

/-- **The loop appends the content of the source, block by block.** -/
theorem Sink.copyLoop (hs : Sink other pageTable s_fid d_fid P out fits) (hruns : Runs pageTable w.machine)
    (hbuf : buf ≠ 0) (hn : 0 < MAX_LEN.toInt)
    (hfit : buf.toNat + MAX_LEN.toNat ≤ pageTable.length * PageSize) (hfid : 2 ≤ s_fid.toInt)
    (hf : w.files s_fid.toInt = some f) (hoff : 0 ≤ f.currentOffset) (hP : P w) {rest : List Byte}
    (hrest : rest = (w.content f).drop f.currentOffset.toNat)
    (hlt : f.currentOffset + rest.length < 2 ^ 31)
    (hfits : ∀ l, l <+: masked MAX_LEN.toNat rest → fits (out w ++ l)) :
    ∃ fuel w', Syscall.copyLoop other buf MAX_LEN s_fid d_fid fuel w = some (.over (-2) w') ∧
      P w' ∧ out w' = out w ++ masked MAX_LEN.toNat rest := by
  have hint := toInt_eq_toNat (n := MAX_LEN) (Int.le_of_lt hn)
  have hN := hruns.size_le
  induction hlen : rest.length using Nat.strong_induction_on generalizing w f rest with
  | _ k ih =>
      have htake : (rest.take MAX_LEN.toNat).length = min MAX_LEN.toNat rest.length :=
        List.length_take
      obtain ⟨w₁, e₁, hruns₁, hr2, hf₁, hcontent₁, hbytes₁, hP₁, hout₁⟩ := hs.read hruns hbuf
        (Int.le_of_lt hn) hfit hfid hf hoff hP
        (show rest.take MAX_LEN.toNat = _ by rw [hrest, readPartial]) (by omega)
      have hstep := masked_step (show 0 < MAX_LEN.toNat by omega) rest
      by_cases hnil : rest = []
      · -- nothing is left
        subst hnil
        rw [List.take_nil, List.length_nil, if_neg (Nat.lt_irrefl 0)] at hr2
        refine ⟨1, w₁, ?_, hP₁, ?_⟩
        · rw [Syscall.copyLoop, e₁]
          dsimp only
          rw [hr2, if_neg (by decide)]
        · rw [hout₁]
          exact (List.append_nil _).symm
      · have hpos : 0 < rest.length := List.length_pos_of_ne_nil hnil
        rw [if_pos (by omega)] at hr2
        have hcount : (w₁.machine.registers 2).toNat = (rest.take MAX_LEN.toNat).length := by
          have := toInt_eq_toNat (n := w₁.machine.registers 2) (by omega)
          omega
        have huser : userBytes pageTable (w₁.args buf (w₁.machine.registers 2) d_fid) buf
            (w₁.machine.registers 2).toNat =
            userBytes pageTable w₁ buf (rest.take MAX_LEN.toNat).length := by
          rw [hcount]
          rfl
        obtain ⟨w₂, e₂, hr2', hruns₂, hf₂, hcontent₂, hP₂, hout₂⟩ := hs.write
          (args_args hruns₁ buf (w₁.machine.registers 2) d_fid) hbuf (by omega) (by omega)
          (hs.args hP₁ ..).1 hf₁ (by
            rw [huser, hbytes₁, (hs.args hP₁ ..).2, hout₁]
            exact hfits _ (hstep ▸ List.prefix_append ..))
        rw [huser, hbytes₁, (hs.args hP₁ ..).2, hout₁] at hout₂
        have hdrop : rest.drop MAX_LEN.toNat = rest.drop (rest.take MAX_LEN.toNat).length := by
          rw [htake, List.drop_eq_drop_iff]
          omega
        obtain ⟨fuel, w', e, hP', hout'⟩ := ih (rest.drop MAX_LEN.toNat).length
          (by rw [List.length_drop]; omega) hruns₂ hf₂
          (show 0 ≤ f.currentOffset + _ by omega) hP₂ (show rest.drop MAX_LEN.toNat = _ by
            rw [hcontent₂]
            show _ = (w₁.content _).drop _
            rw [hcontent₁]
            show _ = (w.content f).drop (f.currentOffset + _).toNat
            rw [hdrop, hrest, List.drop_drop, Int.toNat_add hoff (by omega), Int.toNat_natCast])
          (by
            rw [List.length_drop]
            dsimp only
            omega)
          (fun l hl => by
            rw [hout₂, List.append_assoc]
            exact hfits _ (hstep ▸ (List.prefix_append_right_inj _).mpr hl))
          rfl
        refine ⟨fuel + 1, w', ?_, hP', ?_⟩
        · rw [Syscall.copyLoop, e₁]
          dsimp only
          rw [if_pos (by omega)]
          have hw : w₁.syscall other SC_Write buf (w₁.machine.registers 2) d_fid = .returned w₂ := e₂
          rw [hw]
          dsimp only
          rw [if_neg (by rw [hr2']; exact not_not.mpr rfl), e]
        · rw [hout', hout₂, List.append_assoc, ← hstep]

/-! ### copy.c -/

/-- The destination of copy.c: a file that is open for writing, at its end, and not the one that is
read.  Nothing else is changed since `w₀`. -/
structure Appends (s_fid d_fid : Word) (i : Nat) (w₀ w : World) : Prop where
  dest : ∃ g, w.files d_fid.toInt = some g ∧ g.type = 0 ∧ w.inode g.file = i ∧
    g.currentOffset = (w.contents i).length
  source : ∀ f, w.files s_fid.toInt = some f → w.inode f.file ≠ i
  others : ∀ j, j ≠ i → w.contents j = w₀.contents j
  sent : w.sent = w₀.sent

theorem sink_file {i : Nat} {w₀ : World} (hd : 2 ≤ d_fid.toInt) (hne : s_fid.toInt ≠ d_fid.toInt) :
    Sink other pageTable s_fid d_fid (Appends s_fid d_fid i w₀) (fun w => w.contents i)
      fun content => content.length < 2 ^ 31 where
  machine _ hP := ⟨⟨hP.dest, hP.source, hP.others, hP.sent⟩, rfl⟩
  moved := by
    intro w f off hf hP
    obtain ⟨g, hg, hdest⟩ := hP.dest
    refine ⟨⟨⟨g, ?_, hdest⟩, fun f' hf' => ?_, hP.others, hP.sent⟩, rfl⟩
    · exact (Function.update_of_ne (Ne.symm hne) ..).trans hg
    · cases (Function.update_self ..).symm.trans hf'
      exact hP.source f hf
  write := by
    intro w v n f ha hv hn hbuf hP hf hfits
    obtain ⟨g, hg, htype, rfl, hend⟩ := hP.dest
    have hN := ha.runs.size_le
    have hint := toInt_eq_toNat hn
    obtain ⟨m', e, hruns, hflat⟩ := exec_write_open other ha hv hn hbuf hd hg htype (by omega)
    have hbytes := length_userBytes (w := w) hbuf
    have hcontent : w.content g = w.contents (w.inode g.file) := rfl
    rw [List.length_append, length_padded, hbytes] at hfits
    rw [hcontent, hend, Int.toNat_natCast, writeFile_end, asInt_eq (by omega) (by omega)] at e
    refine ⟨_, e, resume_toInt _ (by omega) (by omega), runs_resume hruns _, ?_, ?_, ?_, ?_⟩
    · exact (Function.update_of_ne hne ..).trans hf
    · exact Function.update_of_ne (hP.source f hf) ..
    · refine ⟨⟨_, Function.update_self .., htype, rfl, ?_⟩, fun f' hf' => ?_, fun j hj => ?_, hP.sent⟩
      · show (((w.contents (w.inode g.file)).length : Int) + n.toInt) =
          ((Function.update w.contents (w.inode g.file) _ (w.inode g.file)).length : Nat)
        rw [Function.update_self, List.length_append, length_padded, hbytes, hint]
        rfl
      · exact hP.source f' ((Function.update_of_ne hne ..).symm.trans hf')
      · exact (Function.update_of_ne hj ..).trans (hP.others j hj)
    · exact Function.update_self ..

/-- The files of copy.c when they are open: the destination is new. -/
structure Opened (w : World) (s_fid d_fid : Word) (f g : OpenFile) : Prop where
  source : 2 ≤ s_fid.toInt ∧ w.files s_fid.toInt = some f ∧ f.currentOffset = 0
  dest : 2 ≤ d_fid.toInt ∧ w.files d_fid.toInt = some g ∧ g.currentOffset = 0 ∧ g.type = 0
  empty : w.content g = []
  apart : s_fid.toInt ≠ d_fid.toInt ∧ w.inode f.file ≠ w.inode g.file

theorem Opened.appends {g : OpenFile} (h : Opened w s_fid d_fid f g) :
    Appends s_fid d_fid (w.inode g.file) w w := by
  obtain ⟨-, hg, hg0, htype⟩ := h.dest
  have hempty : w.contents (w.inode g.file) = [] := h.empty
  refine ⟨⟨g, hg, htype, rfl, by rw [hempty]; exact hg0⟩, fun f' hf' => ?_, fun _ _ => rfl, rfl⟩
  cases h.source.2.1.symm.trans hf'
  exact h.apart.2

/-- **What copy.c copies**, of a source of less than 2³¹ bytes.  Its loop comes to the end of the
source, the destination is then the source with each block of 256 bytes masked, and nothing else has
changed.  It is a copy exactly when in each block only zeros follow a zero. -/
theorem copy_copies {g : OpenFile} (h : Opened w s_fid d_fid f g) (hruns : Runs pageTable w.machine)
    (hbuf : buf ≠ 0) (hfit : buf.toNat + 256 ≤ pageTable.length * PageSize)
    (hlt : (w.content f).length < 2 ^ 31) :
    ∃ fuel w', copyLoop other buf 256 s_fid d_fid fuel w = some (.over (-2) w') ∧
      w'.contents (w.inode g.file) = masked 256 (w.content f) ∧
      (∀ j, j ≠ w.inode g.file → w'.contents j = w.contents j) ∧ w'.sent = w.sent ∧
      (w'.contents (w.inode g.file) = w.content f ↔
        ∀ i j, j < i → i < (w.content f).length → i / 256 * 256 ≤ j → (w.content f)[j]? = some 0 →
          (w.content f)[i]? = some 0) := by
  obtain ⟨hs, hf, hf0⟩ := h.source
  have hempty : w.contents (w.inode g.file) = [] := h.empty
  obtain ⟨fuel, w', e, hP', hout⟩ := (sink_file h.dest.1 h.apart.1).copyLoop hruns
    hbuf (show 0 < (256 : Word).toInt by decide) hfit hs hf (by omega) h.appends rfl
    (by rw [List.length_drop]; omega)
    (fun l hl => by
      have hle := hl.length_le
      rw [length_masked, List.length_drop] at hle
      rw [hempty, List.nil_append]
      omega)
  rw [hempty, hf0, List.nil_append] at hout
  have hmasked : w'.contents (w.inode g.file) = masked 256 (w.content f) := hout
  exact ⟨fuel, w', e, hmasked, hP'.others, hP'.sent, by rw [hmasked]; exact masked_eq_iff 256 _⟩

/-- Three pages, in any order in `mainMemory`. -/
def threePages : List TranslationEntry :=
  [⟨0, 5, true, false, false, false⟩, ⟨1, 2, true, false, false, false⟩,
    ⟨2, 7, true, false, false, false⟩]

/-- A process that has opened a file to read as 2 and a new one to write as 3. -/
def twoFiles (content : List Byte) : World where
  machine := { twoPageMachine with pageTable := some threePages, pageTableSize := 3 }
  stream := []
  sent := []
  files i := if i = 2 then some ⟨5, 0, 1⟩ else if i = 3 then some ⟨6, 0, 0⟩ else none
  inode fd := fd.toNat
  contents i := if i = 5 then content else []
  ch := 0

theorem twoFiles_runs (content : List Byte) : Runs threePages (twoFiles content).machine :=
  ⟨threePages, ⟨rfl, rfl, by decide, by decide, by decide, by decide⟩, rfl⟩

theorem twoFiles_opened (content : List Byte) :
    Opened (twoFiles content) 2 3 ⟨5, 0, 1⟩ ⟨6, 0, 0⟩ :=
  ⟨⟨by decide, rfl, rfl⟩, ⟨by decide, rfl, rfl, rfl⟩, rfl, by decide,
    show (5 : Int).toNat ≠ (6 : Int).toNat by decide⟩

/-- Of the bytes `A`, 0, `B` the last one is lost. -/
theorem copy_copies_three : ∃ fuel w',
    copyLoop noOther 1 256 2 3 fuel (twoFiles [0x41, 0, 0x42]) = some (.over (-2) w') ∧
    w'.contents 6 = [0x41, 0, 0] ∧ w'.contents 5 = [0x41, 0, 0x42] := by
  have h := @copy_copies noOther threePages (twoFiles [0x41, 0, 0x42]) 1 2 3 _ _
    (twoFiles_opened _) (twoFiles_runs _) (by decide) (by decide) (by decide)
  obtain ⟨fuel, w', e, hdest, hothers, -⟩ := h
  exact ⟨fuel, w', e, hdest.trans (by decide), hothers 5 (by decide)⟩

/-! ### cat.c -/

theorem sink_console {w₀ : World} : Sink other pageTable s_fid 1
    (fun w => w.contents = w₀.contents) (fun w => w.sent) fun _ => True where
  machine _ hP := ⟨hP, rfl⟩
  moved _ _ hP := ⟨hP, rfl⟩
  write := by
    intro w v n f ha hv hn hbuf hP hf _
    have hN := ha.runs.size_le
    have hint := toInt_eq_toNat hn
    obtain ⟨m', e, hruns, hflat⟩ := exec_write_sent other ha hv hn hbuf
    exact ⟨_, e, resume_toInt _ (by omega) (by omega), runs_resume hruns _, hf, rfl, hP, rfl⟩

/-- **What cat.c shows**, of a file of less than 2³¹ bytes: the file with each block of 255 bytes
masked, so the file itself exactly when in each block only zeros follow a zero. -/
theorem cat_shows (hfid : 2 ≤ s_fid.toInt) (hf : w.files s_fid.toInt = some f)
    (hf0 : f.currentOffset = 0) (hruns : Runs pageTable w.machine) (hbuf : buf ≠ 0)
    (hfit : buf.toNat + 255 ≤ pageTable.length * PageSize) (hlt : (w.content f).length < 2 ^ 31) :
    ∃ fuel w', copyLoop other buf 255 s_fid 1 fuel w = some (.over (-2) w') ∧
      w'.contents = w.contents ∧ w'.sent = w.sent ++ masked 255 (w.content f) ∧
      (w'.sent = w.sent ++ w.content f ↔
        ∀ i j, j < i → i < (w.content f).length → i / 255 * 255 ≤ j → (w.content f)[j]? = some 0 →
          (w.content f)[i]? = some 0) := by
  obtain ⟨fuel, w', e, hP', hout⟩ := sink_console.copyLoop hruns hbuf
    (show 0 < (255 : Word).toInt by decide) hfit hfid hf (by omega) (rfl : w.contents = w.contents) rfl
    (by rw [List.length_drop]; omega) fun _ _ => trivial
  rw [hf0] at hout
  have hsent : w'.sent = w.sent ++ masked 255 (w.content f) := hout
  exact ⟨fuel, w', e, hP', hsent, by
    rw [hsent, List.append_cancel_left_eq]
    exact masked_eq_iff 255 _⟩

theorem cat_shows_three : ∃ fuel w',
    copyLoop noOther 1 255 2 1 fuel (twoFiles [0x41, 0, 0x42]) = some (.over (-2) w') ∧
    w'.sent = [0x41, 0, 0] := by
  have h := @cat_shows noOther threePages (twoFiles [0x41, 0, 0x42]) 1 2 _ (by decide) rfl rfl
    (twoFiles_runs _) (by decide) (by decide) (by decide)
  obtain ⟨fuel, w', e, -, hsent, -⟩ := h
  exact ⟨fuel, w', e, hsent.trans (by decide)⟩

end

end Nachos.Syscall
