import Nachos.Filesys.HostFiles
import Nachos.Lib.Runs
import Nachos.Userprog.Copy
import Nachos.Userprog.FileCalls

/-!
# Userprog — FilePosition

`SyscallRead`, `SyscallWrite` and `SyscallSeek` (userprog/exception.cc) over the open files of
`HostFiles`.

`OpenFile::Read` adds the answer of `read` to `currentOffset`, also when the answer is -1 and stands
for a failure; and nothing keeps a position below 2³¹.  In a run without either (`InRange`) the
position is what the answers say it is (`position_follows`).
-/

namespace Nachos.Syscall
open Lib Filesys

/-- The open file a `Read` or a `Write` comes to with its arguments. -/
def HostFiles.reached (s : HostFiles) (m : Machine) : Option OpenFile :=
  if m.registers 4 = 0 ∨ (m.registers 5).toInt < 0 then none
  else s.getOpenFile (m.registers 6).toInt

/-! ### Runs -/

inductive FileOp where
  | read | write | seek
  deriving DecidableEq

def FileOp.handler : FileOp → Prog
  | read => SyscallRead
  | write => SyscallWrite
  | seek => SyscallSeek

/-- A system call: the machine as it is at the trap, and what the devices answer. -/
structure FileAction where
  op : FileOp
  machine : Machine
  host : Devices

namespace FileAction

/-- The file id among the arguments. -/
def fid (a : FileAction) : Int :=
  match a.op with
  | .read | .write => (a.machine.registers 6).toInt
  | .seek => (a.machine.registers 5).toInt

def ending (a : FileAction) (s : HostFiles) : Ending HostFiles :=
  serve (HostFiles.call a.host) a.op.handler a.machine s

/-- **No call goes over the end of the `int`, and no `read` of the host fails.** -/
def InRange (s : HostFiles) (a : FileAction) : Prop :=
  match a.op with
  | .read => ∀ f, s.reached a.machine = some f → ∃ k, a.host.read = some k ∧
      let numBytes := (a.machine.registers 5).toInt.toNat
      f.currentOffset + (s.found f numBytes f.currentOffset.toNat k).length < 2 ^ 31
  | .write => ∀ f, s.reached a.machine = some f → f.type ≠ 1 →
      f.currentOffset + (a.machine.registers 5).toInt < 2 ^ 31
  | .seek => True

end FileAction

/-- The files behind a call, when it returns. -/
def fileStep (s : HostFiles) (a : FileAction) : Except Stop HostFiles :=
  match a.ending s with
  | .returned _ s => .ok s
  | .stopped e => .error e
  | _ => .error .disabled

/-! ### What a call does -/

section
variable {host : Devices} {m m' : Machine} {s s' : HostFiles} {f : OpenFile}

/-- The handlers return -1 where no file is open, and go on where one is. -/
theorem getOpenFile_inv {fid : Int} {p : Prog}
    (h : serve (HostFiles.call host) (.call (.getOpenFile fid) fun f =>
      if f.value = 0 then .returns (-1) else p) m s = .returned m' s') :
    (s' = s ∧ (m'.registers 2).toInt = -1) ∨
      ∃ f, s.getOpenFile fid = some f ∧ serve (HostFiles.call host) p m s = .returned m' s' := by
  obtain ⟨r, x, hcall, h⟩ := call_inv h
  cases hcall
  rw [serve_ite] at h
  cases hf : s.getOpenFile fid with
  | none =>
      simp only [hf, Option.isSome_none, Bool.false_eq_true, if_false, if_true] at h
      exact .inl (returned_fails h)
  | some f =>
      simp only [hf, Option.isSome_some, if_true, one_ne_zero, if_false] at h
      exact .inr ⟨f, rfl, h⟩

theorem reached_some (h₄ : m.registers 4 ≠ 0) (h₅ : 0 ≤ (m.registers 5).toInt)
    (hf : s.getOpenFile (m.registers 6).toInt = some f) : s.reached m = some f := by
  rw [HostFiles.reached, if_neg (by rw [not_or, not_lt]; exact ⟨h₄, h₅⟩), hf]

/-- How `Read` and `Write` begin: they return -1, they turn to the console, or they come to an open
file. -/
theorem transfer_inv {wrong console : Int} {onConsole onOpen : Word → Word → Word → Prog}
    (h : serve (HostFiles.call host) (.readRegister 4 fun strAddr =>
      if strAddr = 0 then .returns (-1)
      else .readRegister 5 fun charCount => .readRegister 6 fun fid =>
        if fid.toInt = wrong ∨ charCount.toInt < 0 then .returns (-1)
        else if fid.toInt = console then onConsole strAddr charCount fid
        else .call (.getOpenFile fid.toInt) fun f =>
          if f.value = 0 then .returns (-1) else onOpen strAddr charCount fid) m s =
      .returned m' s') :
    (s' = s ∧ (m'.registers 2).toInt = -1) ∨
    ((m.registers 6).toInt = console ∧ serve (HostFiles.call host)
      (onConsole (m.registers 4) (m.registers 5) (m.registers 6)) m s = .returned m' s') ∨
    ∃ f, s.reached m = some f ∧ s.getOpenFile (m.registers 6).toInt = some f ∧
      0 ≤ (m.registers 5).toInt ∧ serve (HostFiles.call host)
        (onOpen (m.registers 4) (m.registers 5) (m.registers 6)) m s = .returned m' s' := by
  rw [serve_readRegister, serve_ite] at h
  split at h
  · exact .inl (returned_fails h)
  rename_i h₄
  rw [serve_readRegister, serve_readRegister, serve_ite] at h
  split at h
  · exact .inl (returned_fails h)
  rename_i h₅
  rw [not_or, not_lt] at h₅
  rw [serve_ite] at h
  split at h
  · rename_i h₆
    exact .inr (.inl ⟨h₆, h⟩)
  rcases getOpenFile_inv h with hfail | ⟨f, hf, h⟩
  · exact .inl hfail
  · exact .inr (.inr ⟨f, reached_some h₄ h₅.2 hf, hf, h₅.2, h⟩)

/-- No file is open under the ids of the console. -/
theorem getOpenFile_console {fid : Int} (h : fid < 2) : s.getOpenFile fid = none := if_pos h

/-- A `Read` comes to no open file; or it moves the position by the answer of `read`. -/
theorem read_spec (h : serve (HostFiles.call host) SyscallRead m s = .returned m' s') :
    (s' = s ∧ ((m'.registers 2).toInt = -1 ∨ s.getOpenFile (m.registers 6).toInt = none)) ∨
    ∃ f, s.reached m = some f ∧
      ((host.read = none ∧ (m'.registers 2).toInt = -1 ∧
          s' = s.setOffset (m.registers 6).toInt f (asInt (f.currentOffset - 1))) ∨
        ∃ k bytes, host.read = some k ∧
          bytes = s.found f (m.registers 5).toInt.toNat f.currentOffset.toNat k ∧
          (m'.registers 2).toInt = (if bytes = [] then -2 else (bytes.length : Int)) ∧
          s' = s.setOffset (m.registers 6).toInt f (asInt (f.currentOffset + bytes.length))) := by
  rcases transfer_inv h with ⟨hs, hr⟩ | ⟨hfid, h⟩ | ⟨f, hreach, hf, -, h⟩
  · exact .inl ⟨hs, .inl hr⟩
  · have hnone := getOpenFile_console (s := s) (show (m.registers 6).toInt < 2 by omega)
    obtain ⟨r, x, hcall, h⟩ := call_inv (newBuffer_inv h)
    cases hcall
    rw [serve_ite] at h
    split at h
    · exact .inl ⟨(returned_inv h).1, .inr hnone⟩
    · obtain ⟨m₁, h⟩ := system2User_inv h
      exact .inl ⟨(returned_inv h).1, .inr hnone⟩
  obtain ⟨r, x, hcall, h⟩ := call_inv (newBuffer_inv h)
  have hread := (onFile_some hf).symm.trans hcall
  refine .inr ⟨f, hreach, ?_⟩
  rw [serve_ite] at h
  rcases Read_spec hread with ⟨hk, hv, hx⟩ | ⟨k, bytes, hk, hb, hv, hx⟩
  · rw [hv, if_neg (by decide)] at h
    obtain ⟨rfl, hr⟩ := returned_fails h
    exact .inl ⟨hk, hr, hx⟩
  · rw [hv, if_pos (by omega)] at h
    obtain ⟨m₁, h⟩ := system2User_inv h
    obtain ⟨rfl, hr⟩ := returned_inv h
    refine .inr ⟨k, bytes, hk, hb, hr.trans ?_, hx⟩
    have hlen : (bytes.length : Int) < 2 ^ 31 := by
      have hle := length_found s f (m.registers 5).toInt.toNat f.currentOffset.toNat k
      have hlt := (m.registers 5).toInt_lt
      rw [← hb] at hle
      omega
    cases bytes with
    | nil => rfl
    | cons b bytes =>
        rw [if_neg (List.cons_ne_nil b bytes), if_pos (by simp)]
        exact asInt_eq (by omega) hlen

/-- A `Write` reports -1 or comes to no open file; or the position moves by what is written. -/
theorem write_spec (h : serve (HostFiles.call host) SyscallWrite m s = .returned m' s') :
    (s' = s ∧ ((m'.registers 2).toInt = -1 ∨ s.getOpenFile (m.registers 6).toInt = none)) ∨
    ∃ f content, s.reached m = some f ∧ f.type ≠ 1 ∧ 0 ≤ (m.registers 5).toInt ∧
      (m'.registers 2).toInt = (m.registers 5).toInt ∧
      s' = (s.setContent f content).setOffset (m.registers 6).toInt f
        (asInt (f.currentOffset + (m.registers 5).toInt)) := by
  rcases transfer_inv h with ⟨hs, hr⟩ | ⟨hfid, h⟩ | ⟨f, hreach, hf, hn, h⟩
  · exact .inl ⟨hs, .inl hr⟩
  · obtain ⟨bytes, m₁, h⟩ := user2System_inv h
    obtain ⟨r, x, hcall, h⟩ := call_inv h
    cases hcall
    exact .inl ⟨(returned_inv h).1, .inr (getOpenFile_console (by omega))⟩
  obtain ⟨bytes, m₁, h⟩ := user2System_inv h
  obtain ⟨r, x, hcall, h⟩ := call_inv h
  have hwrite := (onFile_some hf).symm.trans hcall
  unfold HostFiles.Write HostFiles.WriteAt at hwrite
  by_cases htype : f.type = 1
  · rw [if_pos htype] at hwrite
    cases hwrite
    rw [if_neg (show ¬ (-1 = (m.registers 5).toInt) by omega)] at h
    obtain ⟨hs, hr⟩ := returned_fails h
    exact .inl ⟨hs, .inl hr⟩
  · rw [if_neg htype] at hwrite
    split_ifs at hwrite
    cases hwrite
    rw [if_pos rfl] at h
    obtain ⟨rfl, hr⟩ := returned_inv h
    refine .inr ⟨f, _, hreach, htype, hn, hr.trans ?_, rfl⟩
    rw [BitVec.ofInt_toInt]

/-- A `Seek` reports -1 and leaves the position, or reports the new one. -/
theorem seek_spec (h : serve (HostFiles.call host) SyscallSeek m s = .returned m' s') :
    (s' = s ∧ (m'.registers 2).toInt = -1) ∨
    ∃ f pos, s.getOpenFile (m.registers 5).toInt = some f ∧ 0 ≤ pos ∧ pos < 2 ^ 31 ∧
      (m'.registers 2).toInt = pos ∧ s' = s.setOffset (m.registers 5).toInt f pos := by
  unfold SyscallSeek at h
  rw [serve_readRegister, serve_readRegister, serve_ite] at h
  split at h
  · exact .inl (returned_fails h)
  rcases getOpenFile_inv h with hfail | ⟨f, hf, h⟩
  · exact .inl hfail
  obtain ⟨r, x, hcall, h⟩ := call_inv h
  have hseek := (onFile_some hf).symm.trans hcall
  obtain ⟨rfl, hr⟩ := returned_inv h
  rcases Seek_spec BitVec.toInt_lt hseek with ⟨hs, hv⟩ | ⟨pos, h₁, h₂, hv, hs⟩
  · rw [hv] at hr
    exact .inl ⟨hs, hr⟩
  · rw [hv] at hr
    exact .inr ⟨f, pos, hf, h₁, h₂, hr.trans (asInt_eq (by omega) h₂), hs⟩

/-! ### Along a run -/

/-- No position is negative. -/
def HostFiles.Valid (s : HostFiles) : Prop :=
  ∀ fid f, s.files fid = some f → 0 ≤ f.currentOffset ∧ f.currentOffset < 2 ^ 31

/-- The file `i` of the host is open for reading only. -/
def HostFiles.ReadOnly (s : HostFiles) (i : Nat) : Prop :=
  ∀ fid f, s.files fid = some f → s.inode f.file = i → f.type = 1

/-- **What a call does to the positions**, which comes back with `value`: with -1 it moves none; any
other answer of a `Read` or a `Write` is by how much its file has moved, where -2 is the end of the
file; and the other files stay. -/
structure FileAction.Follows (a : FileAction) (s s' : HostFiles) (value : Int) : Prop where
  fails : value = -1 → s'.files = s.files
  advances : ∀ f, a.op ≠ .seek → s.getOpenFile a.fid = some f → value ≠ -1 →
    s'.files a.fid =
      some { f with currentOffset := f.currentOffset + if value = -2 then 0 else value }
  others : ∀ fid, fid ≠ a.fid → s'.files fid = s.files fid

variable {a : FileAction}

theorem getOpenFile_of_reached (h : s.reached m = some f) :
    s.getOpenFile (m.registers 6).toInt = some f := by
  unfold HostFiles.reached at h
  split at h
  · cases h
  · exact h

/-- **What one call can do**, in range: nothing; or it moves one position to a place that is not
negative, and writes to no file that is open for reading. -/
theorem ending_cases (hv : s.Valid) (hc : a.InRange s) (h : a.ending s = .returned m' s') :
    (s' = s ∧ ((m'.registers 2).toInt = -1 ∨ s.getOpenFile a.fid = none)) ∨
    ∃ f pos contents, s.getOpenFile a.fid = some f ∧ 0 ≤ pos ∧ pos < 2 ^ 31 ∧
      (m'.registers 2).toInt ≠ -1 ∧
      (a.op ≠ .seek → pos = f.currentOffset +
        if (m'.registers 2).toInt = -2 then 0 else (m'.registers 2).toInt) ∧
      (∀ i, contents i = s.contents i ∨ (f.type ≠ 1 ∧ i = s.inode f.file)) ∧
      s' = { s with contents := contents }.setOffset a.fid f pos := by
  unfold FileAction.ending at h
  unfold FileAction.InRange at hc
  unfold FileAction.fid
  cases hop : a.op with
  | read =>
      rw [hop] at h hc
      rcases read_spec h with ⟨hs, hr⟩ | ⟨f, hreach, ⟨hk, -⟩ | ⟨k, bytes, hk, rfl, hr, hs⟩⟩
      · exact .inl ⟨hs, hr⟩
      · obtain ⟨k, hk', -⟩ := hc f hreach
        rw [hk] at hk'
        cases hk'
      obtain ⟨k', hk', hlt⟩ := hc f hreach
      obtain rfl : k = k' := Option.some.inj (hk.symm.trans hk')
      have hf := getOpenFile_of_reached hreach
      have hpos := (hv _ f (files_of_getOpenFile hf)).1
      rw [asInt_eq (by omega) hlt] at hs
      refine .inr ⟨f, _, s.contents, hf, by omega, hlt, ?_, fun _ => ?_, fun _ => .inl rfl, hs⟩
      · rw [hr]
        split <;> omega
      · rw [hr]
        split
        · rename_i he
          rw [he, if_pos rfl, List.length_nil, Nat.cast_zero]
        · rw [if_neg (by omega)]
  | write =>
      rw [hop] at h hc
      rcases write_spec h with ⟨hs, hr⟩ | ⟨f, content, hreach, htype, hn, hr, hs⟩
      · exact .inl ⟨hs, hr⟩
      have hlt := hc f hreach htype
      have hf := getOpenFile_of_reached hreach
      have hpos := (hv _ f (files_of_getOpenFile hf)).1
      rw [asInt_eq (by omega) hlt] at hs
      refine .inr ⟨f, _, _, hf, by omega, hlt, by omega, fun _ => ?_, fun i => ?_, hs⟩
      · rw [hr, if_neg (by omega)]
      · by_cases hi : i = s.inode f.file
        · exact .inr ⟨htype, hi⟩
        · exact .inl (Function.update_of_ne hi ..)
  | seek =>
      rw [hop] at h
      rcases seek_spec h with ⟨hs, hr⟩ | ⟨f, pos, hf, h₁, h₂, hr, hs⟩
      · exact .inl ⟨hs, .inl hr⟩
      · exact .inr ⟨f, pos, s.contents, hf, h₁, h₂, by omega, fun hne => absurd rfl hne,
          fun _ => .inl rfl, hs⟩

theorem ending_follows (hv : s.Valid) (hc : a.InRange s) (h : a.ending s = .returned m' s') :
    a.Follows s s' (m'.registers 2).toInt := by
  rcases ending_cases hv hc h with ⟨rfl, hr⟩ | ⟨f, pos, contents, hf, -, -, hne, hadv, -, rfl⟩
  · refine ⟨fun _ => rfl, fun f _ hf hne => ?_, fun _ _ => rfl⟩
    rw [hr.resolve_left hne] at hf
    cases hf
  · refine ⟨fun he => absurd he hne, fun f' hop hf' _ => ?_, fun fid hfid => ?_⟩
    · obtain rfl : f = f' := Option.some.inj (hf.symm.trans hf')
      rw [← hadv hop]
      exact Function.update_self ..
    · exact Function.update_of_ne hfid ..

theorem files_setOffset {fid fid' pos : Int} {f' : OpenFile}
    (h : (s.setOffset fid f pos).files fid' = some f') :
    (fid' = fid ∧ f' = { f with currentOffset := pos }) ∨ s.files fid' = some f' := by
  unfold HostFiles.setOffset at h
  dsimp only at h
  by_cases e : fid' = fid
  · rw [e, Function.update_self] at h
    exact .inl ⟨e, (Option.some.inj h).symm⟩
  · rw [Function.update_of_ne e] at h
    exact .inr h

theorem valid_setOffset {fid pos : Int} (hv : s.Valid) (h₁ : 0 ≤ pos) (h₂ : pos < 2 ^ 31) :
    (s.setOffset fid f pos).Valid := by
  intro fid' f' hf'
  rcases files_setOffset hf' with ⟨-, rfl⟩ | hf'
  · exact ⟨h₁, h₂⟩
  · exact hv fid' f' hf'

theorem readOnly_setOffset {fid pos : Int} {i : Nat} (hr : s.ReadOnly i)
    (hf : s.files fid = some f) : (s.setOffset fid f pos).ReadOnly i := by
  intro fid' f' hf' hi
  rcases files_setOffset hf' with ⟨-, rfl⟩ | hf'
  · exact hr fid f hf hi
  · exact hr fid' f' hf' hi

theorem fileStep_ok (h : fileStep s a = .ok s') : ∃ m', a.ending s = .returned m' s' := by
  unfold fileStep at h
  split at h
  · rename_i m' s₁ he
    cases h
    exact ⟨m', he⟩
  all_goals cases h

theorem valid_step (hv : s.Valid) (hc : a.InRange s) (h : fileStep s a = .ok s') : s'.Valid := by
  obtain ⟨m', h⟩ := fileStep_ok h
  rcases ending_cases hv hc h with ⟨rfl, -⟩ | ⟨f, pos, contents, -, h₁, h₂, -, -, -, rfl⟩
  · exact hv
  · exact valid_setOffset (s := { s with contents := contents }) hv h₁ h₂

/-- A file that is open for reading only stays so, and as it is. -/
theorem readOnly_step {i : Nat} (hv : s.Valid) (hr : s.ReadOnly i) (hc : a.InRange s)
    (h : fileStep s a = .ok s') : s'.ReadOnly i ∧ s'.contents i = s.contents i := by
  obtain ⟨m', h⟩ := fileStep_ok h
  rcases ending_cases hv hc h with ⟨rfl, -⟩ | ⟨f, pos, contents, hf, -, -, -, -, hcont, rfl⟩
  · exact ⟨hr, rfl⟩
  · have hfile := files_of_getOpenFile hf
    refine ⟨readOnly_setOffset (s := { s with contents := contents }) hr hfile, ?_⟩
    rcases hcont i with e | ⟨htype, e⟩
    · exact e
    · exact absurd (hr _ f hfile e.symm) htype

/-- **The position of a file is what the answers say it is.**  From files that have just been
opened, along any run of `Read`, `Write` and `Seek` in which no `read` of the host fails and none
goes over the end of the `int`: no position is negative; a call that reports -1 moves none, and any
other answer of a `Read` or a `Write` is by how much the position of its file moves; and a file that
is open for reading only is never modified. -/
theorem position_follows {s₀ : HostFiles}
    (h₀ : ∀ fid f, s₀.files fid = some f → f.currentOffset = 0)
    (h : Steps fileStep (fun s a => a.InRange s) s₀ s) :
    (∀ fid f, s.files fid = some f → 0 ≤ f.currentOffset) ∧
    (∀ (a : FileAction) (m' : Machine) (s' : HostFiles), a.InRange s →
      a.ending s = .returned m' s' → a.Follows s s' (m'.registers 2).toInt) ∧
    (∀ i, s₀.ReadOnly i → s.contents i = s₀.contents i) := by
  have hv₀ : s₀.Valid := by
    intro fid f hf
    rw [h₀ fid f hf]
    decide
  have hv : s.Valid := h.inv hv₀ fun s a s' hv hc hs => valid_step hv hc hs
  refine ⟨fun fid f hf => (hv fid f hf).1, fun a m' s' hc hs => ending_follows hv hc hs,
    fun i hr => ?_⟩
  have hI : s.Valid ∧ s.ReadOnly i ∧ s.contents i = s₀.contents i := by
    refine h.inv (I := fun s => s.Valid ∧ s.ReadOnly i ∧ s.contents i = s₀.contents i)
      ⟨hv₀, hr, rfl⟩ fun s a s' ⟨hv, hr, he⟩ hc hs => ?_
    obtain ⟨hr', he'⟩ := readOnly_step hv hr hc hs
    exact ⟨valid_step hv hc hs, hr', he'.trans he⟩
  exact hI.2.2

end

/-- One file is open, for reading and writing, at its beginning. -/
def oneFile : HostFiles where
  files i := if i = 2 then some ⟨3, 0, 0⟩ else none
  inode _ := 0
  contents _ := [1, 2, 3]

theorem oneFile_start (fid : Int) (f : OpenFile) (h : oneFile.files fid = some f) :
    f.currentOffset = 0 := by
  unfold oneFile at h
  dsimp only at h
  split at h
  · cases h
    rfl
  · cases h

/-- `Read` of two bytes from it, with what the host answers. -/
def readTwo (answer : Option Nat) : FileAction where
  op := .read
  machine := { twoPageMachine with
    registers := fun i => if i = 4 then 16 else if i = 5 then 2 else if i = 6 then 2 else 0 }
  host := ⟨answer, true, ⟨0, []⟩⟩

/-- The two bytes are read, and the next `Read` finds the one that is left. -/
theorem position_follows_two : ∃ s m' s',
    Steps fileStep (fun s a => a.InRange s) oneFile s ∧ s.files 2 = some ⟨3, 2, 0⟩ ∧
    (readTwo (some 9)).ending s = .returned m' s' ∧ (m'.registers 2).toInt = 1 ∧
    s'.files 2 = some ⟨3, 3, 0⟩ := by
  have hc : (readTwo (some 9)).InRange oneFile := by
    rintro f hf
    cases hf
    exact ⟨9, rfl, by decide⟩
  have hs : Steps fileStep (fun s a => a.InRange s) oneFile (oneFile.setOffset 2 ⟨3, 0, 0⟩ 2) :=
    Steps.one hc rfl
  obtain ⟨-, hfollow, -⟩ := position_follows oneFile_start hs
  have hc' : (readTwo (some 9)).InRange (oneFile.setOffset 2 ⟨3, 0, 0⟩ 2) := by
    rintro f hf
    cases hf
    exact ⟨9, rfl, by decide⟩
  have hend : ∃ m' s', (readTwo (some 9)).ending (oneFile.setOffset 2 ⟨3, 0, 0⟩ 2) =
      .returned m' s' ∧ (m'.registers 2).toInt = 1 := ⟨_, _, rfl, rfl⟩
  obtain ⟨m', s', hend, hr⟩ := hend
  refine ⟨_, m', s', hs, rfl, hend, hr, ?_⟩
  have hadv := (hfollow _ m' s' hc' hend).advances ⟨3, 2, 0⟩ (by decide) rfl (by omega)
  rw [hr] at hadv
  exact hadv

/-- A `read` of the host fails: `Read` reports -1 and has moved the position to -1, and the next
`Read` stops the kernel. -/
theorem position_negative : ∃ m' s',
    (∀ fid f, oneFile.files fid = some f → f.currentOffset = 0) ∧
    (readTwo none).ending oneFile = .returned m' s' ∧ Steps fileStep always oneFile s' ∧
    (m'.registers 2).toInt = -1 ∧ s'.files 2 = some ⟨3, -1, 0⟩ ∧ s'.files ≠ oneFile.files ∧
    (readTwo (some 9)).ending s' = .stopped .assertFails := by
  refine ⟨_, oneFile.setOffset 2 ⟨3, 0, 0⟩ (-1), oneFile_start, rfl, Steps.one (a := readTwo none)
    trivial rfl, rfl, rfl, fun he => ?_, rfl⟩
  have h₂ := congrFun he 2
  cases h₂

end Nachos.Syscall
