import Nachos.Userprog.World

/-!
# Userprog — Transfer

`SyscallRead` and `SyscallWrite` (userprog/exception.cc) on every file and every console input.  The
bytes go through a kernel buffer and the copy routines of `Machine`, which were written for strings:
a `Read` leaves the bytes of the file, or of the line, up to the first zero, and a `Write` sends
zeros from there on.  The console `Read` also adds a terminator, which a line that fills the request
puts behind the caller's buffer.

For each of them the theorem says exactly when the call does what its documentation says.
-/

namespace Nachos.Syscall
open Lib Machine SynchConsole Filesys

/-- The caller runs on `pageTable` and has called with these arguments. -/
structure Args (pageTable : List TranslationEntry) (w : World) (strAddr charCount fid : Word) :
    Prop where
  runs : Runs pageTable w.machine
  r4 : w.machine.registers 4 = strAddr
  r5 : w.machine.registers 5 = charCount
  r6 : w.machine.registers 6 = fid

/-- A process that has called with these arguments, with one file open for reading and writing. -/
def callWith (v n fid : Word) (content stream : List Byte) : World where
  machine := { twoPageMachine with
    registers := fun i => if i = 4 then v else if i = 5 then n else if i = 6 then fid else 0 }
  stream := stream
  sent := []
  files := fun i => if i = 2 then some ⟨3, 0, 0⟩ else none
  inode := fun _ => 0
  contents := fun _ => content
  ch := 0

/-- The rest of the kernel is not called. -/
def noOther (_ : Call) (_ : World) : Effect := .aborts

theorem callWith_args (v n fid : Word) (content stream : List Byte) :
    Args twoPages (callWith v n fid content stream) v n fid :=
  ⟨⟨twoPages, ⟨rfl, rfl, by decide, by decide, by decide, by decide⟩, rfl⟩, rfl, rfl, rfl⟩

section
variable {other : Call → World → Effect} {pageTable : List TranslationEntry} {w : World}
  {v n fid : Word}

/-- The registers do not matter for the memory. -/
theorem runs_congr {m m' : Machine} (h : Runs pageTable m) (ht : m'.pageTable = m.pageTable)
    (hs : m'.pageTableSize = m.pageTableSize) : Runs pageTable m' := by
  obtain ⟨table, ⟨htable, hsize, hl⟩, hmap⟩ := h
  exact ⟨table, ⟨ht.trans htable, hs.trans hsize, hl⟩, hmap⟩

variable (other) in
/-- What a copy to the user means for the handler. -/
theorem exec_system2User (h : Runs pageTable w.machine) (buffer : List Byte) (len : Nat) (k : Prog)
    (hlen : len ≤ buffer.length)
    (hfit : v.toNat + (through isNul (buffer.take len)).length ≤ pageTable.length * PageSize) :
    ∃ m', exec other (.system2User v len buffer k) w = exec other k { w with machine := m' } ∧
      Runs pageTable m' ∧ m'.registers = w.machine.registers ∧
      flat pageTable m' =
        overlay (flat pageTable w.machine) v.toNat (through isNul (buffer.take len)) := by
  have hbs : toUser (fun i => buffer.getD i 0) len 0 = through isNul (buffer.take len) := by
    rw [toUser, map_getD_range hlen]
  obtain ⟨m', e, hm'⟩ := system2User_eq (v := v) h (fun i => buffer.getD i 0) len
    (by rw [hbs]; exact hfit)
  rw [hbs] at hm'
  exact ⟨m', by rw [exec, e]; rfl, hm'⟩

variable (other) in
/-- What a copy from the user means for the handler. -/
theorem exec_user2System (h : Runs pageTable w.machine) (limit : Nat) (k : List Byte → Prog)
    (hfit : v.toNat + limit ≤ pageTable.length * PageSize) :
    ∃ m', exec other (.user2System v limit k) w =
        exec other (k (kernelBuf pageTable w.machine v limit)) { w with machine := m' } ∧
      Runs pageTable m' ∧ m'.registers = w.machine.registers ∧
      flat pageTable m' = flat pageTable w.machine := by
  obtain ⟨m', hr, hregs, hflat, e, -⟩ := user2System_eq h limit (.inl hfit)
  exact ⟨m', by rw [exec, e]; rfl, hr, hregs, hflat⟩

theorem exec_call {c : Call} {k : Answer → Prog} {r : Answer} {w' : World}
    (h : w.call other c = .returns r w') : exec other (.call c k) w = exec other (k r) w' := by
  rw [exec, h]

theorem exec_call_blocks {c : Call} {k : Answer → Prog} (h : w.call other c = .blocks) :
    exec other (.call c k) w = .blocked w := by
  rw [exec, h]

section
variable {i : Int} {f : OpenFile}

theorem World.files_setOffset_self (w : World) (i : Int) (f : OpenFile) (off : Int) :
    (w.setOffset i f off).files i = some { f with currentOffset := off } :=
  Function.update_self ..

theorem call_getOpenFile (hi : 2 ≤ i) (hf : w.files i = some f) :
    w.call other (.getOpenFile i) = .returns ⟨1, []⟩ w := by
  rw [World.call, World.onHost, HostFiles.call, getOpenFile_eq hi hf]
  rfl

theorem call_fileRead (hi : 2 ≤ i) (hf : w.files i = some f) (hoff : 0 ≤ f.currentOffset)
    {numBytes : Int} (bytes : List Byte)
    (hb : bytes = readPartial (w.content f) f.currentOffset.toNat numBytes.toNat) :
    w.call other (.fileRead i numBytes) = .returns ⟨bytes.length, bytes⟩
      (w.setOffset i f (asInt (f.currentOffset + bytes.length))) := by
  rw [World.call, World.onHost, HostFiles.call, onFile_some (getOpenFile_eq hi hf), HostFiles.Read,
    HostFiles.ReadAt, if_neg (by omega)]
  dsimp only
  rw [found_all, ← hb]
  rfl

theorem call_fileWrite (hi : 2 ≤ i) (hf : w.files i = some f) (htype : f.type = 0)
    (hoff : 0 ≤ f.currentOffset) {src : List Byte} {numBytes : Int} (hsrc : numBytes ≤ src.length) :
    w.call other (.fileWrite i src numBytes) = .returns ⟨numBytes, []⟩
      ((w.setContent f (writeFile (w.content f) f.currentOffset.toNat
        (src.take numBytes.toNat))).setOffset i f (asInt (f.currentOffset + numBytes))) := by
  rw [World.call, if_neg (by omega), World.onHost, HostFiles.call,
    onFile_some (getOpenFile_eq hi hf), HostFiles.Write, if_neg (by omega), HostFiles.WriteAt,
    if_neg (by omega), if_neg (by omega), if_pos rfl]
  rfl

theorem call_write {src : List Byte} {numBytes : Int} (hsrc : numBytes ≤ src.length) :
    w.call other (.write src numBytes) = .returns ⟨numBytes, []⟩
      { w with sent := w.sent ++ src.take numBytes.toNat } := by
  rw [World.call, if_neg (by omega)]

end

/-- The bytes a copy to the user was to leave, and what it leaves. -/
theorem overlay_matches_iff {bytes t : List Byte} {m m' : Machine}
    (hflat : flat pageTable m' =
      overlay (flat pageTable m) v.toNat (through isNul (bytes ++ t)))
    (hfit : v.toNat + (through isNul (bytes ++ t)).length ≤ pageTable.length * PageSize) :
    (∀ i < bytes.length, (flat pageTable m')[v.toNat + i]? = bytes[i]?) ↔
      ∀ i j, j < i → i < bytes.length → bytes[j]? = some 0 →
        (flat pageTable m)[v.toNat + i]? = bytes[i]? := by
  rw [hflat, overlay_through_iff (by rw [length_flat]; exact hfit)]
  constructor
  · intro h i j hj hi hl
    exact h i j 0 hj hi hl rfl
  · intro h i j a hj hi hl ha
    exact h i j hj hi (by rw [hl, isNul_iff.mp ha])

theorem toInt_eq_toNat {n : Word} (h : 0 ≤ n.toInt) : n.toInt = n.toNat := by
  have hn := n.isLt
  have hint := BitVec.toInt_eq_toNat_cond n
  split at hint <;> omega

/-- There is memory for a buffer that is not larger than that of the caller. -/
theorem exec_newBuffer {k : Prog} (h : n.toNat ≤ 2 ^ 14) :
    exec other (.newBuffer (n + 1) k) w = exec other k w := by
  have hnat : (n + 1).toNat = n.toNat + 1 := by
    rw [BitVec.toNat_add, show (1 : Word).toNat = 1 from rfl]
    omega
  rw [Prog.newBuffer, if_neg]
  rw [BitVec.toInt_eq_toNat_of_lt (by omega), hnat]
  omega

/-! ### `Read` on a file -/

/-- What the documentation says of a `Read` that returns `k`: the `k` bytes are in the buffer, the
file has advanced by `k`, and nothing else is changed. -/
structure FileRead (pageTable : List TranslationEntry) (w : World) (v fid : Word) (f : OpenFile)
    (k : Nat) (w' : World) : Prop where
  bytes : ∀ i < k, (flat pageTable w'.machine)[v.toNat + i]? =
    (w.content f)[f.currentOffset.toNat + i]?
  offset : w'.files fid.toInt = some { f with currentOffset := f.currentOffset + k }
  others : ∀ x, x < v.toNat ∨ v.toNat + k ≤ x →
    (flat pageTable w'.machine)[x]? = (flat pageTable w.machine)[x]?

variable (other) in
/-- **How `Read` on a file ends**, and what it leaves of the machine. -/
theorem exec_read_open {f : OpenFile} (ha : Args pageTable w v n fid) (hv : v ≠ 0)
    (hn : 0 ≤ n.toInt) (hbuf : v.toNat + n.toNat ≤ pageTable.length * PageSize)
    (hfid : 2 ≤ fid.toInt) (hf : w.files fid.toInt = some f) (hoff : 0 ≤ f.currentOffset)
    {bytes : List Byte} (hbytes : bytes = readPartial (w.content f) f.currentOffset.toNat n.toNat) :
    ∃ m', exec other SyscallRead w = .returned (({ w.setOffset fid.toInt f
        (asInt (f.currentOffset + bytes.length)) with machine := m' }).resume
          (if 0 < bytes.length then bytes.length else -2)) ∧ Runs pageTable m' ∧
      flat pageTable m' =
        overlay (flat pageTable w.machine) v.toNat (through isNul (bytes ++ [])) := by
  have hle : bytes.length ≤ n.toNat := by
    rw [hbytes, readPartial]
    exact List.length_take_le ..
  have hN := ha.runs.size_le
  have hthrough := length_through_le (p := isNul) (l := bytes)
  obtain ⟨m', e, hruns, -, hflat⟩ := exec_system2User other (v := v)
    (w := w.setOffset fid.toInt f (asInt (f.currentOffset + bytes.length))) ha.runs bytes bytes.length
    (.returns (if 0 < bytes.length then bytes.length else -2)) (Nat.le_refl _)
    (by rw [List.take_length]; omega)
  rw [List.take_length, ← List.append_nil bytes] at hflat
  refine ⟨m', ?_, hruns, hflat⟩
  have hint := toInt_eq_toNat hn
  rw [SyscallRead, exec, ha.r4, if_neg hv, exec, exec, ha.r5, ha.r6, if_neg (by omega),
    if_neg (by omega), exec_call (call_getOpenFile hfid hf), if_neg Int.one_ne_zero,
    exec_newBuffer (by omega), exec_call (call_fileRead hfid hf hoff bytes ?_),
    if_pos (Int.natCast_nonneg _)]
  · simp only [Int.natCast_pos]
    exact e
  · rw [hint, Int.toNat_natCast]
    exact hbytes

variable (other) in
theorem exec_read_file {f : OpenFile} (ha : Args pageTable w v n fid) (hv : v ≠ 0)
    (hn : 0 ≤ n.toInt) (hbuf : v.toNat + n.toNat ≤ pageTable.length * PageSize)
    (hfid : 2 ≤ fid.toInt) (hf : w.files fid.toInt = some f) (hoff : 0 ≤ f.currentOffset)
    {bytes : List Byte} (hbytes : bytes = readPartial (w.content f) f.currentOffset.toNat n.toNat) :
    ∃ m', exec other SyscallRead w = .returned (({ w.setOffset fid.toInt f
        (asInt (f.currentOffset + bytes.length)) with machine := m' }).resume
          (if 0 < bytes.length then bytes.length else -2)) ∧
      flat pageTable m' =
        overlay (flat pageTable w.machine) v.toNat (through isNul (bytes ++ [])) := by
  obtain ⟨m', e, -, hflat⟩ := exec_read_open other ha hv hn hbuf hfid hf hoff hbytes
  exact ⟨m', e, hflat⟩

/-- Both handlers refuse a buffer at 0. -/
theorem exec_read_null (ha : Args pageTable w 0 n fid) :
    exec other SyscallRead w = .returned (w.resume (-1)) := by
  rw [SyscallRead, exec, ha.r4, if_pos rfl]
  rfl

theorem exec_write_null (ha : Args pageTable w 0 n fid) :
    exec other SyscallWrite w = .returned (w.resume (-1)) := by
  rw [SyscallWrite, exec, ha.r4, if_pos rfl]
  rfl

/-- **`Read` on a file**, into a buffer inside the memory of the caller, where the position is an
`int` that is not negative: it returns, and if with a `k > 0`, it has done what its documentation
says, if and only if the position behind the bytes it reads is an `int` too, and behind a zero among
them, the buffer held the bytes of the file before. -/
theorem read_file_iff {f : OpenFile} (ha : Args pageTable w v n fid) (hn : 0 ≤ n.toInt)
    (hbuf : v.toNat + n.toNat ≤ pageTable.length * PageSize) (hfid : 2 ≤ fid.toInt)
    (hf : w.files fid.toInt = some f) (hoff : 0 ≤ f.currentOffset)
    (hint : f.currentOffset < 2 ^ 31) {bytes : List Byte}
    (hbytes : bytes = readPartial (w.content f) f.currentOffset.toNat n.toNat) :
    (∃ w', exec other SyscallRead w = .returned w' ∧ ∀ k : Nat, 0 < k →
      (w'.machine.registers 2).toInt = k → FileRead pageTable w v fid f k w') ↔
    (v = 0 ∨ (f.currentOffset + bytes.length < 2 ^ 31 ∧
      ∀ i j, j < i → i < bytes.length → bytes[j]? = some 0 →
        (flat pageTable w.machine)[v.toNat + i]? = bytes[i]?)) := by
  by_cases hv : v = 0
  · subst hv
    refine iff_of_true ⟨_, exec_read_null ha, fun k hk hr2 => ?_⟩ (.inl rfl)
    rw [resume_toInt _ (by decide) (by decide)] at hr2
    omega
  rw [or_iff_right hv]
  obtain ⟨m', e, hflat⟩ := exec_read_file other ha hv hn hbuf hfid hf hoff hbytes
  have hle : bytes.length ≤ n.toNat := by
    rw [hbytes, readPartial]
    exact List.length_take_le ..
  have hN := ha.runs.size_le
  have hcopied := overlay_matches_iff hflat (by
    have := length_through_le (p := isNul) (l := bytes ++ [])
    simp only [List.append_nil] at this ⊢
    omega)
  have hfile : ∀ i < bytes.length, bytes[i]? = (w.content f)[f.currentOffset.toNat + i]? := by
    intro i hi
    rw [hbytes, readPartial, List.getElem?_take_of_lt (by omega), List.getElem?_drop]
  rw [← hcopied]
  constructor
  · rintro ⟨w', hw', hk⟩
    rw [e] at hw'
    cases hw'
    have hr2 := resume_toInt { w.setOffset fid.toInt f (asInt (f.currentOffset + bytes.length)) with
      machine := m' } (show -2 ^ 31 ≤ if 0 < bytes.length then (bytes.length : Int) else -2 by
        split <;> omega) (by split <;> omega)
    rcases Nat.eq_zero_or_pos bytes.length with hnil | hpos
    · exact ⟨by omega, fun i hi => absurd hi (by omega)⟩
    have hdone := hk bytes.length hpos (hr2.trans (if_pos (by omega)))
    refine ⟨?_, fun i hi => (hdone.bytes i hi).trans (hfile i hi).symm⟩
    -- the new position is an `int`, and the one that is promised
    have hnew := (w.files_setOffset_self fid.toInt f _).symm.trans hdone.offset
    have hsum : asInt (f.currentOffset + bytes.length) = f.currentOffset + bytes.length :=
      congrArg OpenFile.currentOffset (Option.some.inj hnew)
    have hlt := asInt_lt (f.currentOffset + bytes.length)
    omega
  · rintro ⟨hlt, h⟩
    refine ⟨_, e, fun k hk hr2 => ?_⟩
    rw [resume_toInt _ (by split <;> omega) (by split <;> omega)] at hr2
    obtain rfl : k = bytes.length := by
      split at hr2 <;> omega
    refine ⟨fun i hi => ?_, ?_, fun x hx => ?_⟩
    · rw [← hfile i hi]
      exact h i hi
    · refine (w.files_setOffset_self fid.toInt f _).trans ?_
      rw [asInt_eq (by omega) hlt]
    · have := length_through_le (p := isNul) (l := bytes)
      show (flat pageTable m')[x]? = _
      rw [hflat, List.append_nil, getElem?_overlay, if_neg (by omega)]

/-- Of the bytes `A`, 0, `B` of a file the last one is not copied, and three are reported. -/
theorem read_file_misses : ∃ w',
    exec noOther SyscallRead (callWith 16 3 2 [0x41, 0, 0x42] []) = .returned w' ∧
    (w'.machine.registers 2).toInt = 3 ∧
    ¬ FileRead twoPages (callWith 16 3 2 [0x41, 0, 0x42] []) 16 2 ⟨3, 0, 0⟩ 3 w' := by
  refine ⟨_, rfl, by decide +kernel, fun h => ?_⟩
  exact absurd (h.bytes 2 (by decide)) (by decide +kernel)

/-- A zero at the end does not matter. -/
theorem read_file_string : ∃ w',
    exec noOther SyscallRead (callWith 16 3 2 [0x41, 0x42, 0] []) = .returned w' ∧
    ∀ k : Nat, 0 < k → (w'.machine.registers 2).toInt = k →
      FileRead twoPages (callWith 16 3 2 [0x41, 0x42, 0] []) 16 2 ⟨3, 0, 0⟩ k w' := by
  refine (read_file_iff (callWith_args 16 3 2 [0x41, 0x42, 0] []) (by decide) (by decide)
    (by decide) rfl (by decide) (by decide) rfl).mpr (.inr ⟨by decide, fun i j hj hi hl => ?_⟩)
  have hi : i < 3 := hi
  exact absurd hl ((by decide : ∀ j < 2, ([0x41, 0x42, 0] : List Byte)[j]? ≠ some 0) j (by omega))

/-! ### `Write` -/

/-- What the documentation says of a `Write` of `n` bytes to a file: they are in the file, and the
rest of it is unchanged. -/
structure FileWrite (pageTable : List TranslationEntry) (w : World) (v : Word) (n : Nat)
    (f : OpenFile) (w' : World) : Prop where
  bytes : ∀ i < n, (w'.content f)[f.currentOffset.toNat + i]? =
    (flat pageTable w.machine)[v.toNat + i]?
  others : ∀ x, x < (w.content f).length →
    x < f.currentOffset.toNat ∨ f.currentOffset.toNat + n ≤ x →
    (w'.content f)[x]? = (w.content f)[x]?

/-- The bytes of the caller's buffer. -/
def userBytes (pageTable : List TranslationEntry) (w : World) (v : Word) (n : Nat) : List Byte :=
  ((flat pageTable w.machine).drop v.toNat).take n

/-- What `User2System` makes of them: zeros from the first zero on. -/
def padded (bytes : List Byte) : List Byte :=
  through isNul bytes ++ List.replicate (bytes.length - (through isNul bytes).length) 0

theorem length_padded (bytes : List Byte) : (padded bytes).length = bytes.length := by
  have := length_through_le (p := isNul) (l := bytes)
  rw [padded, List.length_append, List.length_replicate]
  omega

theorem padded_eq_iff (bytes : List Byte) : padded bytes = bytes ↔
    ∀ i j, j < i → i < bytes.length → bytes[j]? = some 0 → bytes[i]? = some 0 :=
  through_replicate_iff fun _ => isNul_iff

theorem length_userBytes {k : Nat} (hbuf : v.toNat + k ≤ pageTable.length * PageSize) :
    (userBytes pageTable w v k).length = k := by
  rw [userBytes, List.length_take, List.length_drop, length_flat]
  omega

theorem take_kernelBuf {k : Nat} (hbuf : v.toNat + k ≤ pageTable.length * PageSize) :
    (kernelBuf pageTable w.machine v k).length = k + 1 ∧
    (kernelBuf pageTable w.machine v k).take k = padded (userBytes pageTable w v k) := by
  have hlen := length_userBytes (w := w) hbuf
  have hle := length_through_le (p := isNul) (l := userBytes pageTable w v k)
  have hcopy : toCopy pageTable w.machine v k 0 = through isNul (userBytes pageTable w v k) := rfl
  rw [hlen] at hle
  rw [kernelBuf, hcopy]
  constructor
  · rw [List.length_append, List.length_replicate]
    omega
  · rw [List.take_append, List.take_of_length_le hle, List.take_replicate, padded, hlen,
      Nat.min_eq_left (by omega)]

variable (other) in
/-- **How `Write` ends**, on a file that is open for writing, and what it leaves of the machine. -/
theorem exec_write_open {f : OpenFile} (ha : Args pageTable w v n fid) (hv : v ≠ 0)
    (hn : 0 ≤ n.toInt) (hbuf : v.toNat + n.toNat ≤ pageTable.length * PageSize)
    (hfid : 2 ≤ fid.toInt) (hf : w.files fid.toInt = some f) (htype : f.type = 0)
    (hoff : 0 ≤ f.currentOffset) :
    ∃ m', exec other SyscallWrite w = .returned ((({ w with machine := m' }.setContent f
        (writeFile (w.content f) f.currentOffset.toNat
          (padded (userBytes pageTable w v n.toNat)))).setOffset fid.toInt f
            (asInt (f.currentOffset + n.toInt))).resume n.toInt) ∧
      Runs pageTable m' ∧ flat pageTable m' = flat pageTable w.machine := by
  have hint := toInt_eq_toNat hn
  have hN := ha.runs.size_le
  obtain ⟨hlen, htake⟩ := take_kernelBuf (w := w) hbuf
  obtain ⟨m', e, hruns, -, hflat⟩ := exec_user2System other ha.runs n.toNat (fun kernelBuf =>
    .call (.fileWrite fid.toInt kernelBuf n.toInt) fun r =>
      .returns (if r.value = n.toInt then n.toInt else -1)) hbuf
  rw [exec_call (call_fileWrite hfid (w := { w with machine := m' }) hf htype hoff
    (by rw [hlen]; omega)), if_pos rfl, exec_returns] at e
  have hexec : exec other SyscallWrite w = exec other (.user2System v n.toNat fun kernelBuf =>
      .call (.fileWrite fid.toInt kernelBuf n.toInt) fun r =>
        .returns (if r.value = n.toInt then n.toInt else -1)) w := by
    rw [SyscallWrite, exec, ha.r4, if_neg hv, exec, exec, ha.r5, ha.r6, if_neg (by omega),
      if_neg (by omega), exec_call (call_getOpenFile hfid hf), if_neg Int.one_ne_zero]
  refine ⟨m', hexec.trans ?_, hruns, hflat⟩
  rw [← htake, e, hint, Int.toNat_natCast]

variable (other) in
theorem exec_write_file {f : OpenFile} (ha : Args pageTable w v n fid) (hv : v ≠ 0)
    (hn : 0 ≤ n.toInt) (hbuf : v.toNat + n.toNat ≤ pageTable.length * PageSize)
    (hfid : 2 ≤ fid.toInt) (hf : w.files fid.toInt = some f) (htype : f.type = 0)
    (hoff : 0 ≤ f.currentOffset) :
    ∃ w', exec other SyscallWrite w = .returned w' ∧ (w'.machine.registers 2).toInt = n.toInt ∧
      w'.content f = writeFile (w.content f) f.currentOffset.toNat
        (padded (userBytes pageTable w v n.toNat)) := by
  have hint := toInt_eq_toNat hn
  have hN := ha.runs.size_le
  obtain ⟨m', e, -⟩ := exec_write_open other ha hv hn hbuf hfid hf htype hoff
  exact ⟨_, e, resume_toInt _ (by omega) (by omega), Function.update_self ..⟩

variable (other) in
/-- **How `Write` ends**, on the console, and what it leaves of the machine. -/
theorem exec_write_sent (ha : Args pageTable w v n 1) (hv : v ≠ 0) (hn : 0 ≤ n.toInt)
    (hbuf : v.toNat + n.toNat ≤ pageTable.length * PageSize) :
    ∃ m', exec other SyscallWrite w = .returned ({ w with
        machine := m', sent := w.sent ++ padded (userBytes pageTable w v n.toNat) }.resume n.toInt) ∧
      Runs pageTable m' ∧ flat pageTable m' = flat pageTable w.machine := by
  have hint := toInt_eq_toNat hn
  obtain ⟨hlen, htake⟩ := take_kernelBuf (w := w) hbuf
  obtain ⟨m', e, hruns, -, hflat⟩ := exec_user2System other ha.runs n.toNat (fun kernelBuf =>
    .call (.write kernelBuf n.toInt) fun r => .returns r.value) hbuf
  rw [exec_call (call_write (by rw [hlen]; omega)), exec_returns] at e
  have h1 : (1 : Word).toInt = 1 := by decide
  have hexec : exec other SyscallWrite w = exec other (.user2System v n.toNat fun kernelBuf =>
      .call (.write kernelBuf n.toInt) fun r => .returns r.value) w := by
    rw [SyscallWrite, exec, ha.r4, if_neg hv, exec, exec, ha.r5, ha.r6, if_neg (by omega), if_pos h1]
  refine ⟨m', hexec.trans ?_, hruns, hflat⟩
  rw [← htake, e, hint, Int.toNat_natCast]

variable (other) in
theorem exec_write_console (ha : Args pageTable w v n 1) (hv : v ≠ 0) (hn : 0 ≤ n.toInt)
    (hbuf : v.toNat + n.toNat ≤ pageTable.length * PageSize) :
    ∃ w', exec other SyscallWrite w = .returned w' ∧
      w'.sent = w.sent ++ padded (userBytes pageTable w v n.toNat) := by
  obtain ⟨m', e, -⟩ := exec_write_sent other ha hv hn hbuf
  exact ⟨_, e, rfl⟩

section
variable {bytes : List Byte}

theorem write_file_iff (ha : Args pageTable w v n fid) (hn : 0 ≤ n.toInt)
    (hbuf : v.toNat + n.toNat ≤ pageTable.length * PageSize)
    (hbytes : bytes = userBytes pageTable w v n.toNat) {f : OpenFile} (hfid : 2 ≤ fid.toInt)
    (hf : w.files fid.toInt = some f) (htype : f.type = 0) (hoff : 0 ≤ f.currentOffset) :
    (∃ w', exec other SyscallWrite w = .returned w' ∧
      ((w'.machine.registers 2).toInt = n.toInt → FileWrite pageTable w v n.toNat f w')) ↔
    (v = 0 ∨ padded bytes = bytes) := by
  have hlen : bytes.length = n.toNat := by rw [hbytes, length_userBytes hbuf]
  have hmem : ∀ i < n.toNat, (flat pageTable w.machine)[v.toNat + i]? = bytes[i]? := by
    intro i hi
    rw [hbytes, userBytes, List.getElem?_take_of_lt hi, List.getElem?_drop]
  by_cases hv : v = 0
  · subst hv
    refine iff_of_true ⟨_, exec_write_null ha, fun hr2 => ?_⟩ (.inl rfl)
    rw [resume_toInt _ (by decide) (by decide)] at hr2
    omega
  rw [or_iff_right hv]
  obtain ⟨w', e, hr2, hcontent⟩ := exec_write_file other ha hv hn hbuf hfid hf htype hoff
  rw [← hbytes] at hcontent
  have hinside : ∀ i < n.toNat, (w'.content f)[f.currentOffset.toNat + i]? = (padded bytes)[i]? := by
    intro i hi
    rw [hcontent, getElem?_writeFile_inside (by rw [length_padded, hlen]; exact hi)]
  constructor
  · rintro ⟨w'', hw'', hdone⟩
    rw [e] at hw''
    cases hw''
    apply List.ext_getElem?
    intro i
    by_cases hi : i < n.toNat
    · rw [← hinside i hi, (hdone hr2).bytes i hi, hmem i hi]
    · rw [List.getElem?_eq_none (by rw [length_padded]; omega), List.getElem?_eq_none (by omega)]
  · intro hpad
    refine ⟨w', e, fun _ => ⟨fun i hi => ?_, fun x hx hout => ?_⟩⟩
    · rw [hinside i hi, hpad, hmem i hi]
    · rw [hcontent, getElem?_writeFile_outside hx (by rw [length_padded, hlen]; exact hout)]

theorem write_console_iff (ha : Args pageTable w v n 1) (hn : 0 ≤ n.toInt)
    (hbuf : v.toNat + n.toNat ≤ pageTable.length * PageSize)
    (hbytes : bytes = userBytes pageTable w v n.toNat) :
    (∃ w', exec other SyscallWrite w = .returned w' ∧ w'.sent = w.sent ++ bytes) ↔
    ((v = 0 → n = 0) ∧ padded bytes = bytes) := by
  by_cases hv : v = 0
  · subst hv
    have hlen : bytes.length = n.toNat := by rw [hbytes, length_userBytes hbuf]
    constructor
    · rintro ⟨w', hw', hsent⟩
      rw [exec_write_null ha] at hw'
      cases hw'
      have hnil : bytes = [] := List.self_eq_append_right.mp hsent
      subst hnil
      exact ⟨fun _ => BitVec.eq_of_toNat_eq hlen.symm, rfl⟩
    · rintro ⟨h0, -⟩
      obtain rfl := h0 rfl
      exact ⟨_, exec_write_null ha, by rw [List.eq_nil_of_length_eq_zero hlen, List.append_nil]; rfl⟩
  · obtain ⟨w', e, hsent⟩ := exec_write_console other ha hv hn hbuf
    rw [← hbytes] at hsent
    constructor
    · rintro ⟨w'', hw'', hdone⟩
      rw [e] at hw''
      cases hw''
      rw [hsent] at hdone
      exact ⟨fun h => absurd h hv, List.append_cancel_left hdone⟩
    · rintro ⟨-, hpad⟩
      exact ⟨w', e, by rw [hsent, hpad]⟩

/-- **`Write`**, from a buffer inside the memory of the caller.  To a file that is open for writing:
it returns, and if with `n`, it has done what its documentation says, if and only if behind a zero
among the bytes of the buffer there are only zeros.  To the console: exactly the bytes of the buffer
are sent if and only if the same holds.  A buffer at 0 is refused. -/
theorem write_iff (ha : Args pageTable w v n fid) (hn : 0 ≤ n.toInt)
    (hbuf : v.toNat + n.toNat ≤ pageTable.length * PageSize)
    (hbytes : bytes = userBytes pageTable w v n.toNat) :
    (∀ f, 2 ≤ fid.toInt → w.files fid.toInt = some f → f.type = 0 → 0 ≤ f.currentOffset →
      ((∃ w', exec other SyscallWrite w = .returned w' ∧
        ((w'.machine.registers 2).toInt = n.toInt → FileWrite pageTable w v n.toNat f w')) ↔
      (v = 0 ∨ ∀ i j, j < i → i < bytes.length → bytes[j]? = some 0 → bytes[i]? = some 0))) ∧
    (fid = 1 →
      ((∃ w', exec other SyscallWrite w = .returned w' ∧ w'.sent = w.sent ++ bytes) ↔
      ((v = 0 → n = 0) ∧
        ∀ i j, j < i → i < bytes.length → bytes[j]? = some 0 → bytes[i]? = some 0))) := by
  rw [← padded_eq_iff]
  refine ⟨fun f hfid hf htype hoff => write_file_iff ha hn hbuf hbytes hfid hf htype hoff, ?_⟩
  rintro rfl
  exact write_console_iff ha hn hbuf hbytes

end

/-- A process with a zero at the address 17 that writes from 16 on. -/
def writesZero (n fid : Word) : World :=
  { callWith 16 n fid [] [] with
    machine := { (callWith 16 n fid [] []).machine with
      mainMemory := fun a => if a = 5 * PageSize + 17 then 0 else 0x41 } }

theorem writesZero_args (n fid : Word) : Args twoPages (writesZero n fid) 16 n fid :=
  ⟨⟨twoPages, ⟨rfl, rfl, by decide, by decide, by decide, by decide⟩, rfl⟩, rfl, rfl, rfl⟩

/-- `A`, 0, `A` is written as `A`, 0, 0, to a file as to the console. -/
theorem write_misses :
    (∃ w', exec noOther SyscallWrite (writesZero 3 2) = .returned w' ∧
      (w'.machine.registers 2).toInt = 3 ∧ w'.contents 0 = [0x41, 0, 0] ∧
      ¬ FileWrite twoPages (writesZero 3 2) 16 3 ⟨3, 0, 0⟩ w') ∧
    ∃ w', exec noOther SyscallWrite (writesZero 3 1) = .returned w' ∧
      w'.sent = [0x41, 0, 0] ∧ userBytes twoPages (writesZero 3 1) 16 3 = [0x41, 0, 0x41] := by
  refine ⟨⟨_, rfl, by decide +kernel, by decide +kernel, fun h => ?_⟩, _, rfl, by decide +kernel,
    by decide +kernel⟩
  exact absurd (h.bytes 2 (by decide)) (by decide +kernel)

/-- A zero at the end is written. -/
theorem write_iff_last :
    (∃ w', exec noOther SyscallWrite (writesZero 2 2) = .returned w' ∧
      ((w'.machine.registers 2).toInt = (2 : Word).toInt →
        FileWrite twoPages (writesZero 2 2) 16 2 ⟨3, 0, 0⟩ w')) ∧
    ∃ w', exec noOther SyscallWrite (writesZero 2 1) = .returned w' ∧ w'.sent = [] ++ [0x41, 0] := by
  have hlast : ∀ i j, j < i → i < ([0x41, 0] : List Byte).length →
      ([0x41, 0] : List Byte)[j]? = some 0 → ([0x41, 0] : List Byte)[i]? = some 0 := by
    intro i j hj hi hl
    have hj : j = 0 := by
      have : i < 2 := hi
      omega
    subst hj
    cases hl
  refine ⟨((write_iff (writesZero_args 2 2) (by decide) (by decide)
    (show [0x41, 0] = _ by decide +kernel)).1 ⟨3, 0, 0⟩ (by decide) rfl rfl (by decide)).mpr
    (.inr hlast), ?_⟩
  exact ((write_iff (writesZero_args 2 1) (by decide) (by decide)
    (show [0x41, 0] = _ by decide +kernel)).2 rfl).mpr ⟨fun h => absurd h (by decide), hlast⟩

/-! ### `Read` on the console -/

/-- What is said of a `Read` of `n` characters from the console: it stays in the buffer, and when it
returns `k`, the first `k` bytes of it are the `k` characters it has taken. -/
structure ConsoleRead (pageTable : List TranslationEntry) (w : World) (v : Word) (n : Nat)
    (w' : World) : Prop where
  inside : ∀ x, x < v.toNat ∨ v.toNat + n ≤ x →
    (flat pageTable w'.machine)[x]? = (flat pageTable w.machine)[x]?
  bytes : ∀ k : Nat, (w'.machine.registers 2).toInt = k → ∃ dst, Consumed w.stream w'.stream dst ∧
    dst.length = k ∧ ∀ i < k, (flat pageTable w'.machine)[v.toNat + i]? = dst[i]?

/-- The ways `Read` on the console ends: it waits; the first character is Ctrl-A; or it has taken the
characters `dst`. -/
inductive ConsoleEnds (pageTable : List TranslationEntry) (w : World) (v : Word) (n : Nat)
    (dst : List Byte) : Outcome → Prop where
  | blocks (h : ¬ Suffices n w.stream) : ConsoleEnds pageTable w v n dst (.blocked w)
  | ctrlA {rest : List Byte} (h : dst = []) :
      ConsoleEnds pageTable w v n dst (.returned ({ w with stream := rest }.resume (-2)))
  | taken {rest : List Byte} {m' : Machine} (h : Suffices n w.stream)
      (hdst : Consumed w.stream rest dst)
      (hflat : flat pageTable m' =
        overlay (flat pageTable w.machine) v.toNat (through isNul (dst ++ [0]))) :
      ConsoleEnds pageTable w v n dst
        (.returned ({ w with stream := rest, machine := m' }.resume dst.length))

theorem call_read {numBytes : Int} {r : Answer} {rest : List Byte}
    (h : consoleRead numBytes w.ch w.stream = some (r, rest)) :
    w.call other (.read numBytes) = .returns r { w with stream := rest } := by
  rw [World.call, h]

theorem call_read_blocks {numBytes : Int} (h : consoleRead numBytes w.ch w.stream = none) :
    w.call other (.read numBytes) = .blocks := by
  rw [World.call, h]

variable (other) in
/-- The characters taken go to the user, with a terminator. -/
theorem exec_terminated {dst : List Byte} (h : Runs pageTable w.machine)
    (hfit : v.toNat + (through isNul (dst ++ [0])).length ≤ pageTable.length * PageSize)
    (value : Int) :
    ∃ m', exec other (.system2User v (dst.length + 1) (dst ++ [0]) (.returns value)) w =
        .returned ({ w with machine := m' }.resume value) ∧
      flat pageTable m' =
        overlay (flat pageTable w.machine) v.toNat (through isNul (dst ++ [0])) := by
  have hlen : (dst ++ [0]).length = dst.length + 1 := by
    rw [List.length_append, List.length_singleton]
  have htake : (dst ++ [0]).take (dst.length + 1) = dst ++ [0] :=
    List.take_of_length_le (Nat.le_of_eq hlen)
  obtain ⟨m', e, -, -, hflat⟩ := exec_system2User other (v := v) h (dst ++ [0]) (dst.length + 1)
    (.returns value) (Nat.le_of_eq hlen.symm)
    (by rw [htake]; exact hfit)
  rw [htake] at hflat
  exact ⟨m', e, hflat⟩

/-- The handler, behind the checks of its arguments. -/
def readConsole (strAddr : Word) (charCount : Int) : Prog :=
  .call (.read charCount) fun r =>
  if r.value = -1 then .returns (-2)
  else .system2User strAddr (r.value + 1) (r.bytes.take r.value.toNat ++ [0]) (.returns r.value)

theorem exec_readConsole (ha : Args pageTable w v n 0) (hv : v ≠ 0) (hn : 0 ≤ n.toInt)
    (hN : n.toNat ≤ 2 ^ 14) : exec other SyscallRead w = exec other (readConsole v n.toInt) w := by
  have h0 : (0 : Word).toInt = 0 := by decide
  rw [SyscallRead, exec, ha.r4, if_neg hv, exec, exec, ha.r5, ha.r6, if_neg (by omega), if_pos h0,
    exec_newBuffer hN, readConsole]

variable (other) in
theorem exec_readConsole_taken {numBytes : Int} {r : Answer} {rest : List Byte} (dst : List Byte)
    (h : Runs pageTable w.machine) (hread : consoleRead numBytes w.ch w.stream = some (r, rest))
    (hvalue : r.value = dst.length) (hbytes : r.bytes.take dst.length = dst)
    (hfit : v.toNat + dst.length < pageTable.length * PageSize) :
    ∃ m', exec other (readConsole v numBytes) w =
        .returned ({ w with stream := rest, machine := m' }.resume dst.length) ∧
      flat pageTable m' =
        overlay (flat pageTable w.machine) v.toNat (through isNul (dst ++ [0])) := by
  have hthrough := length_through_le (p := isNul) (l := dst ++ [0])
  rw [List.length_append, List.length_singleton] at hthrough
  rw [readConsole, exec_call (call_read hread), if_neg (by omega), hvalue, Int.toNat_natCast, hbytes]
  exact exec_terminated other (w := { w with stream := rest }) h (by omega) _

variable (other) in
/-- **How `Read` on the console ends.** -/
theorem exec_read_console (ha : Args pageTable w v n 0) (hv : v ≠ 0) (hn : 1 ≤ n.toInt)
    (hbuf : v.toNat + n.toNat < pageTable.length * PageSize) :
    ConsoleEnds pageTable w v n.toNat ((line w.stream).take n.toNat)
      (exec other SyscallRead w) := by
  have hint := toInt_eq_toNat (n := n) (by omega)
  have hN := ha.runs.size_le
  rw [exec_readConsole ha hv (by omega) (by omega), hint]
  have hends := consoleRead_ends w.stream w.ch (n := n.toNat) (by omega)
  generalize hread : consoleRead (n.toNat : Int) w.ch w.stream = o at hends
  cases hends with
  | blocks hline htext =>
      rw [readConsole, exec_call_blocks (call_read_blocks hread)]
      exact .blocks (by unfold Suffices; rw [not_or, not_not]; exact ⟨by omega, htext⟩)
  | @full rest hline hrest =>
      have hlen : ((line w.stream).take n.toNat).length = n.toNat := List.length_take_of_le hline
      obtain ⟨m', e, hflat⟩ := exec_readConsole_taken other (v := v) ((line w.stream).take n.toNat)
        ha.runs hread (by rw [hlen]) (List.take_length) (by omega)
      rw [e]
      exact .taken (.inl hline) (.full hline hrest) hflat
  | @line c rest hline hc htext =>
      have hdst : (line w.stream).take n.toNat = line w.stream :=
        List.take_of_length_le (Nat.le_of_lt hline)
      rw [hdst]
      by_cases hA : c = 0x01 ∧ line w.stream = []
      · rw [readConsole, exec_call (call_read hread), if_pos (if_pos hA)]
        exact .ctrlA hA.2
      · obtain ⟨m', e, hflat⟩ := exec_readConsole_taken other (v := v) (line w.stream) ha.runs hread
          (if_neg hA) (List.take_left) (by omega)
        rw [e]
        exact .taken (.inr (text_ne_line htext)) (.line hc htext) hflat

/-- When a string of at most `k` characters with its terminator stays in `k` bytes. -/
theorem overlay_inside_iff {dst : List Byte} {m m' : Machine} {k : Nat} (hle : dst.length ≤ k)
    (hbuf : v.toNat + k < pageTable.length * PageSize)
    (hflat : flat pageTable m' =
      overlay (flat pageTable m) v.toNat (through isNul (dst ++ [0]))) :
    (∀ x, x < v.toNat ∨ v.toNat + k ≤ x →
      (flat pageTable m')[x]? = (flat pageTable m)[x]?) ↔
    (dst.length < k ∨ 0 ∈ dst ∨ (flat pageTable m)[v.toNat + k]? = some 0) := by
  have hthrough := length_through_le (p := isNul) (l := dst ++ [0])
  rw [List.length_append, List.length_singleton] at hthrough
  have hlen : (flat pageTable m).length = pageTable.length * PageSize := length_flat
  by_cases hshort : dst.length < k ∨ 0 ∈ dst
  · -- the terminator lies in the buffer, or is not copied
    have hin : (through isNul (dst ++ [0])).length ≤ k := by
      rcases hshort with h | h
      · omega
      · have := length_through_of_mem (t := [0]) h
        omega
    refine iff_of_true (fun x hx => ?_) (hshort.elim .inl fun h => .inr (.inl h))
    rw [hflat, getElem?_overlay, if_neg (by omega)]
  · obtain ⟨hlong, hzero⟩ := not_or.mp hshort
    obtain rfl : dst.length = k := by omega
    have hall : through isNul (dst ++ [0]) = dst ++ [0] := through_string hzero []
    have hlast : (flat pageTable m')[v.toNat + dst.length]? = some 0 := by
      rw [hflat, hall, getElem?_overlay, Nat.add_sub_cancel_left, List.length_append,
        List.length_singleton, if_pos (by omega), List.getElem?_concat_length]
    rw [or_iff_right hlong, or_iff_right hzero]
    constructor
    · intro h
      rw [← h (v.toNat + dst.length) (.inr (Nat.le_refl _)), hlast]
    · intro h x hx
      by_cases he : x = v.toNat + dst.length
      · rw [he, hlast, h]
      · rw [hflat, hall, getElem?_overlay, List.length_append, List.length_singleton,
          if_neg (by omega)]

/-- **`Read` on the console** stays in the caller's buffer and leaves in it the characters it takes,
if and only if, unless it waits: the line is shorter than the request, or has a zero in the part that
is asked for, or there was a zero behind the buffer; and behind a zero in that part, the buffer held
the characters before. -/
theorem read_console_iff (ha : Args pageTable w v n 0) (hv : v ≠ 0) (hn : 1 ≤ n.toInt)
    (hbuf : v.toNat + n.toNat < pageTable.length * PageSize) {dst : List Byte}
    (hdst : dst = (line w.stream).take n.toNat) :
    (exec other SyscallRead w).Finally w (ConsoleRead pageTable w v n.toNat) ↔
    (Suffices n.toNat w.stream →
      (dst.length < n.toNat ∨ 0 ∈ dst ∨
        (flat pageTable w.machine)[v.toNat + n.toNat]? = some 0) ∧
      ∀ i j, j < i → i < dst.length → dst[j]? = some 0 →
        (flat pageTable w.machine)[v.toNat + i]? = dst[i]?) := by
  have hint := toInt_eq_toNat (n := n) (by omega)
  have hends := exec_read_console other ha hv hn hbuf
  rw [← hdst] at hends
  have hle : dst.length ≤ n.toNat := by
    rw [hdst]
    exact List.length_take_le ..
  generalize exec other SyscallRead w = o at hends
  cases hends with
  | blocks h => exact iff_of_true (.inl rfl) fun hs => absurd hs h
  | ctrlA h =>
      subst h
      rw [finally_returned]
      refine iff_of_true ⟨fun _ _ => rfl, fun k hk => ?_⟩
        fun _ => ⟨.inl (by rw [List.length_nil]; omega), fun i j _ hi => absurd hi (Nat.not_lt_zero i)⟩
      rw [resume_toInt _ (by decide) (by decide)] at hk
      omega
  | @taken rest m' h hcons hflat =>
      have hN := ha.runs.size_le
      have hthrough := length_through_le (p := isNul) (l := dst ++ [0])
      rw [List.length_append, List.length_singleton] at hthrough
      have hr2 := resume_toInt { w with stream := rest, machine := m' }
        (show -2 ^ 31 ≤ (dst.length : Int) by omega) (by omega)
      rw [finally_returned, imp_iff_right h, ← overlay_inside_iff hle hbuf hflat,
        ← overlay_matches_iff hflat (by omega)]
      constructor
      · intro hdone
        refine ⟨hdone.inside, ?_⟩
        obtain ⟨dst', hcons', -, hbytes⟩ := hdone.bytes dst.length hr2
        rw [hcons'.unique hcons] at hbytes
        exact hbytes
      · rintro ⟨hinside, hbytes⟩
        refine ⟨hinside, fun k hk => ?_⟩
        rw [hr2] at hk
        obtain rfl : dst.length = k := by omega
        exact ⟨dst, hcons, rfl, hbytes⟩

/-- A line that fills the request: the terminator goes behind the buffer. -/
theorem read_console_leaves : ∃ w',
    exec noOther SyscallRead (callWith 16 2 0 [] [0x61, 0x62, 0x0A]) = .returned w' ∧
    (w'.machine.registers 2).toInt = 2 ∧
    (flat twoPages (callWith 16 2 0 [] [0x61, 0x62, 0x0A]).machine)[18]? = some 7 ∧
    (flat twoPages w'.machine)[18]? = some 0 ∧
    ¬ (exec noOther SyscallRead (callWith 16 2 0 [] [0x61, 0x62, 0x0A])).Finally
      (callWith 16 2 0 [] [0x61, 0x62, 0x0A])
      (ConsoleRead twoPages (callWith 16 2 0 [] [0x61, 0x62, 0x0A]) 16 2) := by
  refine ⟨_, rfl, by decide +kernel, by decide +kernel, by decide +kernel, ?_⟩
  rintro (h | ⟨w', h, hdone⟩)
  · cases h
  · cases h
    exact absurd (hdone.inside 18 (by decide)) (by decide +kernel)

/-- A line that is shorter. -/
theorem read_console_short :
    (exec noOther SyscallRead (callWith 16 3 0 [] [0x61, 0x62, 0x0A])).Finally
      (callWith 16 3 0 [] [0x61, 0x62, 0x0A])
      (ConsoleRead twoPages (callWith 16 3 0 [] [0x61, 0x62, 0x0A]) 16 3) := by
  refine (read_console_iff (callWith_args 16 3 0 [] [0x61, 0x62, 0x0A]) (by decide) (by decide)
    (by decide) (show [0x61, 0x62] = _ by decide)).mpr fun _ => ⟨.inl (by decide), ?_⟩
  intro i j hj hi hl
  have hi : i < 2 := hi
  exact absurd hl ((by decide : ∀ j < 1, ([0x61, 0x62] : List Byte)[j]? ≠ some 0) j (by omega))

end

end Nachos.Syscall
