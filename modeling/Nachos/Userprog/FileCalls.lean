import Mathlib.Algebra.Ring.Int.Defs
import Nachos.Filesys.FileTable
import Nachos.Userprog.Exception

/-!
# Userprog — FileCalls

A system call from its trap to its end, over any state `κ` of the kernel: `serve` runs a handler of
`Exception` on a machine, where `op` says what an operation of the kernel answers and leaves behind,
or where it stops.

Here the operations are those of the stub of the file system (filesys/filesys.h) over the files of
the host (machine/sysdep.cc), for every answer of the host's `open`.  `OpenForReadWrite` hands a
failure on, and `Open` reports it; `OpenForWrite` asserts that there is none, and so the branch of
`Create` that reports one is never taken.  `CreateFile` and `Open` report what has happened exactly
when the host opens the file for `CreateFile` (`fileCalls_report_iff`).
-/

namespace Nachos.Syscall
open Lib Filesys

/-! ### Serving a system call -/

/-- How a handler without loops ends. -/
inductive Ending (κ : Type) where
  | returned (m : Machine) (s : κ)
  /-- A copy comes to an address outside the memory of the process: the kernel halts the machine. -/
  | raised (which : ExceptionType) (m : Machine) (s : κ)
  | halted (m : Machine) (s : κ)
  | stopped (why : Stop)
  | jumped (l : Label)

/-- A handler, on the machine of its process and the state of the kernel. -/
def serve {κ : Type} (op : Call → κ → Except Stop (Answer × κ)) : Prog → Machine → κ → Ending κ
  | .ret, m, s => .returned m s
  | .readRegister num k, m, s => serve op (k (m.registers num)) m s
  | .writeRegister num value k, m, s => serve op k (m.setRegister num value) s
  | .adjustPCRegs k, m, s => serve op k m.adjustPCRegs s
  | .user2System virtAddr limit k, m, s =>
      match Machine.user2System virtAddr limit m with
      | .ok bytes m => serve op (k bytes) m s
      | .raised which m => .raised which m s
      | .aborted => .stopped .assertFails
  | .system2User virtAddr len buffer k, m, s =>
      match Machine.system2User virtAddr len (fun i => buffer.getD i 0) m with
      | .ok _ m => serve op k m s
      | .raised which m => .raised which m s
      | .aborted => .stopped .assertFails
  | .call c k, m, s =>
      match op c s with
      | .ok (r, s) => serve op (k r) m s
      | .error e => .stopped e
  | .jump l, _, _ => .jumped l
  | .halt, m, s => .halted m s
  | .abort, _, _ => .stopped .assertFails

/-- The process goes on behind its system call, with `value` in `r2`. -/
def resumed (m : Machine) (value : Int) : Machine :=
  (m.setRegister 2 (BitVec.ofInt 32 value)).adjustPCRegs

section
variable {κ : Type} {op : Call → κ → Except Stop (Answer × κ)} {m m' : Machine} {s s' : κ}

theorem serve_returns (value : Int) :
    serve op (.returns value) m s = .returned (resumed m value) s := rfl

theorem serve_ite {c : Prop} [Decidable c] {p q : Prog} :
    serve op (if c then p else q) m s = if c then serve op p m s else serve op q m s := by
  split <;> rfl

theorem serve_call {c : Call} {k : Answer → Prog} {r : Answer} (h : op c s = .ok (r, s')) :
    serve op (.call c k) m s = serve op (k r) m s' := by
  rw [serve, h]

theorem serve_call_stops {c : Call} {k : Answer → Prog} {e : Stop} (h : op c s = .error e) :
    serve op (.call c k) m s = .stopped e := by
  rw [serve, h]

theorem serve_user2System {virtAddr : Word} {limit : Nat} {k : List Byte → Prog} {bytes : List Byte}
    (h : Machine.user2System virtAddr limit m = .ok bytes m') :
    serve op (.user2System virtAddr limit k) m s = serve op (k bytes) m' s := by
  rw [serve, h]

theorem serve_readRegister {num : Nat} {k : Word → Prog} :
    serve op (.readRegister num k) m s = serve op (k (m.registers num)) m s := rfl

/-- What the process finds in `r2`. -/
theorem resumed_toInt {value : Int} (h₁ : -2 ^ 31 ≤ value) (h₂ : value < 2 ^ 31) :
    ((resumed m value).registers 2).toInt = value :=
  show (BitVec.ofInt 32 value).toInt = value from BitVec.toInt_ofInt_eq_self (by decide) h₁ h₂

/-! What a handler that has returned has come through. -/

theorem returned_inv {value : Int} (h : serve op (.returns value) m s = .returned m' s') :
    s' = s ∧ (m'.registers 2).toInt = (BitVec.ofInt 32 value).toInt := by
  rw [serve_returns] at h
  cases h
  exact ⟨rfl, rfl⟩

/-- A handler that comes back with -1. -/
theorem returned_fails (h : serve op (.returns (-1)) m s = .returned m' s') :
    s' = s ∧ (m'.registers 2).toInt = -1 := returned_inv h

theorem call_inv {c : Call} {k : Answer → Prog}
    (h : serve op (.call c k) m s = .returned m' s') :
    ∃ r s₁, op c s = .ok (r, s₁) ∧ serve op (k r) m s₁ = .returned m' s' := by
  rw [serve] at h
  split at h
  · rename_i r s₁ hop
    exact ⟨r, s₁, hop, h⟩
  · cases h

theorem user2System_inv {virtAddr : Word} {limit : Nat} {k : List Byte → Prog}
    (h : serve op (.user2System virtAddr limit k) m s = .returned m' s') :
    ∃ bytes m₁, serve op (k bytes) m₁ s = .returned m' s' := by
  rw [serve] at h
  split at h
  · exact ⟨_, _, h⟩
  all_goals cases h

theorem system2User_inv {virtAddr : Word} {len : Int} {buffer : List Byte} {k : Prog}
    (h : serve op (.system2User virtAddr len buffer k) m s = .returned m' s') :
    ∃ m₁, serve op k m₁ s = .returned m' s' := by
  rw [serve] at h
  split at h
  · exact ⟨_, h⟩
  all_goals cases h

theorem newBuffer_inv {n : Word} {k : Prog}
    (h : serve op (.newBuffer n k) m s = .returned m' s') : serve op k m s = .returned m' s' := by
  rw [Prog.newBuffer, serve_ite] at h
  split at h
  · cases h
  · exact h

end

/-! ### The stub, on a host whose `open` may fail -/

/-- What the host answers to `open` with `O_CREAT|O_TRUNC` too. -/
structure FileHost extends Filesys.Host where
  openForWrite : List Byte → Int

/-- The file system; `created` is history: the names under which the host has made a file. -/
structure Files where
  table : Filesys.State
  created : List (List Byte)

/-- `OpenForWrite`. -/
def OpenForWrite (host : FileHost) (name : List Byte) : Except Stop Int :=
  let fd := host.openForWrite name
  if 0 ≤ fd then .ok fd else .error .assertFails

namespace Files

/-- `FileSystem::Create`: the descriptor that was opened is closed again. -/
def Create (s : Files) (name : List Byte) (host : FileHost) : Except Stop (Bool × Files) :=
  match OpenForWrite host name with
  | .error e => .error e
  | .ok fileDescriptor =>
      if fileDescriptor = -1 then .ok (false, s)
      -- the host gives out no descriptor that is open
      else if fileDescriptor ∈ s.table.descriptors then .error .disabled
      else .ok (true, { s with created := s.created ++ [name] })

/-- The operations `SyscallCreateFile` and `SyscallOpen` call. -/
def call (host : FileHost) : Call → Files → Except Stop (Answer × Files)
  | .create name, s =>
      match s.Create name host with
      | .ok (success, s) => .ok (⟨if success then 1 else 0, []⟩, s)
      | .error e => .error e
  | .fopen name type, s =>
      match s.table.fopen name type host.toHost with
      | .ok (fid, table) => .ok (⟨fid, []⟩, { s with table := table })
      | .error e => .error e
  | _, _ => .error .disabled

end Files

/-! ### What is reported -/

/-- The name a process passes, read from its memory. -/
def nameAt (m : Machine) : Result (List Byte) :=
  Machine.user2System (m.registers 4) (MAX_FILENAME_LEN + 1) m

/-- The host gives out neither a descriptor that is open nor memory that is in use. -/
structure FileHost.Fresh (host : FileHost) (table : Filesys.State) : Prop where
  write : ∀ name, 0 ≤ host.openForWrite name → host.openForWrite name ∉ table.descriptors
  readWrite : ∀ name, host.openForReadWrite name ≠ -1 →
    host.openForReadWrite name ∉ table.descriptors
  new : table.heap host.new = none

/-- **`CreateFile` reports what the host has done**: it returns, with 0 when the host has made a
file under the name, and with -1 when it has made none. -/
def CreateReports (host : FileHost) (m : Machine) (s : Files) : Prop :=
  ∃ m' s', serve (Files.call host) SyscallCreateFile m s = .returned m' s' ∧ s'.table = s.table ∧
    (((m'.registers 2).toInt = 0 ∧ ∃ name m₁, nameAt m = .ok name m₁ ∧
        s'.created = s.created ++ [name]) ∨
      ((m'.registers 2).toInt = -1 ∧ s'.created = s.created))

/-- **`Open` reports an id or a failure**: it returns, with an id from 2 to 9 or with -1. -/
def OpenReports (host : FileHost) (m : Machine) (s : Files) : Prop :=
  ∃ m' s', serve (Files.call host) SyscallOpen m s = .returned m' s' ∧
    ((2 ≤ (m'.registers 2).toInt ∧ (m'.registers 2).toInt ≤ 9) ∨ (m'.registers 2).toInt = -1)

section
variable {host : FileHost} {m m₁ : Machine} {s : Files} {name : List Byte}

/-- Without a name a handler returns -1. -/
theorem serve_withName_null {κ : Type} {op : Call → κ → Except Stop (Answer × κ)} {x : κ}
    {limit : Nat} {k : List Byte → Prog} (h : m.registers 4 = 0) :
    serve op (withName limit k) m x = .returned (resumed m (-1)) x := by
  rw [withName, serve_readRegister, serve_ite, if_pos h, serve_returns]

theorem serve_withName {κ : Type} {op : Call → κ → Except Stop (Answer × κ)} {x : κ}
    {k : List Byte → Prog} (h : m.registers 4 ≠ 0) (hname : nameAt m = .ok name m₁) :
    serve op (withName (MAX_FILENAME_LEN + 1) k) m x = serve op (k name) m₁ x := by
  rw [withName, serve_readRegister, serve_ite, if_neg h, serve_user2System hname]

/-- `CreateFile` with a name the host opens. -/
theorem create_opened (h : m.registers 4 ≠ 0) (hname : nameAt m = .ok name m₁)
    (hfresh : host.Fresh s.table) (hopen : 0 ≤ host.openForWrite name) :
    serve (Files.call host) SyscallCreateFile m s =
      .returned (resumed m₁ 0) { s with created := s.created ++ [name] } := by
  have hcreate : s.Create name host = .ok (true, { s with created := s.created ++ [name] }) := by
    simp only [Files.Create, OpenForWrite, if_pos hopen]
    rw [if_neg (show ¬ host.openForWrite name = -1 by omega), if_neg (hfresh.write name hopen)]
  have hcall : Files.call host (.create name) s =
      .ok (⟨1, []⟩, { s with created := s.created ++ [name] }) := by
    rw [Files.call, hcreate]
    rfl
  rw [SyscallCreateFile, serve_withName h hname, serve_call hcall, serve_returns]
  rfl

/-- `CreateFile` with a name the host does not open. -/
theorem create_refused (h : m.registers 4 ≠ 0) (hname : nameAt m = .ok name m₁)
    (hopen : ¬ 0 ≤ host.openForWrite name) :
    serve (Files.call host) SyscallCreateFile m s = .stopped .assertFails := by
  rw [SyscallCreateFile, serve_withName h hname]
  refine serve_call_stops ?_
  simp only [Files.call, Files.Create, OpenForWrite, if_neg hopen]

/-- `Open` reports whatever the host does. -/
theorem openReports {l : List (Filesys.Call × Filesys.Answer)} (ht : Trace step .new l s.table)
    (hname : m.registers 4 ≠ 0 → nameAt m = .ok name m₁) (hfresh : host.Fresh s.table) :
    OpenReports host m s := by
  by_cases h : m.registers 4 = 0
  · exact ⟨_, _, serve_withName_null h, .inr (resumed_toInt (by decide) (by decide))⟩
  cases hf : s.table.fopen name (m₁.registers 5).toInt host.toHost with
  | error e =>
      obtain ⟨-, hd, hused⟩ := fopen_error hf
      rcases hused with hused | hused
      · exact absurd hused (hfresh.readWrite name hd)
      · exact absurd hfresh.new hused
  | ok x =>
      obtain ⟨fid, table⟩ := x
      have hret : serve (Files.call host) SyscallOpen m s =
          .returned (resumed m₁ fid) { s with table := table } := by
        have hcall : Files.call host (.fopen name (m₁.registers 5).toInt) s =
            .ok (⟨fid, []⟩, { s with table := table }) := by
          rw [Files.call, hf]
        rw [SyscallOpen, serve_withName h (hname h), serve_readRegister, serve_call hcall,
          serve_returns]
      refine ⟨_, _, hret, ?_⟩
      rcases fopen_cases hf with ⟨rfl, -, -⟩ | ⟨i, rfl, hi, -⟩
      · exact .inr (resumed_toInt (by decide) (by decide))
      · have h₂ := ((trace_inv ht).of_free hi).1
        rw [resumed_toInt (by omega) (by omega)]
        exact .inl (by omega)

/-- **`CreateFile` and `Open` report what has happened exactly when the host opens the file that is
to be created**: then `CreateFile` returns 0 and the file is there, and with a null pointer -1 and
nothing is; `Open` returns an id from 2 to 9 or -1 in any case.  When the host does not open the
file, the kernel fails an `ASSERT` in `OpenForWrite`. -/
theorem fileCalls_report_iff {l : List (Filesys.Call × Filesys.Answer)}
    (ht : Trace step .new l s.table) (hname : m.registers 4 ≠ 0 → nameAt m = .ok name m₁)
    (hfresh : host.Fresh s.table) :
    (CreateReports host m s ∧ OpenReports host m s) ↔
      (m.registers 4 = 0 ∨ 0 ≤ host.openForWrite name) := by
  rw [and_iff_left (openReports ht hname hfresh)]
  constructor
  · rintro ⟨m', s', hret, -⟩
    by_contra hnot
    rw [not_or] at hnot
    rw [create_refused hnot.1 (hname hnot.1) hnot.2] at hret
    cases hret
  · intro hor
    by_cases h : m.registers 4 = 0
    · exact ⟨_, _, serve_withName_null h, rfl,
        .inr ⟨resumed_toInt (by decide) (by decide), rfl⟩⟩
    · have hopen := hor.resolve_left h
      exact ⟨_, _, create_opened h (hname h) hfresh hopen, rfl,
        .inl ⟨resumed_toInt (by decide) (by decide), name, m₁, hname h, rfl⟩⟩

end

/-- A process that calls with the name `a` in its memory; its first page is the frame 5. -/
def nameCaller : Machine where
  registers i := if i = 4 then 16 else 0
  mainMemory a := if a = 5 * PageSize + 16 then 97 else 0
  pageTable := some [⟨0, 5, true, false, false, false⟩]
  pageTableSize := 1

/-- A host that opens any file, or none for writing. -/
def hostOpening (fd : Int) : FileHost := ⟨⟨fun _ => 3, 100⟩, fun _ => fd⟩

theorem hostOpening_fresh {fd : Int} : (hostOpening fd).Fresh State.new :=
  ⟨fun _ _ => Finset.notMem_empty _, fun _ _ => Finset.notMem_empty _, rfl⟩

theorem nameCaller_name : ∃ m₁, nameAt nameCaller = .ok (97 :: List.replicate 256 0) m₁ :=
  ⟨_, rfl⟩

/-- The file is made, and can be opened. -/
theorem fileCalls_report_new :
    CreateReports (hostOpening 5) nameCaller ⟨.new, []⟩ ∧
      OpenReports (hostOpening 5) nameCaller ⟨.new, []⟩ := by
  obtain ⟨m₁, hm₁⟩ := nameCaller_name
  exact (fileCalls_report_iff (l := []) .nil (fun _ => hm₁) hostOpening_fresh).mpr
    (.inr (by decide))

/-- The host does not open the file for writing, and the kernel fails an `ASSERT`. -/
theorem create_asserts :
    (hostOpening (-1)).Fresh State.new ∧
    (∃ m₁, nameAt nameCaller = .ok (97 :: List.replicate 256 0) m₁) ∧
    serve (Files.call (hostOpening (-1))) SyscallCreateFile nameCaller ⟨.new, []⟩ =
      .stopped .assertFails ∧
    ¬ CreateReports (hostOpening (-1)) nameCaller ⟨.new, []⟩ := by
  obtain ⟨m₁, hm₁⟩ := nameCaller_name
  have hstop : serve (Files.call (hostOpening (-1))) SyscallCreateFile nameCaller ⟨.new, []⟩ =
      .stopped .assertFails := create_refused (by decide) hm₁ (by decide)
  refine ⟨hostOpening_fresh, ⟨m₁, hm₁⟩, hstop, ?_⟩
  rintro ⟨m', s', hret, -⟩
  rw [hstop] at hret
  cases hret

end Nachos.Syscall
