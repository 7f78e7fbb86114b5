import Mathlib.Data.Finset.Card
import Nachos.Filesys.FileTable
import Nachos.Threads.Spaces

/-!
# Kernel — OpenFiles

The table of open files is one for all processes, and the process table knows nothing of it:
`SyscallOpen` and `SyscallClose` (userprog/exception.cc) go to the one, `Exec`, `Join` and `Exit` to
the other.  `openIds` is history: the ids that are open, each with the process that opened it.

`ExitUpdate` gives back the PCB, the slot and the frames of a process, and not its ids.  So the table
holds the ids of the processes that are alive exactly as long as no process comes to the end of its
`ExitUpdate` with an id still open (`openIds_ofLive`).
-/

namespace Nachos.Proc

/-- A process, from its `Fork` to its `Finish`. -/
def PC.alive : PC → Bool
  | unborn | created | done _ | gone => false
  | _ => true

namespace State

/-- `ExitRelease` makes no `V`: `ExitUpdate` goes on to its end. -/
def passesRelease (s : State) (parentid : Pid) : Bool :=
  (s.table.pcb parentid).any fun b => !(b.numwait - 1 = 0 ∧ b.isExit = true)

/-- Nor does `JoinRelease`, as nobody joins the process; the root halts instead. -/
def passesJoin (s : State) (pid : Pid) (parentid : Option Pid) : Bool :=
  parentid.any fun p =>
    (s.table.pcb p).any (fun b => b.joinID ≠ some pid) && s.passesRelease p

/-- Nor is there a child to wait for. -/
def passesWait (s : State) (t : Tid) : Bool :=
  (s.table.find t).any fun pid =>
    (s.table.pcb pid).any fun b => !(0 < b.numwait) && s.passesJoin pid b.parentID

/-- **A step to the end of `ExitUpdate`**: no `P` and no `V` is left on the way. -/
def finishes (s : State) : Action → Bool
  | .exit t _ => s.passesWait t
  | .resume t _ =>
      match s.pc t with
      | .exitWaited _ pid parentid => s.passesJoin pid parentid
      | .exitJoinReleased _ _ parentid => s.passesRelease parentid
      | .exitReleased _ _ => true
      | _ => false
  | _ => false

end State

section
variable {s s' : State} {t u : Tid} {ec : Int} {pid : Pid}

theorem goto_alive (s : State) (t : Tid) (q : PC) : ((s.goto t q).pc t).alive = q.alive := by
  rw [goto_pc_self]

/-- A `P` ends nothing. -/
theorem P_alive (s : State) (t : Tid) : ((s.P t).pc t).alive = (s.pc t).alive := by
  rcases P_pc s t with e | e <;> rw [e]
  rw [Function.update_self]
  cases s.pc t <;> rfl

theorem exitJoinReleased_alive {parentid : Pid}
    (h : s.exitJoinReleased t ec pid parentid = .ok s') :
    (s'.pc t).alive = !s.passesRelease parentid := by
  unfold State.exitJoinReleased at h
  unfold State.passesRelease
  cases hb : s.table.pcb parentid with
  | none => rw [hb] at h; cases h
  | some b =>
      rw [hb] at h
      dsimp only at h
      rw [Option.any_some, Bool.not_not]
      split at h
      · rename_i hn
        cases h
        rw [decide_eq_true hn]
        exact goto_alive ..
      · rename_i hn
        cases h
        rw [decide_eq_false hn]
        exact goto_alive ..

theorem exitWaited_alive {parentid : Option Pid} (hu : (s.pc t).alive = true)
    (h : s.exitWaited t ec pid parentid = .ok s') :
    (s'.pc t).alive = !s.passesJoin pid parentid := by
  unfold State.exitWaited at h
  cases parentid with
  | none => cases h; exact hu
  | some p =>
      unfold State.passesJoin
      rw [Option.any_some]
      dsimp only at h
      cases hb : s.table.pcb p with
      | none => rw [hb] at h; cases h
      | some b =>
          rw [hb] at h
          dsimp only at h
          rw [Option.any_some]
          split at h
          · rename_i hid
            cases h
            rw [decide_eq_false (not_not.mpr hid), Bool.false_and]
            exact goto_alive ..
          · rename_i hid
            rw [decide_eq_true hid, Bool.true_and]
            exact (exitJoinReleased_alive h :)

theorem exitUpdate_alive (h : s.exitUpdate t ec = .ok s') :
    (s'.pc t).alive = !s.passesWait t := by
  unfold State.exitUpdate at h
  unfold State.passesWait
  cases hf : s.table.find t with
  | none =>
      rw [hf] at h
      cases h
      exact goto_alive ..
  | some pid =>
      rw [hf] at h
      dsimp only at h
      rw [Option.any_some]
      cases hb : s.table.pcb pid with
      | none => rw [hb] at h; cases h
      | some b =>
          rw [hb] at h
          dsimp only at h
          rw [Option.any_some]
          split at h
          · rename_i hn
            cases h
            rw [decide_eq_true hn, P_alive]
            exact goto_alive ..
          · rename_i hn
            rw [decide_eq_false hn]
            exact (exitWaited_alive (goto_alive ..) h :)

/-- What is not the end of an `ExitUpdate` leaves the process alive. -/
theorem resume_alive {host : Host} (hI : Inv s) (hp : s.table.pidOf t ≠ none)
    (hu : (s.pc t).alive = true) (h : s.resume t host = .ok s') :
    (s'.pc t).alive = !s.finishes (.resume t host) := by
  unfold State.finishes
  dsimp only
  unfold State.resume at h
  cases hpc : s.pc t with
  | execBmsem | execMutex | execAddrLock | joinWait | exitWait =>
      rw [hpc] at h
      cases h
      exact (P_alive ..).trans (by rw [hpc]; rfl)
  | execEntered f =>
      rw [hpc] at h
      cases h
      have hrefuse : ((s.refuse t).pc t).alive = true := goto_alive ..
      unfold State.execEntered
      split
      · exact hrefuse
      split
      · exact hrefuse
      split
      · exact (P_alive ..).trans (goto_alive ..)
      split
      · exact hrefuse
      split
      · exact hrefuse
      split
      · exact hrefuse
      · exact (P_alive ..).trans (goto_alive ..)
  | execLocked f pid par =>
      rw [hpc] at h
      dsimp only [State.execLocked] at h
      split at h
      · cases h
      split at h <;> cases h
      · exact goto_alive ..
      · exact (P_alive ..).trans (goto_alive ..)
  | execSpace pid par =>
      rw [hpc] at h
      dsimp only [State.execSpace] at h
      split at h
      · cases h
      split at h <;> cases h
      exact goto_alive ..
  | execBuilt pid par =>
      rw [hpc] at h
      dsimp only [State.execBuilt] at h
      split at h
      · cases h
      rename_i b hb
      split at h
      · cases h
      rename_i c hc
      -- only the main thread starts a process without a parent
      have ht : s.ph t = .hatching pid par := by rw [State.ph, hpc]; rfl
      have hpar : b.parentID ≠ none := by
        rw [hI.hatching_parentID ht hb hc, (hI.table.hatching t pid par ht).1]
        exact hp
      rw [if_neg hpar] at h
      cases h
      exact goto_alive ..
  | execUnlocked pid par =>
      rw [hpc] at h
      dsimp only [State.execUnlocked] at h
      split at h
      · cases h; exact goto_alive ..
      split at h <;> cases h
      exact goto_alive ..
  | execRet r =>
      rw [hpc] at h
      dsimp only at h
      split at h <;> cases h
      exact goto_alive ..
  | execFailed | execForked | bootRet => rw [hpc] at h; cases h; exact goto_alive ..
  | joinWoken j i c =>
      rw [hpc] at h
      dsimp only [State.joinWoken] at h
      split at h <;> cases h
      exact goto_alive ..
  | exitWaited => rw [hpc] at h; exact exitWaited_alive hu h
  | exitJoinReleased => rw [hpc] at h; exact exitJoinReleased_alive h
  | exitReleased => rw [hpc] at h; cases h; exact goto_alive ..
  | unborn | created | boot | user | done | gone => rw [hpc] at h; cases h

theorem joinUpdate_alive {id : Int} (h : s.joinUpdate t id = .ok s') : (s'.pc t).alive = true := by
  unfold State.joinUpdate at h
  have hret : ∀ r, ((s.ret t r).pc t).alive = true := fun r => goto_alive ..
  split at h
  · dsimp only at h
    split at h
    · cases h; exact hret _
    split at h
    · cases h; exact hret _
    split at h
    · cases h
    split at h
    · cases h; exact hret _
    split at h
    · cases h
    split at h <;> cases h
    · exact hret _
    · exact (P_alive ..).trans (goto_alive ..)
  · cases h; exact hret _

/-- **A process ends in the step to the end of its `ExitUpdate`**, and in no other. -/
theorem step_alive {a : Action} (hI : Inv s) (h : step s a = .ok s') (hp : s.table.pidOf u ≠ none)
    (hu : (s.pc u).alive = true) :
    (s'.pc u).alive = true ↔ (s.finishes a = true → u ≠ a.thread) := by
  by_cases e : u = a.thread
  · have hown : (s'.pc u).alive = !s.finishes a := by
      unfold step at h
      split at h
      · cases h
      subst e
      cases a with
      | boot f =>
          dsimp only at h
          split at h <;> cases h
          exact (P_alive ..).trans (goto_alive ..)
      | exec t f =>
          dsimp only at h
          split at h <;> cases h
          exact (P_alive ..).trans (goto_alive ..)
      | join t id =>
          dsimp only at h
          split at h
          · exact joinUpdate_alive h
          · cases h
      | exit t ec =>
          dsimp only at h
          split at h
          · exact (exitUpdate_alive h :)
          · cases h
      | halt t =>
          dsimp only at h
          split at h <;> cases h
          exact hu
      | touch t pageTable =>
          dsimp only at h
          split at h
          · cases h
          split at h
          · split at h <;> cases h
            exact hu
          · cases h
      | resume t host =>
          dsimp only at h
          split at h
          · exact resume_alive hI hp hu h
          · cases h
    rw [hown, Bool.not_eq_true', ← Bool.not_eq_true]
    exact ⟨fun hn hf => absurd hf hn, fun hn hf => hn hf e⟩
  · refine iff_of_true ?_ fun _ => e
    refine step_keeps (I := fun x => (x.pc u).alive = true) hI h (fun x y hx _ hpc hxu => ?_) hu
    rcases piece_pc hx hpc e with e' | ⟨e', -⟩ | ⟨e', -⟩
    · rw [e']; exact hxu
    all_goals rw [e'] at hxu; cases hxu

end

end Nachos.Proc

namespace Nachos.OpenFiles
open Lib

abbrev OpenFileId := Int

/-- The process table, the file system, and which ids are open for whom. -/
structure State where
  procs : Proc.State
  files : Filesys.State
  openIds : Finset (OpenFileId × Tid)

namespace State

/-- The slots of `gFileTable` that are in use. -/
def occupied (s : State) : Finset (Fin 10) :=
  Finset.univ.filter fun i => (s.files.gFileTable.m_entries i).isSome

/-- The ids that processes which are alive have opened, and nobody has closed. -/
def liveIds (s : State) : Finset (OpenFileId × Tid) :=
  s.openIds.filter fun x => (s.procs.pc x.2).alive

/-- `SyscallOpen`, in the process `t`; without a name it has been called with a null pointer. -/
def syscallOpen (s : State) (t : Tid) (kernelBuf : Option (List Byte)) (openType : Int)
    (host : Filesys.Host) : Except Stop (Int × State) :=
  match kernelBuf with
  | none => .ok (-1, s)
  | some name =>
      match s.files.fopen name openType host with
      | .ok (fid, files) =>
          .ok (fid, { s with
            files := files
            openIds := if fid = -1 then s.openIds else insert (fid, t) s.openIds })
      | .error e => .error e

/-- `SyscallClose`, which returns nothing. -/
def syscallClose (s : State) (fid : OpenFileId) : Except Stop State :=
  match s.files.fclose fid with
  | .ok (ret, files) =>
      .ok { s with
        files := files
        openIds := if ret = -1 then s.openIds else s.openIds.filter fun x => x.1 ≠ fid }
  | .error e => .error e

/-- A process that makes a system call. -/
def Calls (s : State) (t : Tid) : Prop := s.procs.halted = false ∧ s.procs.InUser t

instance (s : State) (t : Tid) : Decidable (s.Calls t) := inferInstanceAs (Decidable (_ ∧ _))

end State

inductive Action where
  /-- A step of the process table. -/
  | proc (a : Proc.Action)
  | syscallOpen (t : Tid) (kernelBuf : Option (List Byte)) (openType : Int) (host : Filesys.Host)
  | syscallClose (t : Tid) (fid : OpenFileId)

def step (s : State) : Action → Except Stop State
  | .proc a =>
      match Proc.step s.procs a with
      | .ok procs => .ok { s with procs := procs }
      | .error e => .error e
  | .syscallOpen t kernelBuf openType host =>
      if s.Calls t then (s.syscallOpen t kernelBuf openType host).map Prod.snd
      else .error .disabled
  | .syscallClose t fid => if s.Calls t then s.syscallClose fid else .error .disabled

def init (heap : Nat → BitVec 32) : State where
  procs := Proc.init heap
  files := Filesys.State.new
  openIds := ∅

/-- A process that comes to the end of its `ExitUpdate` has no id open. -/
def Closed (s : State) : Action → Prop
  | .proc a => s.procs.finishes a = true → ∀ x ∈ s.openIds, x.2 ≠ a.thread
  | _ => True

instance (s : State) : (a : Action) → Decidable (Closed s a)
  | .proc _ => inferInstanceAs (Decidable (_ → _))
  | .syscallOpen .. => inferInstanceAs (Decidable True)
  | .syscallClose .. => inferInstanceAs (Decidable True)

/-! ### The table and the ids -/

/-- `m` is what is open in the table (`FileInv`), and `openIds` says for whom. -/
structure Inv (m : Int → Option Filesys.Object) (s : State) : Prop where
  procs : Proc.Reachable s.procs
  files : Filesys.FileInv m s.files
  ids : ∀ fid, (∃ t, (fid, t) ∈ s.openIds) ↔ m fid ≠ none
  one : ∀ fid t t', (fid, t) ∈ s.openIds → (fid, t') ∈ s.openIds → t = t'
  opener : ∀ x ∈ s.openIds, s.procs.table.pidOf x.2 ≠ none

section
variable {s s' : State} {m : Int → Option Filesys.Object} {t : Tid}

theorem init_inv (heap : Nat → BitVec 32) : Inv (fun _ => none) (init heap) where
  procs := ⟨heap, .refl⟩
  files := Filesys.new_inv
  ids _ := iff_of_false (fun ⟨_, h⟩ => absurd h (Finset.notMem_empty _)) fun h => h rfl
  one _ _ _ h := absurd h (Finset.notMem_empty _)
  opener _ h := absurd h (Finset.notMem_empty _)

/-- The slots in use are those of the console and those of the ids that are open. -/
theorem Inv.occupied_card (h : Inv m s) : s.occupied.card = 2 + s.openIds.card := by
  have hids : s.occupied.image (fun i : Fin 10 => (i.val : Int)) =
      {0, 1} ∪ s.openIds.image Prod.fst := by
    ext fid
    rw [Finset.mem_union, Finset.mem_image, Finset.mem_image]
    constructor
    · rintro ⟨i, hi, rfl⟩
      rw [State.occupied, Finset.mem_filter] at hi
      by_cases h₂ : 2 ≤ i.val
      · rw [h.files.slot i h₂, Option.isSome_map, Option.isSome_iff_ne_none] at hi
        obtain ⟨t, ht⟩ := (h.ids i.val).mpr hi.2
        exact .inr ⟨_, ht, rfl⟩
      · refine .inl ?_
        rw [Finset.mem_insert, Finset.mem_singleton]
        omega
    · rintro (hfid | ⟨⟨fid, t⟩, ht, rfl⟩)
      · rw [Finset.mem_insert, Finset.mem_singleton] at hfid
        rcases hfid with rfl | rfl
        · exact ⟨0, by rw [State.occupied, Finset.mem_filter, h.files.std.1]; simp, rfl⟩
        · exact ⟨1, by rw [State.occupied, Finset.mem_filter, h.files.std.2]; simp, rfl⟩
      · obtain ⟨o, ho⟩ := Option.ne_none_iff_exists'.mp ((h.ids fid).mp ⟨t, ht⟩)
        obtain ⟨i, rfl, -, hi⟩ := h.files.slot_of_open ho
        exact ⟨i, by rw [State.occupied, Finset.mem_filter, hi]; simp, rfl⟩
  have hdis : Disjoint ({0, 1} : Finset Int) (s.openIds.image Prod.fst) := by
    rw [Finset.disjoint_right]
    intro fid hfid
    obtain ⟨⟨fid, t⟩, ht, rfl⟩ := Finset.mem_image.mp hfid
    have := (h.files.range fid ((h.ids fid).mp ⟨t, ht⟩)).1
    rw [Finset.mem_insert, Finset.mem_singleton]
    omega
  have hinj : Set.InjOn Prod.fst (s.openIds : Set (OpenFileId × Tid)) := by
    rintro ⟨fid, t⟩ ht ⟨fid', t'⟩ ht' e
    obtain rfl : fid = fid' := e
    rw [h.one fid t t' ht ht']
  have hval : Function.Injective fun i : Fin 10 => (i.val : Int) := fun i j e =>
    Fin.ext (Int.ofNat.inj e)
  calc s.occupied.card = (s.occupied.image fun i : Fin 10 => (i.val : Int)).card :=
        (Finset.card_image_of_injective _ hval).symm
    _ = 2 + (s.openIds.image Prod.fst).card := by
        rw [hids, Finset.card_union_of_disjoint hdis]
        rfl
    _ = 2 + s.openIds.card := by rw [Finset.card_image_of_injOn hinj]

/-- Every id that is open belongs to a process that is alive. -/
def AllLive (s : State) : Prop := ∀ x ∈ s.openIds, (s.procs.pc x.2).alive = true

theorem Inv.card_iff (h : Inv m s) : s.occupied.card = 2 + s.liveIds.card ↔ AllLive s := by
  rw [h.occupied_card, Nat.add_left_cancel_iff, eq_comm, State.liveIds, Finset.card_filter_eq_iff]
  rfl

/-! ### The steps -/

theorem proc_ok {a : Proc.Action} (h : step s (.proc a) = .ok s') :
    ∃ procs, Proc.step s.procs a = .ok procs ∧ s' = { s with procs := procs } := by
  simp only [step] at h
  split at h
  · rename_i procs hp
    cases h
    exact ⟨procs, hp, rfl⟩
  · cases h

/-- An `Open` changes nothing, or gives the process an id that was not open. -/
theorem open_ok {name : Option (List Byte)} {openType r : Int} {host : Filesys.Host}
    (h : Inv m s) (hs : s.syscallOpen t name openType host = .ok (r, s')) :
    s' = s ∨ ∃ files o, m r = none ∧ Filesys.FileInv (Function.update m r (some o)) files ∧
      s' = { s with files := files, openIds := insert (r, t) s.openIds } := by
  unfold State.syscallOpen at hs
  cases name with
  | none => cases hs; exact .inl rfl
  | some name =>
      dsimp only at hs
      split at hs
      · rename_i fid files hf
        cases hs
        rcases Filesys.fopen_cases hf with ⟨rfl, rfl, -⟩ | ⟨i, rfl, hi, hd, hheap, -, -, rfl⟩
        · exact .inl (by rw [if_pos rfl])
        · refine .inr ⟨_, Filesys.made name openType host, (h.files.of_free hi).2,
            h.files.insert hi hd hheap, ?_⟩
          rw [if_neg (by omega)]
          rfl
      · cases hs

/-- A `Close` changes nothing, or closes an id that was open. -/
theorem close_ok {fid : OpenFileId} (h : Inv m s) (hs : s.syscallClose fid = .ok s') :
    s' = s ∨ ∃ files, Filesys.FileInv (Function.update m fid none) files ∧
      s' = { s with files := files, openIds := s.openIds.filter fun x => x.1 ≠ fid } := by
  unfold State.syscallClose at hs
  rcases h.files.fclose_eq fid with ⟨-, e⟩ | ⟨i, o, rfl, hi, ho, e⟩ <;> rw [e] at hs <;> cases hs
  · exact .inl rfl
  · exact .inr ⟨_, h.files.erase hi ho, rfl⟩

/-- A thread in user code is that of a process. -/
theorem Inv.process (h : Inv m s) (ht : s.Calls t) : s.procs.table.pidOf t ≠ none := by
  have hI := Proc.reachable_inv h.procs
  intro hn
  rcases (hI.table.noPid t).mp hn with rfl | hlt
  · have hmain := Proc.reachable_main h.procs
    rw [ht.2.2] at hmain
    cases hmain
  · have hph := (hI.table.unborn t).mpr hlt
    rw [Proc.State.ph, ht.2.2] at hph
    cases hph

theorem step_inv {a : Action} (h : Inv m s) (hs : step s a = .ok s') : ∃ m', Inv m' s' := by
  cases a with
  | proc a =>
      obtain ⟨procs, hp, rfl⟩ := proc_ok hs
      obtain ⟨heap, hrun⟩ := h.procs
      refine ⟨m, ⟨heap, hrun.tail trivial hp⟩, h.files, h.ids, h.one, fun x hx => ?_⟩
      refine Proc.step_keeps (I := fun y => y.table.pidOf x.2 ≠ none)
        (Proc.reachable_inv h.procs) hp (fun y z hy _ hpiece hI => ?_) (h.opener x hx)
      rw [(Proc.piece_kin hy hpiece hI).1]
      exact hI
  | syscallOpen t name openType host =>
      simp only [step] at hs
      split at hs
      · rename_i ht
        obtain ⟨⟨r, s₁⟩, ho, rfl⟩ := map_ok hs
        rcases open_ok h ho with rfl | ⟨files, o, hr, hfiles, rfl⟩
        · exact ⟨m, h⟩
        have hfree : ∀ t', (r, t') ∉ s.openIds := fun t' ht' => (h.ids r).mp ⟨t', ht'⟩ hr
        refine ⟨_, h.procs, hfiles, fun fid => ?_, fun fid t₁ t₂ h₁ h₂ => ?_, fun x hx => ?_⟩
        · by_cases e : fid = r
          · rw [e, Function.update_self]
            exact iff_of_true ⟨t, Finset.mem_insert_self ..⟩ (Option.some_ne_none _)
          · rw [Function.update_of_ne e, ← h.ids]
            refine exists_congr fun t' => ?_
            rw [Finset.mem_insert, Prod.mk.injEq]
            exact or_iff_right fun hn => e hn.1
        · rw [Finset.mem_insert, Prod.mk.injEq] at h₁ h₂
          rcases h₁ with ⟨rfl, rfl⟩ | h₁ <;> rcases h₂ with ⟨e, rfl⟩ | h₂
          · rfl
          · exact absurd h₂ (hfree _)
          · exact absurd (e ▸ h₁) (hfree _)
          · exact h.one fid t₁ t₂ h₁ h₂
        · rcases Finset.mem_insert.mp hx with rfl | hx
          · exact h.process ht
          · exact h.opener x hx
      · cases hs
  | syscallClose t fid =>
      simp only [step] at hs
      split at hs
      · rcases close_ok h hs with rfl | ⟨files, hfiles, rfl⟩
        · exact ⟨m, h⟩
        have hmem : ∀ {x}, x ∈ s.openIds.filter (fun x => x.1 ≠ fid) → x ∈ s.openIds := fun hx =>
          (Finset.mem_filter.mp hx).1
        refine ⟨_, h.procs, hfiles, fun k => ?_, fun k t₁ t₂ h₁ h₂ => ?_, fun x hx => ?_⟩
        · simp only [Finset.mem_filter]
          by_cases e : k = fid
          · rw [e, Function.update_self]
            exact iff_of_false (fun ⟨_, _, hn⟩ => hn rfl) fun hn => hn rfl
          · rw [Function.update_of_ne e, ← h.ids]
            exact exists_congr fun t' => and_iff_left e
        · exact h.one k t₁ t₂ (hmem h₁) (hmem h₂)
        · exact h.opener x (hmem hx)
      · cases hs

/-- **A step keeps every id that is open with a process that is alive** iff no process ends in it
with an id still open. -/
theorem step_allLive {a : Action} (h : Inv m s) (hl : AllLive s) (hs : step s a = .ok s') :
    AllLive s' ↔ Closed s a := by
  cases a with
  | proc a =>
      obtain ⟨procs, hp, rfl⟩ := proc_ok hs
      have hx : ∀ x ∈ s.openIds, (procs.pc x.2).alive = true ↔
          (s.procs.finishes a = true → x.2 ≠ a.thread) := fun x hx =>
        Proc.step_alive (Proc.reachable_inv h.procs) hp (h.opener x hx) (hl x hx)
      exact ⟨fun hl' hf x hmem => (hx x hmem).mp (hl' x hmem) hf,
        fun hc x hmem => (hx x hmem).mpr fun hf => hc hf x hmem⟩
  | syscallOpen t name openType host =>
      refine iff_of_true ?_ trivial
      simp only [step] at hs
      split at hs
      · rename_i ht
        obtain ⟨⟨r, s₁⟩, ho, rfl⟩ := map_ok hs
        rcases open_ok h ho with rfl | ⟨files, o, hr, hfiles, rfl⟩
        · exact hl
        intro x hx
        rcases Finset.mem_insert.mp hx with rfl | hx
        · show (s.procs.pc t).alive = true
          rw [ht.2.2]
          rfl
        · exact hl x hx
      · cases hs
  | syscallClose t fid =>
      refine iff_of_true ?_ trivial
      simp only [step] at hs
      split at hs
      · rcases close_ok h hs with rfl | ⟨files, hfiles, rfl⟩
        · exact hl
        · exact fun x hx => hl x (Finset.mem_filter.mp hx).1
      · cases hs

theorem run_allLive {heap : Nat → BitVec 32} (h : Steps step Closed (init heap) s) :
    (∃ m, Inv m s) ∧ AllLive s := by
  refine h.inv (I := fun s => (∃ m, Inv m s) ∧ AllLive s)
    ⟨⟨_, init_inv heap⟩, fun x hx => absurd hx (Finset.notMem_empty x)⟩ ?_
  rintro s a s' ⟨⟨m, hinv⟩, hl⟩ hc hs
  exact ⟨step_inv hinv hs, (step_allLive hinv hl hs).mpr hc⟩

/-- **The ids of the table are those of the processes that are alive**, as long as no process comes
to the end of its `ExitUpdate` with an id still open: the slots in use are the two of the console and
one for each id.  A step keeps this iff no process ends in it with an id still open.  And an `Open`
that the host answers fails only when the processes that are alive have eight ids open. -/
theorem openIds_ofLive {heap : Nat → BitVec 32} (h : Steps step Closed (init heap) s) :
    s.occupied.card = 2 + s.liveIds.card ∧
    (∀ a s', step s a = .ok s' → (s'.occupied.card = 2 + s'.liveIds.card ↔ Closed s a)) ∧
    ∀ t name openType host r s', s.syscallOpen t (some name) openType host = .ok (r, s') →
      openType = 0 ∨ openType = 1 → host.openForReadWrite name ≠ -1 → s.liveIds.card < 8 →
        r ≠ -1 := by
  obtain ⟨⟨m, hinv⟩, hl⟩ := run_allLive h
  have hcard := hinv.card_iff.mpr hl
  refine ⟨hcard, fun a s' hs => ?_, fun t name openType host r s' hs hty hopen hlt hr => ?_⟩
  · obtain ⟨m', hinv'⟩ := step_inv hinv hs
    rw [hinv'.card_iff]
    exact step_allLive hinv hl hs
  · unfold State.syscallOpen at hs
    dsimp only at hs
    split at hs
    · rename_i fid files hf
      cases hs
      rcases Filesys.fopen_cases hf with ⟨-, -, hno | hno | hfull⟩ | ⟨i, rfl, -⟩
      · omega
      · exact hopen hno
      · have hall : s.occupied = Finset.univ := Finset.filter_true_of_mem fun i _ =>
          Option.isSome_iff_ne_none.mpr (hfull i)
        rw [hall, Finset.card_univ, Fintype.card_fin] at hcard
        omega
      · omega
    · cases hs

end

/-! ### Programs -/

/-- The root starts. -/
def startRoot : List Action :=
  (Proc.Action.boot [97] :: Proc.resumes 0 4 ++ Proc.resumes 1 2).map .proc

/-- The root starts a child, the thread `t`, which opens a file and gets the descriptor `fd`. -/
def childOpens (t : Tid) (fd : Nat) : List Action :=
  (Proc.Action.exec 1 (some [98]) :: Proc.resumes 1 7).map .proc ++
    [.syscallOpen t (some [99]) 0 ⟨fun _ => fd, fd⟩]

/-- The child closes its file and exits. -/
theorem openIds_ofLive_closed : ∃ s, run step Closed (init fun _ => 0)
    (startRoot ++ childOpens 2 5 ++ [.syscallClose 2 2, .proc (.exit 2 0)]) = some s ∧
      (s.procs.pc 2).alive = false ∧ s.occupied.card = 2 + s.liveIds.card := by
  obtain ⟨s, hs, hp⟩ := (Option.any_eq_true ..).mp (show (run step Closed (init fun _ => 0)
    (startRoot ++ childOpens 2 5 ++ [.syscallClose 2 2, .proc (.exit 2 0)])).any (fun s =>
      (s.procs.pc 2).alive = false) = true by decide +kernel)
  exact ⟨s, hs, of_decide_eq_true hp, (openIds_ofLive (Steps.of_run hs)).1⟩

/-- Eight children open a file and exit.  No process that is alive has an id open, all slots are in
use, and the root cannot open a file. -/
theorem openIds_leaked : ∃ s, run step always (init fun _ => 0)
    (startRoot ++ (List.range 8).flatMap fun n =>
      childOpens (n + 2) (n + 5) ++ [.proc (.exit (n + 2) 0)]) = some s ∧
      s.liveIds = ∅ ∧ s.occupied.card = 10 ∧ s.occupied.card ≠ 2 + s.liveIds.card ∧
      (s.syscallOpen 1 (some [99]) 0 ⟨fun _ => 13, 13⟩).toOption.map Prod.fst = some (-1) := by
  obtain ⟨s, hs, hp⟩ := (Option.any_eq_true ..).mp (show (run step always (init fun _ => 0)
    (startRoot ++ (List.range 8).flatMap fun n =>
      childOpens (n + 2) (n + 5) ++ [.proc (.exit (n + 2) 0)])).any (fun s =>
        s.liveIds = ∅ ∧ s.occupied.card = 10 ∧ s.occupied.card ≠ 2 + s.liveIds.card ∧
        (s.syscallOpen 1 (some [99]) 0 ⟨fun _ => 13, 13⟩).toOption.map Prod.fst = some (-1)) =
          true by decide +kernel)
  exact ⟨s, hs, of_decide_eq_true hp⟩

end Nachos.OpenFiles
