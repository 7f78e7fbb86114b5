import Nachos.Threads.ProcessTable
import Nachos.Threads.Spaces
import Nachos.Userprog.Loader

/-!
# Threads — what ExecUpdate touches

Three things about `ExecUpdate` (threads/ptable.cc) and `PCB::Exec` (threads/pcb.cc).  Which
entries of `pcb` a call goes through: all of them are there, but for `pcb[-1]`, to which the
`IncNumWait` of the first process goes (`execUpdate_pcb_iff`).  What a call that returns `-1` leaves
behind: nothing, where it is refused before its PCB is made (`execUpdate_failed_iff`).  And on which
files a call of `SyscallExec` aborts or writes to memory it does not own (`syscallExec_safe_iff`).

`ExecUpdate` is called by `SyscallExec` and, once, by `StartProcess`.  The two are told apart by
`calls`: the thread of a system call has made one (`CallOk`).
-/

namespace Nachos.Proc
open Lib

/-! ### Who has called -/

/-- Which threads have made a system call: those that `SyscallExec` has led into `ExecUpdate`, and
they have a parent to hand to the new process. -/
def CallOk (t : Tid) (calls : Nat) : PC → Prop
  | .unborn | .created | .bootRet => calls = 0
  | .boot => calls = 0 ∧ t = 0
  | .execBmsem _ | .execEntered _ | .execRet _ => calls = 0 ↔ t = 0
  | .execMutex _ _ par | .execLocked _ _ par | .execFailed _ par | .execAddrLock _ par
  | .execSpace _ par | .execBuilt _ par | .execForked _ par | .execUnlocked _ par =>
      calls = 0 ↔ par = none
  | _ => True

/-- The calls of every thread, and of the main thread none. -/
structure CallInv (s : State) : Prop where
  main : s.calls 0 = 0
  ok : ∀ t, CallOk t (s.calls t) (s.pc t)

section
variable {s s' : State} {t u : Tid} {o : Input}

theorem CallOk.afterP {n : Nat} {pc : PC} (h : CallOk t n pc) : CallOk t n pc.afterP := by
  cases pc <;> exact h

theorem CallOk.leads {n : Nat} {opened : Bool} {pc q : PC} (h : CallOk t n pc)
    (hq : PC.Leads opened pc q) : CallOk t n q := by
  cases hq with
  | boot => exact ⟨fun _ => h.2, fun _ => h.1⟩
  | refuse => exact h
  | noOpen => exact h
  | unlock => exact h
  | start => trivial

/-- A piece counts only calls of its own thread. -/
theorem piece_calls_ne (hp : Piece t o s s') (hu : u ≠ t) : s'.calls u = s.calls u := by
  have hcall : (s.called t).calls u = s.calls u := Function.update_of_ne hu _ _
  cases hp with
  | P => rw [P_calls]
  | call | refused | pass => exact hcall
  | joinWait | exitWait => rw [P_calls]; exact hcall
  | _ => rfl

/-- Only the main thread is without a slot. -/
theorem Inv.noPid_iff (h : Inv s) (ht : s.ph t ≠ .unborn) : s.table.pidOf t = none ↔ t = 0 := by
  rw [h.table.noPid]
  exact ⟨fun h0 => h0.resolve_right fun hle => ht ((h.table.unborn t).mpr hle), .inl⟩

/-- What a piece does to its own thread. -/
theorem piece_callOk (hI : Inv s) (hm : (s.pc 0).ofMain = true) (hp : Piece t o s s')
    (h : CallInv s) : CallOk t (s'.calls t) (s'.pc t) := by
  have ht := h.ok t
  have hne : s.InUser t → t ≠ 0 := by
    rintro hu rfl
    rw [hu.2] at hm
    cases hm
  have hcall : (s.called t).calls t ≠ 0 := by simp [State.called]
  have hto : ∀ {y : State} {q : PC}, y.pc = Function.update s.pc t q → CallOk t (y.calls t) q →
      CallOk t (y.calls t) (y.pc t) := fun e hq => by
    rw [e, Function.update_self]
    exact hq
  have hP : ∀ {y : State}, CallOk t (y.calls t) (y.pc t) →
      CallOk t ((y.P t).calls t) ((y.P t).pc t) := by
    intro y hy
    rw [P_calls]
    rcases P_pc y t with e | e <;> rw [e]
    · exact hy
    · rw [Function.update_self]
      exact hy.afterP
  cases hp with
  | halt | touch | V => exact ht
  | call hu => exact hto rfl (iff_of_false hcall (hne hu))
  | refused | joinRet | skip | dec | finish => exact hto rfl trivial
  | ret | joinRelease | exitRelease | pass => exact hto rfl trivial
  | exec hq => exact hto rfl (ht.leads hq)
  | P => exact hP ht
  | @newPCB f i par hpc _ hpar =>
      rw [hpc] at ht
      rw [hpar]
      exact hto rfl (ht.trans (hI.noPid_iff (by rw [State.ph, hpc]; simp [PC.phase])).symm)
  | newThread hpc =>
      rw [hpc] at ht
      rw [goto_pc_self]
      exact ht
  | @fail i par hpc =>
      have hph : s.ph t = .building i par := by rw [State.ph, hpc]; rfl
      rw [hpc] at ht
      refine hto rfl (ht.trans ?_)
      rw [(hI.table.building t i par hph).2.1]
      exact hI.noPid_iff (by rw [hph]; simp)
  | space hpc =>
      rw [hpc] at ht
      exact hto rfl ht
  | fork hpc =>
      rw [hpc] at ht
      rw [goto_pc_self]
      exact ht
  | @takeOver i c b hpc hb hc =>
      have hne : t ≠ c := by
        rintro rfl
        rw [hI.pc_created hpc hb hc] at hpc
        cases hpc
      rw [goto_pc_ne _ _ hne, goto_pc_self]
      trivial
  | bootInc hpc =>
      rw [hpc] at ht
      exact hto rfl (ht.mpr rfl)
  | @inc i j b hpc =>
      have hph : s.ph t = .hatched (some j) := by rw [State.ph, hpc]; rfl
      rw [hpc] at ht
      refine hto rfl (ht.trans (iff_of_false (by simp) fun h0 => ?_))
      rw [← hI.noPid_iff (by rw [hph]; simp), hI.table.hatched t j hph] at h0
      cases h0
  | joinWait | exitWait => exact hP (by rw [goto_pc_self]; trivial)

theorem piece_callInv (hI : Inv s) (hm : (s.pc 0).ofMain = true) (hp : Piece t o s s')
    (h : CallInv s) : CallInv s' := by
  refine ⟨?_, fun u => ?_⟩
  · by_cases e : 0 = t
    · subst e
      have hno : s.InUser 0 → False := fun hu => by
        rw [hu.2] at hm
        cases hm
      cases hp with
      | P => rw [P_calls]; exact h.main
      | call hu | refused hu | pass hu | joinWait _ hu | exitWait hu => exact (hno hu).elim
      | _ => exact h.main
    · rw [piece_calls_ne hp e]
      exact h.main
  · by_cases e : u = t
    · subst e
      exact piece_callOk hI hm hp h
    · rw [piece_calls_ne hp e]
      have hu := h.ok u
      rcases piece_pc hI hp e with e' | ⟨e', e''⟩ | ⟨e', e'' | ⟨i, e''⟩⟩
      · rw [e']
        exact hu
      · rw [e'] at hu
        rw [e'']
        exact hu
      · rw [e'']
        trivial
      · rw [e'] at hu
        rw [e'']
        exact iff_of_true hu rfl

theorem reachable_callInv (h : Reachable s) : CallInv s := by
  refine (reachable_keeps (I := fun s => (s.pc 0).ofMain = true ∧ CallInv s) h
    (fun heap => ⟨rfl, rfl, fun t => ?_⟩)
    fun hI hr hs => ⟨piece_main hI hr.2 hs.1, piece_callInv hI hs.1 hr.2 hs.2⟩).2
  simp only [init, Function.update_apply]
  split
  · rename_i e
    exact ⟨rfl, e⟩
  · rfl

end

/-! ### The entries of `pcb` a call goes through -/

/-- What is done with an entry of `pcb`. -/
inductive Use where
  /-- `if (pcb[i])`. -/
  | test
  /-- `pcb[pid] = new PCB()`. -/
  | store
  /-- A call through the entry, or its `delete`. -/
  | deref
  deriving DecidableEq, Repr

/-- An access to `pcb[index]`, with what the array holds then. -/
structure PcbAccess where
  use : Use
  index : Int
  pcb : Pid → Option PCB

/-- The index is one of the array, and an entry that is followed is not `NULL`. -/
def PcbAccess.Ok (a : PcbAccess) : Prop :=
  ∃ i : Pid, a.index = i.val ∧ (a.use = .deref → a.pcb i ≠ none)

namespace State

/-- The loop that looks for `currentThread`. -/
def scan (s : State) (t : Tid) : List Pid → List PcbAccess
  | [] => []
  | i :: l =>
      ⟨.test, i.val, s.table.pcb⟩ ::
        match s.table.pcb i with
        | none => s.scan t l
        | some b =>
            ⟨.deref, i.val, s.table.pcb⟩ :: if b.thread == some t then [] else s.scan t l

/-- The pid of the first process. -/
theorem pid_zero : 0 < MAX_PROCESS := by decide

/-- `pcb[pid] = new PCB()` and the call of `pcb[pid]->Exec`. -/
def makes (s : State) (pid : Pid) : List PcbAccess :=
  [⟨.store, pid.val, s.table.pcb⟩,
    ⟨.deref, pid.val, Function.update s.table.pcb pid (some PCB.new)⟩]

/-- The accesses to `pcb` that `ExecUpdate` makes when the thread `t` goes on. -/
def accesses (s : State) (t : Tid) (host : Host) : List PcbAccess :=
  match s.pc t with
  | .execEntered (some filename) =>
      if host.opened = false then []
      else if s.table.bm.numClear = MAX_PROCESS then s.makes ⟨0, pid_zero⟩
      else if strn (s.name t) = strn filename then []
      else
        s.scan t (List.finRange MAX_PROCESS) ++
          match s.table.find t, s.table.bm.find with
          | some _, (some pid, _) => s.makes pid
          | _, _ => []
  | .execFailed pid _ => [⟨.deref, pid.val, s.table.pcb⟩]
  | .execUnlocked _ parentid =>
      [⟨.deref, parentid.elim (-1) fun p => (p.val : Int), s.table.pcb⟩]
  | _ => []

end State

section
variable {s : State} {t : Tid} {host : Host}

theorem scan_ok (s : State) (t : Tid) (l : List Pid) : ∀ a ∈ s.scan t l, a.Ok := by
  induction l with
  | nil => simp [State.scan]
  | cons i l ih =>
      intro a ha
      rcases List.mem_cons.mp ha with rfl | ha
      · exact ⟨i, rfl, fun e => by cases e⟩
      · split at ha
        · exact ih a ha
        · rename_i b hb
          rcases List.mem_cons.mp ha with rfl | ha
          · exact ⟨i, rfl, fun _ => by simp [hb]⟩
          · split at ha
            · cases ha
            · exact ih a ha

theorem makes_ok (s : State) (pid : Pid) : ∀ a ∈ s.makes pid, a.Ok := by
  intro a ha
  rcases List.mem_cons.mp ha with rfl | ha
  · exact ⟨pid, rfl, fun e => by cases e⟩
  · obtain rfl := List.mem_singleton.mp ha
    exact ⟨pid, rfl, fun _ => by simp⟩

theorem entered_ok {filename : Option Name} (hpc : s.pc t = .execEntered filename) :
    ∀ a ∈ s.accesses t host, a.Ok := by
  intro a ha
  simp only [State.accesses, hpc] at ha
  cases filename with
  | none => cases ha
  | some f =>
      dsimp only at ha
      split at ha
      · cases ha
      split at ha
      · exact makes_ok s _ a ha
      split at ha
      · cases ha
      rcases List.mem_append.mp ha with ha | ha
      · exact scan_ok s t _ a ha
      · split at ha
        · exact makes_ok s _ a ha
        · cases ha

/-- **The entries of `pcb` that `ExecUpdate` goes through.**  In every reachable state, whoever goes
on and whatever the host answers: every access to `pcb` is to one of its `MAX_PROCESS` entries, and
those followed are not `NULL`, but for the last one of the call of `StartProcess`. -/
theorem execUpdate_pcb_iff (h : Reachable s) (t : Tid) (host : Host) :
    (∀ a ∈ s.accesses t host, a.Ok) ↔
      ¬ (s.calls t = 0 ∧ ∃ pid parentid, s.pc t = .execUnlocked pid parentid) := by
  have hI := reachable_inv h
  have hc := (reachable_callInv h).ok t
  cases hpc : s.pc t with
  | execEntered f =>
      exact iff_of_true (entered_ok hpc) (by simp)
  | execFailed i par =>
      refine iff_of_true (fun a ha => ?_) (by simp)
      simp only [State.accesses, hpc, List.mem_singleton] at ha
      subst ha
      refine ⟨i, rfl, fun _ => ?_⟩
      show s.table.pcb i ≠ none
      rw [(hI.table.building t i par (by rw [State.ph, hpc]; rfl)).1]
      simp
  | execUnlocked i par =>
      rw [hpc] at hc
      simp only [State.accesses, hpc, List.mem_singleton, forall_eq]
      cases par with
      | none =>
          refine iff_of_false ?_ (not_not.mpr ⟨hc.mpr rfl, i, none, rfl⟩)
          rintro ⟨k, hk, -⟩
          simp only [Option.elim_none] at hk
          omega
      | some j =>
          refine iff_of_true ⟨j, rfl, fun _ => ?_⟩ fun h0 => by simpa using hc.mp h0.1
          have hph : s.ph t = .hatched (some j) := by rw [State.ph, hpc]; rfl
          obtain ⟨b, hb, -⟩ := hI.table.owns t j (hI.table.hatched t j hph) (by rw [hph]; simp)
          show s.table.pcb j ≠ none
          rw [hb]
          simp
  | _ => exact iff_of_true (by simp [State.accesses, hpc]) (by simp)

end

/-- When `StartProcess` has started the first process, its `ExecUpdate` goes through `pcb[-1]`. -/
theorem execUpdate_pcb_first : ∃ s, run step always (init fun _ => 0)
    (.boot [97] :: resumes 0 4) = some s ∧ Reachable s ∧
    ¬ ∀ a ∈ s.accesses 1 ⟨true, noff⟩, a.Ok := by
  obtain ⟨s, hs, hp⟩ := (Option.any_eq_true ..).mp (show (run step always (init fun _ => 0)
    (.boot [97] :: resumes 0 4)).any (fun s => s.pc 1 = .execUnlocked 0 none) = true by
      decide +kernel)
  refine ⟨s, hs, ⟨_, Steps.of_run hs⟩, fun hall => ?_⟩
  obtain ⟨k, hk, -⟩ := hall _ (by
    rw [State.accesses, of_decide_eq_true hp]
    exact List.mem_singleton_self _)
  simp only [Option.elim_none] at hk
  omega

/-- A call of `SyscallExec` goes through the entry of its caller. -/
theorem execUpdate_pcb_child : ∃ s, run step always (init fun _ => 0)
    (.boot [97] :: resumes 0 4 ++ resumes 1 2 ++ .exec 1 (some [98]) :: resumes 1 5) = some s ∧
    s.pc 1 = .execUnlocked 1 (some 0) ∧ ∀ a ∈ s.accesses 1 ⟨true, noff⟩, a.Ok := by
  obtain ⟨s, hs, hp⟩ := (Option.any_eq_true ..).mp (show (run step always (init fun _ => 0)
    (.boot [97] :: resumes 0 4 ++ resumes 1 2 ++ .exec 1 (some [98]) :: resumes 1 5)).any
      (fun s => s.pc 1 = .execUnlocked 1 (some 0) ∧ s.calls 1 ≠ 0) = true by decide +kernel)
  obtain ⟨hpc, hcalls⟩ := of_decide_eq_true hp
  exact ⟨s, hs, hpc, (execUpdate_pcb_iff ⟨_, Steps.of_run hs⟩ 1 _).mpr fun h0 => hcalls h0.1⟩

/-! ### A call that fails -/

/-- The action in which `t` may get `bmsem`: it calls `ExecUpdate`, or is in its `bmsem->P()`. -/
inductive Enters (s : State) (t : Tid) (filename : Option Name) : Action → Prop where
  | boot {f : Name} : t = 0 → filename = some f → Enters s t filename (.boot f)
  | exec : Enters s t filename (.exec t filename)
  | resume {host : Host} : s.pc t = .execBmsem filename → Enters s t filename (.resume t host)

namespace State

/-- What `ExecUpdate` asks for before it makes a PCB. -/
def Accepts (s : State) (t : Tid) (filename : Option Name) (host : Host) : Prop :=
  ∃ f, filename = some f ∧ host.opened = true ∧
    (s.table.bm.numClear = MAX_PROCESS ∨
      strn (s.name t) ≠ strn f ∧ s.table.find t ≠ none ∧ s.table.bm.find.1 ≠ none)

/-- No entry of `pcb` refers to a PCB that has been deleted. -/
def Clean (s : State) : Prop := ∀ i, s.table.pcb i ≠ none → s.table.bm.test i = true

instance (s : State) : Decidable s.Clean := inferInstanceAs (Decidable (∀ _, _ → _))

end State

/-- What a failed call has to leave as it was.  The `numwait` of the processes is in `pcb`. -/
structure Unchanged (s s' : State) : Prop where
  bm : ∀ i, s'.table.bm.test i = s.table.bm.test i
  pcb : s'.table.pcb = s.table.pcb
  clean : s'.Clean
  frames : s'.gPhysPageBitMap = s.gPhysPageBitMap
  bmsem : (s'.sync.sems .bmsem).value = (s.sync.sems .bmsem).value
  addrLock : (s'.sync.sems .addrLock).value = (s.sync.sems .addrLock).value

/-- The places behind a `PCB::Exec` that has found the file. -/
def PC.succeeds : PC → Bool
  | execAddrLock _ _ | execSpace _ _ | execBuilt _ _ | execForked _ _ | execUnlocked _ _ => true
  | execRet r => 0 ≤ r
  | bootRet | user | gone => true
  | _ => false

section
variable {s s₁ s₂ : State} {t : Tid} {filename : Option Name} {a : Action} {host : Host}

/-- What the thread has when it holds `bmsem`. -/
structure Entered (s s₁ : State) (t : Tid) (filename : Option Name) : Prop where
  table : s₁.table = s.table
  name : s₁.name = s.name
  frames : s₁.gPhysPageBitMap = s.gPhysPageBitMap
  bmsem : (s₁.sync.sems .bmsem).value + 1 = (s.sync.sems .bmsem).value
  addrLock : (s₁.sync.sems .addrLock).value = (s.sync.sems .addrLock).value

theorem P_entered {x : State} (hpc : x.pc t = .execBmsem filename)
    (h : (x.P t).pc t = .execEntered filename) : Entered x (x.P t) t filename := by
  have hsem : (x.pc t).sem = some .bmsem := by rw [hpc]; rfl
  by_cases hv : (x.sync.sems .bmsem).value = 0
  · rw [P_block hsem hv, hpc] at h
    cases h
  · rw [P_pass hsem hv]
    refine ⟨rfl, rfl, rfl, ?_, ?_⟩
    · show (((x.sync.P t .bmsem).1).sems .bmsem).value + 1 = _
      rw [Sync.P_value_pos hv]
      omega
    · show (((x.sync.P t .bmsem).1).sems .addrLock).value = _
      rw [Sync.P_sems_ne _ _ (by decide)]

theorem Enters.entered (hE : Enters s t filename a) (h : step s a = .ok s₁)
    (hpc : s₁.pc t = .execEntered filename) : Entered s s₁ t filename := by
  unfold step at h
  split at h
  · cases h
  cases hE with
  | boot h₀ hf =>
      subst h₀ hf
      dsimp only at h
      split at h
      · cases h
        obtain ⟨h₁, h₂, h₃, h₄, h₅⟩ := P_entered (goto_pc_self ..) hpc
        exact ⟨h₁, h₂, h₃, h₄, h₅⟩
      · cases h
  | exec =>
      dsimp only at h
      split at h
      · cases h
        obtain ⟨h₁, h₂, h₃, h₄, h₅⟩ := P_entered (goto_pc_self ..) hpc
        exact ⟨h₁, h₂, h₃, h₄, h₅⟩
      · cases h
  | resume hb =>
      dsimp only at h
      split at h
      · simp only [State.resume, hb] at h
        cases h
        exact P_entered hb hpc
      · cases h

theorem resume_of_run {hosts : List Host}
    (h : run step always s ((host :: hosts).map (.resume t)) = some s₂) :
    ∃ s₁, s.resume t host = .ok s₁ ∧ run step always s₁ (hosts.map (.resume t)) = some s₂ := by
  obtain ⟨s₁, -, h₁, hrun⟩ := run_cons h
  unfold step at h₁
  split at h₁
  · cases h₁
  dsimp only at h₁
  split at h₁
  · exact ⟨s₁, h₁, hrun⟩
  · cases h₁

/-- A `PCB::Exec` that has found the file does not lead to a `-1`. -/
theorem resume_succeeds (h : s.resume t host = .ok s₁) (hp : (s.pc t).succeeds = true) :
    (s₁.pc t).succeeds = true := by
  have hto : ∀ {x : State} {q : PC}, q.succeeds = true → ((x.goto t q).pc t).succeeds = true := by
    intro x q hq
    rw [goto_pc_self]
    exact hq
  unfold State.resume at h
  cases hpc : s.pc t with
  | execAddrLock i par =>
      rw [hpc] at h
      cases h
      rcases P_pc s t with e | e <;> rw [e]
      · exact hp
      · rw [Function.update_self, hpc]
        rfl
  | execSpace i par =>
      simp only [hpc, State.execSpace] at h
      split at h
      · cases h
      split at h
      · cases h
      · cases h
        exact hto rfl
  | execBuilt i par =>
      simp only [hpc, State.execBuilt] at h
      split at h
      · cases h
      split at h
      · cases h
      rename_i c _
      split at h
      · cases h
        show (Function.update (Function.update s.pc t .gone) c _ t).succeeds = true
        by_cases e : t = c
        · rw [← e, Function.update_self]
          rfl
        · rw [Function.update_of_ne e, Function.update_self]
          rfl
      · cases h
        exact hto rfl
  | execForked i par =>
      rw [hpc] at h
      cases h
      exact hto rfl
  | execUnlocked i par =>
      simp only [hpc, State.execUnlocked] at h
      split at h
      · cases h
        exact hto rfl
      split at h
      · cases h
      · cases h
        exact hto (decide_eq_true (Int.natCast_nonneg i.val))
  | execRet r =>
      simp only [hpc] at h
      split at h
      · cases h
      · cases h
        exact hto rfl
  | bootRet =>
      rw [hpc] at h
      cases h
      exact hto rfl
  | user | gone =>
      rw [hpc] at h
      cases h
  | _ =>
      rw [hpc] at hp
      cases hp

theorem run_succeeds {hosts : List Host} (hp : (s.pc t).succeeds = true)
    (h : run step always s (hosts.map (.resume t)) = some s₂) : (s₂.pc t).succeeds = true := by
  induction hosts generalizing s with
  | nil =>
      cases h
      exact hp
  | cons host hosts ih =>
      obtain ⟨s₁, h₁, h⟩ := resume_of_run h
      exact ih (resume_succeeds h₁ hp) h

/-- A call that has come to its end with `-1` goes no further. -/
theorem run_execRet {hosts : List Host} (hp : s.pc t = .execRet (-1))
    (h : run step always s (hosts.map (.resume t)) = some s₂) (hret : s₂.pc t = .execRet (-1)) :
    s₂ = s := by
  cases hosts with
  | nil =>
      cases h
      rfl
  | cons host hosts =>
      obtain ⟨s₁, h₁, h⟩ := resume_of_run h
      have hu : (s₁.pc t).succeeds = true := by
        simp only [State.resume, hp] at h₁
        split at h₁
        · cases h₁
        · cases h₁
          rw [State.ret, goto_pc_self]
          rfl
      have := run_succeeds hu h
      rw [hret] at this
      cases this

/-- `ExecUpdate` refuses, or makes a PCB in a free slot. -/
theorem execEntered_cases (s : State) (t : Tid) (filename : Option Name) (host : Host) :
    (¬ s.Accepts t filename host ∧ s.execEntered t filename host = s.refuse t) ∨
    (s.Accepts t filename host ∧ ∃ f pid par, s.table.bm.test pid = false ∧
      s.execEntered t filename host = (s.newPCB t f (s.table.bm.mark pid) pid par).P t) := by
  unfold State.execEntered
  split
  · refine .inl ⟨?_, rfl⟩
    rintro ⟨_, ⟨⟩, -⟩
  rename_i f
  split
  · rename_i ho
    refine .inl ⟨?_, rfl⟩
    rintro ⟨_, -, ho', -⟩
    rw [ho] at ho'
    cases ho'
  rename_i ho
  have ho' : host.opened = true := by simpa using ho
  split
  · rename_i hn
    exact .inr ⟨⟨f, rfl, ho', .inl hn⟩, f, 0, none, (BitMap.numClear_eq_all_iff _).mp hn 0, rfl⟩
  rename_i hn
  split
  · rename_i he
    refine .inl ⟨?_, rfl⟩
    rintro ⟨_, ⟨⟩, -, h | ⟨h, -⟩⟩
    · exact hn h
    · exact h he
  rename_i he
  split
  · rename_i hf
    refine .inl ⟨?_, rfl⟩
    rintro ⟨_, -, -, h | ⟨-, h, -⟩⟩
    · exact hn h
    · exact h hf
  rename_i p hf
  split
  · rename_i hfind
    refine .inl ⟨?_, rfl⟩
    rintro ⟨_, -, -, h | ⟨-, -, h⟩⟩
    · exact hn h
    · exact h (by rw [hfind])
  · rename_i pid bm hfind
    obtain ⟨rfl, hbit⟩ := BitMap.find_some hfind
    exact .inr ⟨⟨f, rfl, ho', .inr ⟨he, by rw [hf]; simp, by rw [hfind]; simp⟩⟩, f, pid, some p,
      hbit, rfl⟩

/-- The new `mutex` lets `PCB::Exec` pass. -/
theorem newPCB_P (s : State) (t : Tid) (f : Name) (bm : BitMap MAX_PROCESS) (pid : Pid)
    (par : Option Pid) : ((s.newPCB t f bm pid par).P t).pc t = .execLocked f pid par := by
  have hpc : (s.newPCB t f bm pid par).pc t = .execMutex f pid par := goto_pc_self ..
  have hsem : ((s.newPCB t f bm pid par).pc t).sem = some (.mutex pid) := by rw [hpc]; rfl
  rw [P_pass hsem, goto_pc_self, hpc]
  · rfl
  · simp [State.newPCB, State.goto, Sync.renew]

/-- A call that fails behind its PCB leaves the entry, with its bit clear. -/
theorem failed_behind {f : Name} {pid : Pid} {par : Option Pid} {hosts : List Host}
    (hpc : s.pc t = .execLocked f pid par) (hpcb : s.table.pcb pid = some PCB.new)
    (hrun : run step always s (hosts.map (.resume t)) = some s₂) (hret : s₂.pc t = .execRet (-1)) :
    ¬ s₂.Clean := by
  cases hosts with
  | nil =>
      cases hrun
      rw [hpc] at hret
      cases hret
  | cons host hosts =>
      obtain ⟨s₁, h₁, hrun⟩ := resume_of_run hrun
      simp only [State.resume, hpc, State.execLocked, hpcb] at h₁
      split at h₁
      · -- the second `Open` fails
        cases h₁
        cases hosts with
        | nil =>
            cases hrun
            rw [goto_pc_self] at hret
            cases hret
        | cons host' hosts =>
            obtain ⟨s₁, h₁, hrun⟩ := resume_of_run hrun
            simp only [State.resume, goto_pc_self] at h₁
            cases h₁
            rw [run_execRet (goto_pc_self ..) hrun hret]
            intro hclean
            have := hclean pid (show s.table.pcb pid ≠ none by rw [hpcb]; simp)
            simp [State.goto, State.V] at this
      · cases h₁
        have hsucc := run_succeeds (by
          rcases P_pc (((s.newThread t f pid par).setPcb pid _).goto t (.execAddrLock pid par)) t
            with e | e <;> rw [e]
          · rw [goto_pc_self]
            rfl
          · rw [Function.update_self, goto_pc_self]
            rfl) hrun
        rw [hret] at hsucc
        cases hsucc

/-- **A failed Exec.**  A call of `ExecUpdate` that gets `bmsem` and comes to its end with `-1`
leaves the table, the frames and the semaphores as they were, with no entry of `pcb` that refers to
a deleted PCB, if and only if it is refused before it has made its PCB, and there was no such entry
before. -/
theorem execUpdate_failed_iff {hosts : List Host} (hE : Enters s t filename a)
    (h : step s a = .ok s₁) (hpc : s₁.pc t = .execEntered filename)
    (hrun : run step always s₁ ((host :: hosts).map (.resume t)) = some s₂)
    (hret : s₂.pc t = .execRet (-1)) :
    Unchanged s s₂ ↔ ¬ s.Accepts t filename host ∧ s.Clean := by
  have hen := hE.entered h hpc
  have hacc : s₁.Accepts t filename host ↔ s.Accepts t filename host := by
    unfold State.Accepts
    rw [hen.table, hen.name]
  obtain ⟨x, hx, hrun⟩ := resume_of_run hrun
  simp only [State.resume, hpc] at hx
  cases hx
  rcases execEntered_cases s₁ t filename host with ⟨hno, e⟩ | ⟨hyes, f, pid, par, hbit, e⟩
  · rw [e] at hrun
    obtain rfl : s₂ = s₁.refuse t := run_execRet (goto_pc_self ..) hrun hret
    have htab : (s₁.refuse t).table = s.table := hen.table
    have hclean : (s₁.refuse t).Clean ↔ s.Clean := by
      unfold State.Clean
      rw [htab]
    constructor
    · intro hu
      exact ⟨fun ha => hno (hacc.mpr ha), hclean.mp hu.clean⟩
    · rintro ⟨-, hc⟩
      refine ⟨fun i => by rw [htab], by rw [htab], hclean.mpr hc, hen.frames, ?_, ?_⟩
      · show ((s₁.sync.V .bmsem).sems .bmsem).value = _
        rw [Sync.V_value, hen.bmsem]
      · show ((s₁.sync.V .bmsem).sems .addrLock).value = _
        rw [Sync.V_sems_ne _ (by decide), hen.addrLock]
  · rw [e] at hrun
    refine iff_of_false (fun hu => ?_) fun hr => hr.1 (hacc.mp hyes)
    refine failed_behind (newPCB_P s₁ t f _ pid par) ?_ hrun hret hu.clean
    rw [P_table]
    simp [State.newPCB, State.goto]

end

/-- The root, thread 1, starts. -/
def startRoot : List Action := .boot [97] :: resumes 0 4 ++ resumes 1 2

/-- The file is there for `ExecUpdate` and gone for `PCB::Exec`. -/
def vanishes : List Host := [⟨true, noff⟩, ⟨false, noff⟩, ⟨false, noff⟩]

theorem execUpdate_failed_vanishes : ∃ s s₁ s₂, Reachable s ∧
    Enters s 1 (some [98]) (.exec 1 (some [98])) ∧ step s (.exec 1 (some [98])) = .ok s₁ ∧ s₁.pc 1 = .execEntered (some [98]) ∧
    run step always s₁ (vanishes.map (.resume 1)) = some s₂ ∧ s₂.pc 1 = .execRet (-1) ∧
    s.Clean ∧ s.table.pcb 1 = none ∧ s₂.table.pcb 1 ≠ none ∧ ¬ Unchanged s s₂ := by
  obtain ⟨s, hs, hp⟩ := (Option.any_eq_true ..).mp (show (run step always (init fun _ => 0)
    startRoot).any (fun s => s.Clean ∧ s.table.pcb 1 = none ∧
      (step s (.exec 1 (some [98]))).toOption.any fun s₁ => s₁.pc 1 = .execEntered (some [98]) ∧
        (run step always s₁ (vanishes.map (.resume 1))).any fun s₂ =>
          s₂.pc 1 = .execRet (-1) ∧ s₂.table.pcb 1 ≠ none) = true by decide +kernel)
  obtain ⟨hclean, hnone, hex⟩ := of_decide_eq_true hp
  obtain ⟨s₁, h₁, hp₁⟩ := (Option.any_eq_true ..).mp hex
  obtain ⟨hpc, hrun⟩ := of_decide_eq_true hp₁
  obtain ⟨s₂, h₂, hp₂⟩ := (Option.any_eq_true ..).mp hrun
  obtain ⟨hret, hsome⟩ := of_decide_eq_true hp₂
  exact ⟨s, s₁, s₂, ⟨_, Steps.of_run hs⟩, .exec, toOption_some h₁, hpc, h₂, hret, hclean, hnone, hsome,
    fun hu => hsome (by rw [hu.pcb]; exact hnone)⟩

/-- A call for a file that is not there. -/
theorem execUpdate_failed_noFile : ∃ s s₁ s₂, Reachable s ∧
    step s (.exec 1 (some [98])) = .ok s₁ ∧
    run step always s₁ ([⟨false, noff⟩].map (.resume 1)) = some s₂ ∧ s₂.pc 1 = .execRet (-1) ∧
    Unchanged s s₂ := by
  obtain ⟨s, hs, hp⟩ := (Option.any_eq_true ..).mp (show (run step always (init fun _ => 0)
    startRoot).any (fun s => s.Clean ∧
      (step s (.exec 1 (some [98]))).toOption.any fun s₁ => s₁.pc 1 = .execEntered (some [98]) ∧
        (run step always s₁ ([⟨false, noff⟩].map (.resume 1))).any fun s₂ =>
          s₂.pc 1 = .execRet (-1)) = true by decide +kernel)
  obtain ⟨hclean, hex⟩ := of_decide_eq_true hp
  obtain ⟨s₁, h₁, hp₁⟩ := (Option.any_eq_true ..).mp hex
  obtain ⟨hpc, hrun⟩ := of_decide_eq_true hp₁
  obtain ⟨s₂, h₂, hp₂⟩ := (Option.any_eq_true ..).mp hrun
  have hret := of_decide_eq_true hp₂
  refine ⟨s, s₁, s₂, ⟨_, Steps.of_run hs⟩, toOption_some h₁, h₂, hret, ?_⟩
  refine (execUpdate_failed_iff .exec (toOption_some h₁) hpc h₂ hret).mpr ⟨?_, hclean⟩
  rintro ⟨_, -, ⟨⟩, -⟩

/-! ### Any file -/

/-- The thread `t`, in `ExecUpdate`, goes on: nothing aborts, and if it makes the address space of
the new thread, the constructor reads its page table and writes memory only inside that space. -/
def State.ExecSafe (s : State) (t : Tid) (host : Host) : Prop :=
  ∃ s', step s (.resume t host) = .ok s' ∧ ∀ pid parentid, s.pc t = .execSpace pid parentid →
    ∃ thread space, s.holder pid = some thread ∧ s'.spaces thread = some space ∧
      ∀ r ∈ host.file.noffHeader.code.reads ++ host.file.noffHeader.initData.reads,
        r.Safe host.file space.pageTable

section
variable {s : State} {t : Tid} {host : Host}

/-- The constructor of `AddrSpace`, for the thread that has been made. -/
theorem execSpace_safe_iff {i : Pid} {par : Option Pid} (hI : Inv s)
    (hstep : step s (.resume t host) = s.resume t host) (hpc : s.pc t = .execSpace i par) :
    s.ExecSafe t host ↔ host.file.Loadable s.gPhysPageBitMap := by
  have hph : (s.pc t).phase = s.ph t := rfl
  rw [hpc] at hph
  obtain ⟨b, c, hb, hbc⟩ := hI.hatching_slot hph.symm
  have hhold : s.holder i = some c := by rw [State.holder, hb]; exact hbc
  have hhold' : (s.table.pcb i).bind PCB.thread = some c := hhold
  have hres : step s (.resume t host) = s.execSpace t i par host := by
    rw [hstep, State.resume, hpc]
  rw [State.execSpace, hhold'] at hres
  dsimp only at hres
  constructor
  · rintro ⟨s', hs', hsp⟩
    rw [hres] at hs'
    split at hs'
    · cases hs'
    rename_i sp phys hbuild
    cases hs'
    obtain ⟨c', sp', hc', hsp', hr⟩ := hsp i par hpc
    cases hhold.symm.trans hc'
    replace hsp' : Function.update s.spaces c (some sp) c = some sp' := hsp'
    rw [Function.update_self] at hsp'
    cases hsp'
    exact (safe_iff ..).mp ⟨sp, phys, hbuild, hr⟩
  · intro hl
    obtain ⟨sp, phys, hbuild, hr⟩ := (safe_iff ..).mpr hl
    rw [hbuild] at hres
    refine ⟨_, hres, fun pid par' e => ?_⟩
    cases hpc.symm.trans e
    exact ⟨c, sp, hhold, Function.update_self .., hr⟩

/-- At every other place of the call there is nothing that could stop it. -/
theorem resume_exec (h : Reachable s) (hx : (s.pc t).inExec = true) (hc : s.calls t ≠ 0)
    (hne : ∀ pid par, s.pc t ≠ .execSpace pid par) (host : Host) :
    ∃ s', s.resume t host = .ok s' := by
  have hI := reachable_inv h
  have hcall := (reachable_callInv h).ok t
  have hph : (s.pc t).phase = s.ph t := rfl
  cases hpc : s.pc t with
  | execSpace i par => exact absurd hpc (hne i par)
  | execLocked f i par =>
      rw [hpc] at hph
      simp only [State.resume, hpc, State.execLocked, (hI.table.building t i par hph.symm).1]
      split <;> exact ⟨_, rfl⟩
  | execBuilt i par =>
      rw [hpc] at hph
      obtain ⟨b, c, hb, hbc⟩ := hI.hatching_slot hph.symm
      simp only [State.resume, hpc, State.execBuilt, hb, hbc]
      split <;> exact ⟨_, rfl⟩
  | execUnlocked i par =>
      rw [hpc] at hph hcall
      obtain ⟨j, rfl⟩ := Option.ne_none_iff_exists'.mp fun e => hc (hcall.mpr e)
      obtain ⟨b, hb, -⟩ := hI.table.owns t j (hI.table.hatched t j hph.symm)
        (by rw [← hph]; simp [PC.phase])
      simp only [State.resume, hpc, State.execUnlocked, hb]
      exact ⟨_, rfl⟩
  | execRet r =>
      rw [hpc] at hcall
      simp only [State.resume, hpc, if_neg fun e => hc (hcall.mpr e)]
      exact ⟨_, rfl⟩
  | execBmsem f | execEntered f | execFailed i par | execForked i par | bootRet
  | execMutex f i par | execAddrLock i par =>
      simp only [State.resume, hpc]
      exact ⟨_, rfl⟩
  | _ =>
      rw [hpc] at hx
      cases hx

/-- **Exec on any file.**  At every moment of a call of `SyscallExec`, in every reachable state and
whatever the host answers: the call goes on safely, if and only if it is not about to load a file
that is not loadable. -/
theorem syscallExec_safe_iff (h : Reachable s) (hh : s.halted = false)
    (ht : s.sync.status t = .ready) (hx : (s.pc t).inExec = true) (hc : s.calls t ≠ 0)
    (host : Host) : s.ExecSafe t host ↔
      ∀ pid parentid, s.pc t = .execSpace pid parentid →
        host.file.Loadable s.gPhysPageBitMap := by
  have hstep : step s (.resume t host) = s.resume t host := by
    simp [step, hh, ht]
  by_cases hspace : ∃ i par, s.pc t = .execSpace i par
  · obtain ⟨i, par, hpc⟩ := hspace
    rw [execSpace_safe_iff (reachable_inv h) hstep hpc]
    exact ⟨fun hl _ _ _ => hl, fun hl => hl i par hpc⟩
  · have hne : ∀ pid par, s.pc t ≠ .execSpace pid par := fun pid par e => hspace ⟨pid, par, e⟩
    obtain ⟨s', hs'⟩ := resume_exec h hx hc hne host
    exact iff_of_true ⟨s', hstep.trans hs', fun pid par e => absurd e (hne pid par)⟩
      fun pid par e => absurd e (hne pid par)

end

/-- A step that an `ASSERT` aborts. -/
def isAssert {α : Type} : Except Stop α → Bool
  | .error .assertFails => true
  | _ => false

theorem isAssert_eq {α : Type} {x : Except Stop α} (h : isAssert x = true) :
    x = .error .assertFails := by
  unfold isAssert at h
  split at h
  · rfl
  · cases h

/-- The root has called `Exec` and is about to load the file. -/
def loadsChild : List Action := startRoot ++ .exec 1 (some [98]) :: resumes 1 2

/-- On a text file the constructor aborts. -/
theorem syscallExec_text : ∃ s, run step always (init fun _ => 0) loadsChild = some s ∧
    Reachable s ∧ s.halted = false ∧ s.sync.status 1 = .ready ∧ (s.pc 1).inExec = true ∧
    s.calls 1 ≠ 0 ∧
    step s (.resume 1 ⟨true, ⟨[104, 101, 108, 108, 111], fun _ => 0⟩⟩) = .error .assertFails ∧
    ¬ s.ExecSafe 1 ⟨true, ⟨[104, 101, 108, 108, 111], fun _ => 0⟩⟩ := by
  obtain ⟨s, hs, hp⟩ := (Option.any_eq_true ..).mp (show (run step always (init fun _ => 0)
    loadsChild).any (fun s => s.halted = false ∧ s.sync.status 1 = .ready ∧
      (s.pc 1).inExec = true ∧ s.calls 1 ≠ 0 ∧ isAssert
        (step s (.resume 1 ⟨true, ⟨[104, 101, 108, 108, 111], fun _ => 0⟩⟩))) = true by
      decide +kernel)
  obtain ⟨h₁, h₂, h₃, h₄, h₅⟩ := of_decide_eq_true hp
  refine ⟨s, hs, ⟨_, Steps.of_run hs⟩, h₁, h₂, h₃, h₄, isAssert_eq h₅, ?_⟩
  rintro ⟨s', hs', -⟩
  rw [isAssert_eq h₅] at hs'
  cases hs'

theorem syscallExec_safe_noff : ∃ s, run step always (init fun _ => 0) loadsChild = some s ∧
    s.pc 1 = .execSpace 1 (some 0) ∧ s.ExecSafe 1 ⟨true, noff⟩ := by
  obtain ⟨s, hs, hp⟩ := (Option.any_eq_true ..).mp (show (run step always (init fun _ => 0)
    loadsChild).any (fun s => s.halted = false ∧ s.sync.status 1 = .ready ∧
      s.pc 1 = .execSpace 1 (some 0) ∧ s.calls 1 ≠ 0 ∧ noff.Loadable s.gPhysPageBitMap) = true by
      decide +kernel)
  obtain ⟨h₁, h₂, h₃, h₄, h₅⟩ := of_decide_eq_true hp
  exact ⟨s, hs, h₃, (syscallExec_safe_iff ⟨_, Steps.of_run hs⟩ h₁ h₂ (by rw [h₃]; rfl) h₄ _).mpr
    fun _ _ _ => h₅⟩

end Nachos.Proc
