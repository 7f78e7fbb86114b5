import Nachos.Threads.ExitInv

/-!
# Threads — the process table in every run

What the table looks like at a scheduling point of any run in which the two `Open`s of one
`ExecUpdate` agree.  Without this condition one thing fails: a `PCB::Exec` that does not find the
file leaves a deleted PCB in `pcb` behind a clear bit.
-/

namespace Nachos.Proc
open Lib

/-- The second `Open` of an `ExecUpdate` finds the file, as the first one did. -/
def OpensAgree (s : State) (a : Action) : Prop := (a.input s).opened = true

instance (s : State) (a : Action) : Decidable (OpensAgree s a) :=
  inferInstanceAs (Decidable (_ = _))

/-- Inside `ExecUpdate`. -/
def PC.inExec : PC → Bool
  | execBmsem _ | execEntered _ | execMutex _ _ _ | execLocked _ _ _ | execFailed _ _ => true
  | execAddrLock _ _ | execSpace _ _ | execBuilt _ _ | execForked _ _ | execUnlocked _ _ => true
  | execRet _ | bootRet => true
  | _ => false

/-- A `PCB::Exec` on the slot has not made its thread yet. -/
def UnderConstruction (s : State) (i : Pid) : Prop := ∃ t par, s.ph t = .building i par

/-- The process table at a scheduling point. -/
structure TableOk (s : State) : Prop where
  bit : ∀ i, s.table.bm.test i = true ↔ s.table.pcb i ≠ none
  distinct : ∀ i j b d c, s.table.pcb i = some b → s.table.pcb j = some d →
    b.thread = some c → d.thread = some c → i = j
  root : ∀ i b, s.table.pcb i = some b → b.parentID = none → i = 0 ∨ UnderConstruction s i
  /-- A process before its `DecNumWait` is the root, or its `parentID` names the live slot of the
  process that made it. -/
  parent : ∀ i b c, s.table.pcb i = some b → b.thread = some c → (s.ph c).undec = true →
    (s.table.parent c = none ∧ i = 0) ∨
      ∃ j d p, b.parentID = some j ∧ s.table.pcb j = some d ∧ d.thread = some p ∧
        s.table.parent c = some p
  numwait : ∀ i b p, s.table.pcb i = some b → b.thread = some p → (s.pc p).inExec = false →
    b.numwait = (s.undec p).card

section
variable {s s' : State} {t p c x : Tid} {i j : Pid} {b : PCB}

/-! ### Filled slots -/

theorem Inv.holder_eq (h : Inv s) (hpid : s.table.pidOf x = some i) (hd : s.ph x ≠ .dead) :
    s.holder i = some x := by
  obtain ⟨b, hb, hbx⟩ := h.table.owns x i hpid hd
  rw [State.holder, hb]
  exact hbx

theorem Inv.pid_of_holder (h : Inv s) (hx : s.holder i = some x) :
    s.table.pidOf x = some i ∧ s.ph x ≠ .dead := by
  obtain ⟨b, hb, hbx⟩ := Option.bind_eq_some_iff.mp hx
  obtain ⟨h₁, h₂, -⟩ := h.table.slot i b x hb hbx
  exact ⟨h₁, h₂⟩

/-- No `PCB::Exec` has failed, and every slot that is filled has its bit. -/
structure Filled (s : State) : Prop where
  failed : ∀ t i par, s.pc t ≠ .execFailed i par
  bit : ∀ i, s.table.pcb i ≠ none → s.table.bm.test i = true

/-- One thread moves, and no slot is filled. -/
theorem Filled.goto {q : PC} (h : Filled s) (hpc : s'.pc = Function.update s.pc t q)
    (hq : ∀ i par, q ≠ .execFailed i par) (hbm : s'.table.bm = s.table.bm)
    (hpcb : ∀ i, s'.table.pcb i ≠ none → s.table.pcb i ≠ none) : Filled s' := by
  refine ⟨fun u i par => ?_, fun i hi => hbm ▸ h.bit i (hpcb i hi)⟩
  rw [hpc]
  by_cases e : u = t
  · rw [e, Function.update_self]; exact hq i par
  · rw [Function.update_of_ne e]; exact h.failed u i par

/-- One thread moves and writes to a PCB. -/
theorem Filled.setPcb {q : PC} {b' : PCB} (h : Filled s) (hpc : s'.pc = Function.update s.pc t q)
    (hq : ∀ i par, q ≠ .execFailed i par) (htab : s'.table = s.table.setPcb j b')
    (hb : s.table.pcb j = some b) : Filled s' := by
  refine h.goto hpc hq (by rw [htab]; rfl) fun i hi => ?_
  rw [htab] at hi
  by_cases e : i = j
  · rw [e, hb]; simp
  · rwa [Table.setPcb_pcb, Function.update_of_ne e] at hi

theorem Filled.P (h : Filled s) : Filled (s.P t) := by
  have hsame : ∀ y, Filled { s with sync := y } := fun y => ⟨h.failed, h.bit⟩
  cases hsem : (s.pc t).sem with
  | none => rw [P_none hsem]; exact h
  | some r =>
      by_cases hv : (s.sync.sems r).value = 0
      · rw [P_block hsem hv]; exact hsame _
      · rw [P_pass hsem hv]
        refine Filled.goto (hsame _) rfl (fun i par => ?_) rfl fun i hi => hi
        revert hsem
        cases s.pc t <;> simp [PC.sem, PC.afterP]

/-- Where the host has answered the second `Open` as the first, every piece keeps the slots
filled. -/
theorem piece_filled {o : Input} (ho : o.opened = true) (h : Inv s) (hp : Piece t o s s')
    (hf : Filled s) : Filled s' := by
  cases hp with
  | halt | touch | V => exact ⟨hf.failed, hf.bit⟩
  | call | refused | ret | joinRet | bootInc | space | pass | skip =>
      exact hf.goto rfl (fun _ _ e => by cases e) rfl fun _ hi => hi
  | exec hq =>
      refine hf.goto rfl (fun i par e => ?_) rfl fun _ hi => hi
      subst e
      generalize s.pc t = pc at hq
      cases hq with
      | noOpen ho' => rw [ho] at ho'; cases ho'
  | P => exact hf.P
  | @newPCB f k par =>
      refine ⟨fun u i q => ?_, fun i hn => ?_⟩
      · by_cases e : u = t
        · rw [e]
          exact fun e' => by rw [State.newPCB, goto_pc_self] at e'; cases e'
        · rw [State.newPCB, goto_pc_ne _ _ e]
          exact hf.failed u i q
      · show (s.table.bm.mark k).test i = true
        by_cases e : i = k
        · simp [e]
        · replace hn : Function.update s.table.pcb k (some PCB.new) i ≠ none := hn
          rw [Function.update_of_ne e] at hn
          simp [hf.bit i hn]
  | @newThread f k par b hpc =>
      have hb := (h.table.building t k par (by rw [State.ph, hpc]; rfl)).1
      have hnew : Filled (s.newThread t f k par) :=
        hf.goto rfl (fun _ _ e => by cases e) rfl fun _ hi => hi
      exact hnew.setPcb (j := k) rfl (fun _ _ e => by cases e) rfl hb
  | fail hpc => exact absurd hpc (hf.failed t _ _)
  | @fork i j c =>
      have hc : Filled ((s.wake c).goto c .user) :=
        hf.goto rfl (fun _ _ e => by cases e) rfl fun _ hi => hi
      exact hc.goto rfl (fun _ _ e => by cases e) rfl fun _ hi => hi
  | @takeOver i c =>
      have hg : Filled ((s.wake c).goto t .gone) :=
        hf.goto rfl (fun _ _ e => by cases e) rfl fun _ hi => hi
      exact hg.goto rfl (fun _ _ e => by cases e) rfl fun _ hi => hi
  | inc hpc hb | joinRelease hpc hb | exitRelease hpc hb | dec hpc hb =>
      exact hf.setPcb rfl (fun _ _ e => by cases e) rfl hb
  | joinWait _ hu hj hb => exact (hf.setPcb rfl (fun _ _ e => by cases e) rfl hb).P
  | exitWait hu hj hb => exact (hf.setPcb rfl (fun _ _ e => by cases e) rfl hb).P
  | @finish ec k =>
      refine ⟨fun u i q => ?_, fun i hn => ?_⟩
      · by_cases e : u = t
        · rw [e]
          exact fun e' => by rw [State.exitReleased, goto_pc_self] at e'; cases e'
        · rw [State.exitReleased, goto_pc_ne _ _ e]
          exact hf.failed u i q
      · show (s.table.bm.clear k).test i = true
        replace hn : Function.update s.table.pcb k none i ≠ none := hn
        have e : i ≠ k := fun e => by rw [e, Function.update_self] at hn; exact hn rfl
        rw [Function.update_of_ne e] at hn
        simp [e, hf.bit i hn]

theorem step_filled {a : Action} (h : Inv s) (ha : OpensAgree s a) (hok : step s a = .ok s')
    (hf : Filled s) : Filled s' :=
  step_keeps h hok (fun _ _ hx _ hp hfx => piece_filled ha hx hp hfx) hf

/-! ### The table -/

/-- A slot whose bit is set is filled. -/
theorem Inv.pcb_of_bit (h : Inv s) (hi : s.table.bm.test i = true) : s.table.pcb i ≠ none := by
  rcases (h.table.bit i).mp hi with ⟨c, hc, hd⟩ | ⟨t, par, ht⟩
  · obtain ⟨b, hb, -⟩ := h.table.owns c i hc hd
    rw [hb]; simp
  · rw [(h.table.building t i par ht).1]; simp

theorem Inv.tableOk (h : Inv s) (hf : Filled s) : TableOk s := by
  refine ⟨fun i => ⟨h.pcb_of_bit, hf.bit i⟩, fun i j b d c hb hd hc hc' => ?_,
    fun i b hb hp => ?_, fun i b c hb hc hu => ?_, fun i b p hb hp he => ?_⟩
  · have h₁ := (h.table.slot i b c hb hc).1
    rw [(h.table.slot j d c hd hc').1] at h₁
    exact (Option.some.inj h₁).symm
  · rcases (h.table.bit i).mp (hf.bit i (by rw [hb]; simp)) with ⟨c, hc, hd⟩ | hcon
    · obtain ⟨-, -, hpar⟩ := h.table.slot i b c hb (h.table.pcb_of_pid hc hd hb)
      rw [hp] at hpar
      cases hq : s.table.parent c with
      | none => exact .inl (h.table.root c i hq hc)
      | some q =>
          rw [hq] at hpar
          exact absurd hpar.symm (h.table.parent c q hq).2
    · exact .inr hcon
  · obtain ⟨hpid, -, hpar⟩ := h.table.slot i b c hb hc
    cases hq : s.table.parent c with
    | none => exact .inl ⟨rfl, h.table.root c i hq hpid⟩
    | some q =>
        obtain ⟨-, -, j, d, hj, hd, hdq⟩ := h.table.live_parent hq hu
        rw [hq] at hpar
        exact .inr ⟨j, d, q, hpar.trans hj, hd, hdq, rfl⟩
  · have hn := h.table.numwait i b p hb hp
    have h0 : (s.ph p).pend = 0 := by
      unfold State.ph
      revert he
      cases s.pc p <;> simp [PC.inExec, PC.phase, Phase.pend]
    rw [h0] at hn
    simpa [State.undec] using hn

/-! ### No null pointer -/

/-- The slot of a process that is waiting for its new thread holds that thread. -/
theorem Inv.hatching_slot {par : Option Pid} (h : Inv s) (ht : s.ph t = .hatching i par) :
    ∃ b c, s.table.pcb i = some b ∧ b.thread = some c := by
  obtain ⟨-, c, hc, hpid, -⟩ := h.table.hatching t i par ht
  obtain ⟨b, hb, hbc⟩ := h.table.owns c i hpid (by rw [hc]; decide)
  exact ⟨b, c, hb, hbc⟩

/-- The slot a process before its `DecNumWait` knows as its parent's is filled. -/
theorem Inv.parent_pcb (h : Inv s) (ht : (s.ph t).undec = true)
    (hp : (s.pc t).exitPar = some (some j)) : s.table.pcb j ≠ none := by
  obtain ⟨p, hpar, hpj⟩ := Option.bind_eq_some_iff.mp (h.exitPar t (some j) hp).symm
  obtain ⟨-, -, k, d, hk, hd, -⟩ := h.table.live_parent hpar ht
  rw [hpj] at hk
  cases hk
  rw [hd]
  simp

theorem execSpace_ne_nullDeref {par : Option Pid} {host : Host} (h : Inv s)
    (ht : s.ph t = .hatching i par) : s.execSpace t i par host ≠ .error .nullDeref := by
  obtain ⟨b, c, hb, hbc⟩ := h.hatching_slot ht
  have hc : (s.table.pcb i).bind PCB.thread = some c := by rw [hb]; exact hbc
  rw [State.execSpace, hc]
  dsimp only
  split
  · rename_i he
    rintro ⟨⟩
    exact build_ne_nullDeref _ _ he
  · simp

theorem execBuilt_ne_nullDeref {par : Option Pid} (h : Inv s) (ht : s.ph t = .hatching i par) :
    s.execBuilt t i par ≠ .error .nullDeref := by
  obtain ⟨b, c, hb, hbc⟩ := h.hatching_slot ht
  rw [State.execBuilt, hb]
  dsimp only
  rw [hbc]
  dsimp only
  split <;> simp

theorem exitJoinReleased_ne_nullDeref {ec : Int} (hb : s.table.pcb j ≠ none) :
    s.exitJoinReleased t ec i j ≠ .error .nullDeref := by
  unfold State.exitJoinReleased
  split
  · rename_i hn; exact absurd hn hb
  · dsimp only
    split <;> simp

theorem exitWaited_ne_nullDeref {ec : Int} {par : Option Pid}
    (hb : ∀ j, par = some j → s.table.pcb j ≠ none) :
    s.exitWaited t ec i par ≠ .error .nullDeref := by
  unfold State.exitWaited
  split
  · simp
  · split
    · rename_i p _ hn; exact absurd hn (hb p rfl)
    · split
      · simp
      · exact exitJoinReleased_ne_nullDeref (hb _ rfl)

theorem exitUpdate_ne_nullDeref {ec : Int} (h : Inv s) (hu : s.InUser t) :
    s.exitUpdate t ec ≠ .error .nullDeref := by
  have hd : s.ph t ≠ .dead := by rw [State.ph, hu.2]; decide
  unfold State.exitUpdate
  rw [h.table.find_eq hd]
  split
  · simp
  · rename_i j hj
    obtain ⟨b, hb, hbt⟩ := h.table.owns t j hj hd
    rw [hb]
    dsimp only
    split
    · simp
    · refine exitWaited_ne_nullDeref fun k hk => ?_
      rw [(h.table.slot j b t hb hbt).2.2] at hk
      obtain ⟨p, hpar, hpk⟩ := Option.bind_eq_some_iff.mp hk
      obtain ⟨-, -, k', d, hk', hd', -⟩ :=
        h.table.live_parent hpar (by rw [State.ph, hu.2]; rfl)
      rw [hpk] at hk'
      cases hk'
      show s.table.pcb k ≠ none
      rw [hd']
      simp

theorem joinUpdate_ne_nullDeref {id : Int} (h : Inv s) (hu : s.InUser t) :
    s.joinUpdate t id ≠ .error .nullDeref := by
  have hd : s.ph t ≠ .dead := by rw [State.ph, hu.2]; decide
  unfold State.joinUpdate
  split
  · dsimp only
    split
    · simp
    · rename_i hbit
      rw [h.table.find_eq hd]
      split
      · simp
      · rename_i j hj
        obtain ⟨b, hb, -⟩ := h.table.owns t j hj hd
        split
        · rename_i hn
          exact absurd hn (h.pcb_of_bit (by simpa using hbit))
        · rw [hb]
          dsimp only
          split
          · simp
          · split <;> simp
  · simp

theorem resume_ne_nullDeref {host : Host} (h : Inv s) : s.resume t host ≠ .error .nullDeref := by
  unfold State.resume
  have hph : (s.pc t).phase = s.ph t := rfl
  split <;> rename_i hpc <;> rw [hpc] at hph <;> try simp
  · rw [State.execLocked, (h.table.building t _ _ hph.symm).1]
    dsimp only
    split <;> simp
  · exact execSpace_ne_nullDeref h hph.symm
  · exact execBuilt_ne_nullDeref h hph.symm
  · rename_i i par
    cases par with
    | none => simp [State.execUnlocked]
    | some j =>
        obtain ⟨b, hb, -⟩ := h.table.owns t j (h.table.hatched t j hph.symm)
          (by rw [← hph]; simp [PC.phase])
        simp [State.execUnlocked, hb]
  · split <;> simp
  · rename_i j i c
    obtain ⟨-, -, b, hb, -⟩ := h.own (t := t) (j := j) (by rw [hpc]; rfl)
    simp [State.joinWoken, hb]
  · refine exitWaited_ne_nullDeref fun j hj => h.parent_pcb (by rw [← hph]; rfl) ?_
    rw [hpc, ← hj]
    rfl
  · exact exitJoinReleased_ne_nullDeref (h.parent_pcb (by rw [← hph]; rfl) (by rw [hpc]; rfl))

theorem step_ne_nullDeref {a : Action} (h : Inv s) : step s a ≠ .error .nullDeref := by
  have hcalled : ∀ t, Inv (s.called t) := fun t => h.congr rfl rfl rfl
  unfold step
  split
  · simp
  cases a with
  | boot f | exec t f | halt t =>
      dsimp only
      split <;> simp
  | join t id =>
      dsimp only
      split
      · rename_i hu; exact joinUpdate_ne_nullDeref (hcalled t) hu
      · simp
  | exit t ec =>
      dsimp only
      split
      · rename_i hu; exact exitUpdate_ne_nullDeref (hcalled t) hu
      · simp
  | touch t pageTable =>
      dsimp only
      split
      · simp
      split
      · split <;> simp
      · simp
  | resume t host =>
      dsimp only
      split
      · exact resume_ne_nullDeref h
      · simp

/-! ### Every run -/

/-- Every run in which the two `Open`s of an `ExecUpdate` agree keeps the slots filled. -/
theorem run_filled {heap : Nat → BitVec 32} (h : Steps step OpensAgree (init heap) s) :
    Inv s ∧ Filled s := by
  refine h.inv (I := fun s => Inv s ∧ Filled s)
    ⟨init_inv heap, fun t i par => ?_, fun i hi => absurd rfl hi⟩
    fun _ _ _ hI ha hok => ⟨step_inv hI.1 hok, step_filled hI.1 ha hok hI.2⟩
  simp only [init, Function.update_apply]
  split <;> simp

/-- **The process table.**  At every scheduling point of every run in which the two `Open`s of an
`ExecUpdate` agree: a bit of `bm` is set iff its slot is filled; no two slots hold one thread; only
the root, in slot 0, has no parent, but for a PCB under construction; a process before its
`DecNumWait` has a `parentID` that names its parent's slot; and outside `ExecUpdate` `numwait`
counts the children before their `DecNumWait`.  No step goes through an empty slot of `pcb`. -/
theorem processTable_ok {heap : Nat → BitVec 32} (h : Steps step OpensAgree (init heap) s) :
    TableOk s ∧ ∀ a, step s a ≠ .error .nullDeref := by
  obtain ⟨hI, hf⟩ := run_filled h
  exact ⟨hI.tableOk hf, fun _ => step_ne_nullDeref hI⟩

end

/-! ### A run

The smallest executable is a header that has the magic number and asks for no segment. -/

def noff : Executable := ⟨[0xad, 0xdf, 0xba, 0x00], fun _ => 0⟩

/-- The thread goes on `n` times, on a host that has the file. -/
def resumes (t : Tid) (n : Nat) : List Action := List.replicate n (.resume t ⟨true, noff⟩)

/-- The root, thread 1, starts and starts a child, thread 2. -/
def startChild : List Action :=
  .boot [97] :: resumes 0 4 ++ resumes 1 2 ++ .exec 1 (some [98]) :: resumes 1 7

/-- The table when the child has been started. -/
theorem processTable_ok_startChild : ∃ s,
    run step OpensAgree (init fun _ => 0) startChild = some s ∧
      (s.table.pcb 1).bind PCB.parentID = some 0 ∧ (s.table.pcb 0).map PCB.numwait = some 1 ∧
      TableOk s ∧ ∀ a, step s a ≠ .error .nullDeref := by
  obtain ⟨s, hs, hp⟩ := (Option.any_eq_true ..).mp (show (run step OpensAgree (init fun _ => 0)
    startChild).any (fun s => (s.table.pcb 1).bind PCB.parentID = some 0 ∧
      (s.table.pcb 0).map PCB.numwait = some 1) = true by decide +kernel)
  obtain ⟨h₁, h₂⟩ := of_decide_eq_true hp
  exact ⟨s, hs, h₁, h₂, processTable_ok (Steps.of_run hs)⟩

end Nachos.Proc
