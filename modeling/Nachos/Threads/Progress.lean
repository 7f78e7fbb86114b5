import Nachos.Lib.Lock
import Nachos.Threads.Exec
import Nachos.Threads.Exit
import Nachos.Threads.Join

/-!
# Threads — Progress

The processes do not deadlock (`processes_goOn`).  A thread sleeps in the kernel for one of the locks
`bmsem`, `mutex` and `addrLock`, for a child in `JoinWait`, or for its children in `ExitWait`.  The
first is held by a thread that never sleeps while it holds it, and the other two are passed at once
by whoever holds `bmsem` (`LockInv`); and a child is younger than its parent.  So the youngest
process does not sleep for another, unless it joins a child that has released it before.
-/

namespace Nachos.Proc
open Lib

/-! ### The locks -/

/-- How a thread stands to the locks of the kernel. -/
inductive Stage where
  | idle
  /-- In `bmsem->P()`. -/
  | asks
  /-- Behind it, up to `bmsem->V()`. -/
  | locked
  /-- Behind `addrLock->P()` as well, up to `addrLock->V()`. -/
  | loading
  /-- In `mutex->P()` or `addrLock->P()`. -/
  | passing
  deriving DecidableEq

def PC.stage : PC → Stage
  | execBmsem _ => .asks
  | execEntered _ | execLocked _ _ _ | execFailed _ _ => .locked
  | execBuilt _ _ | execForked _ _ | execUnlocked _ _ => .locked
  | execSpace _ _ => .loading
  | execMutex _ _ _ | execAddrLock _ _ => .passing
  | _ => .idle

def State.stage (s : State) (t : Tid) : Stage := (s.pc t).stage

/-- `bmsem` and `addrLock` are locks, nobody sleeps in `mutex->P()` or `addrLock->P()`, and when
`bmsem` is free and threads sleep for it then one of them has been woken. -/
structure LockInv (stage : Tid → Stage) (y : Sync SemRef) : Prop where
  bmsem : Lock (fun t => stage t = .locked ∨ stage t = .loading) (y.sems .bmsem).value
  addrLock : Lock (fun t => stage t = .loading) (y.sems .addrLock).value
  passing : ∀ t, stage t ≠ .passing
  woken : (y.sems .bmsem).value ≠ 0 → (y.sems .bmsem).queue ≠ [] →
    ∃ u, stage u = .asks ∧ y.status u = .ready

/-- A property of the stages that one thread keeps, all keep. -/
theorem update_iff {stage : Tid → Stage} {t : Tid} {x : Stage} {P : Stage → Prop}
    (h : P x ↔ P (stage t)) (u : Tid) : P (Function.update stage t x u) ↔ P (stage u) := by
  by_cases e : u = t
  · rw [e, Function.update_self]
    exact h
  · rw [Function.update_of_ne e]

theorem passing_update {stage : Tid → Stage} {t : Tid} {x : Stage}
    (h : ∀ u, stage u ≠ .passing) (hx : x ≠ .passing) (u : Tid) :
    Function.update stage t x u ≠ .passing := fun hu =>
  h u ((update_iff (P := fun x => x = .passing) (iff_of_false hx (h t)) u).mp hu)

/-- What a step apart from the locks leaves. -/
structure Apart (s s' : State) : Prop where
  stage : ∀ u, s'.stage u = s.stage u
  bmsem : s'.sync.sems .bmsem = s.sync.sems .bmsem
  addrLock : s'.sync.sems .addrLock = s.sync.sems .addrLock
  status : ∀ u, s.stage u = .asks → s'.sync.status u = s.sync.status u

section
variable {s s' s₁ s₂ : State} {t c u : Tid} {q : PC} {r : SemRef} {y : Sync SemRef}
  {f : Option Name}

theorem Apart.of (hpc : s'.pc = s.pc) (hsync : s'.sync = s.sync) : Apart s s' :=
  ⟨fun u => by rw [State.stage, hpc]; rfl, by rw [hsync], by rw [hsync], fun u _ => by rw [hsync]⟩

theorem Apart.trans (h₁ : Apart s s₁) (h₂ : Apart s₁ s₂) : Apart s s₂ :=
  ⟨fun u => (h₂.stage u).trans (h₁.stage u), h₂.bmsem.trans h₁.bmsem,
    h₂.addrLock.trans h₁.addrLock, fun u hu =>
      (h₂.status u ((h₁.stage u).trans hu)).trans (h₁.status u hu)⟩

theorem stage_goto (s : State) (t : Tid) (q : PC) :
    (s.goto t q).stage = Function.update s.stage t q.stage := by
  funext u
  show (Function.update s.pc t q u).stage = _
  by_cases e : u = t
  · rw [e, Function.update_self, Function.update_self]
  · rw [Function.update_of_ne e, Function.update_of_ne e]
    rfl

theorem Apart.goto (hq : q.stage = s.stage t) : Apart s (s.goto t q) := by
  refine ⟨fun u => ?_, rfl, rfl, fun _ _ => rfl⟩
  rw [stage_goto, hq, Function.update_eq_self]

/-- Who sleeps for another semaphore does not ask for `bmsem`. -/
def Queued (s : State) : Prop :=
  ∀ r u, u ∈ (s.sync.sems r).queue → s.stage u = .asks → r = .bmsem

theorem Inv.queued (h : Inv s) : Queued s := by
  intro r u hm hu
  have hw := ((h.sync.mem r u).mp hm).2
  unfold State.waits at hw
  unfold State.stage at hu
  cases hpc : s.pc u <;> rw [hpc] at hw hu <;> simp_all [PC.stage, PC.sem]

theorem Queued.goto (h : Queued s) (hq : q.stage = s.stage t) : Queued (s.goto t q) :=
  fun r u hm hu => h r u hm ((Apart.goto hq).stage u ▸ hu)

/-- The `V` of another semaphore does not wake who asks for `bmsem`. -/
theorem Queued.V (h : Queued s) (hb : r ≠ .bmsem) (hu : s.stage u = .asks) :
    (s.sync.V r).status u = s.sync.status u := by
  rcases s.sync.V_status r u with e | ⟨hm, -⟩
  · exact e
  · exact absurd (h r u hm hu) hb

theorem Apart.V (h : Queued s) (hb : r ≠ .bmsem) (ha : r ≠ .addrLock) : Apart s (s.V r) :=
  ⟨fun _ => rfl, Sync.V_sems_ne _ hb.symm, Sync.V_sems_ne _ ha.symm, fun _ hu => h.V hb hu⟩

/-- The `P` of a handshake. -/
theorem Apart.P (hw : (s.pc t).waiting = true) : Apart s (s.P t) := by
  obtain ⟨j, hj⟩ := PC.sem_of_waiting hw
  obtain ⟨r, hr, hb, ha⟩ : ∃ r, (s.pc t).sem = some r ∧ r ≠ .bmsem ∧ r ≠ .addrLock := by
    rcases hj with e | e
    · exact ⟨_, e, by simp, by simp⟩
    · exact ⟨_, e, by simp, by simp⟩
  have ht : s.stage t ≠ .asks := by
    unfold State.stage
    revert hw
    cases s.pc t <;> simp [PC.waiting, PC.stage]
  have hstatus : ∀ u, s.stage u = .asks → (s.sync.P t r).1.status u = s.sync.status u :=
    fun u hu => Sync.P_status_ne _ _ fun e => ht (e ▸ hu)
  by_cases hv : (s.sync.sems r).value = 0
  · rw [P_block hr hv]
    exact ⟨fun _ => rfl, Sync.P_sems_ne _ _ hb.symm, Sync.P_sems_ne _ _ ha.symm, hstatus⟩
  · rw [P_pass hr hv]
    refine ⟨fun u => ?_, Sync.P_sems_ne _ _ hb.symm, Sync.P_sems_ne _ _ ha.symm, hstatus⟩
    rw [stage_goto]
    show Function.update s.stage t _ u = _
    rw [show (s.pc t).afterP.stage = s.stage t from ?_, Function.update_eq_self]
    unfold State.stage
    revert hw
    cases s.pc t <;> simp [PC.waiting, PC.stage, PC.afterP]

theorem LockInv.apart (h : LockInv s.stage s.sync) (ha : Apart s s') :
    LockInv s'.stage s'.sync := by
  rw [show s'.stage = s.stage from funext ha.stage]
  refine ⟨by rw [ha.bmsem]; exact h.bmsem, by rw [ha.addrLock]; exact h.addrLock, h.passing, ?_⟩
  rw [ha.bmsem]
  intro hv hq
  obtain ⟨u, hu, hr⟩ := h.woken hv hq
  exact ⟨u, hu, (ha.status u hu).trans hr⟩

/-- A thread comes to `bmsem->P()`, or tests it again. -/
theorem LockInv.ask (h : LockInv s.stage s.sync) (ht : s.stage t = .idle ∨ s.stage t = .asks) :
    LockInv ((s.goto t (.execBmsem f)).P t).stage ((s.goto t (.execBmsem f)).P t).sync := by
  have hpc : (s.goto t (.execBmsem f)).pc t = .execBmsem f := goto_pc_self ..
  have hsem : ((s.goto t (.execBmsem f)).pc t).sem = some .bmsem := by
    rw [hpc]
    rfl
  have hout : ¬ (s.stage t = .locked ∨ s.stage t = .loading) := by
    rcases ht with e | e <;> rw [e] <;> simp
  have haddr : ∀ {x : Stage}, x ≠ .loading → ∀ u,
      Function.update s.stage t x u = .loading ↔ s.stage u = .loading := fun hx =>
    update_iff (P := fun x => x = .loading) (iff_of_false hx fun hl => hout (.inr hl))
  by_cases hv : (s.sync.sems .bmsem).value = 0
  · rw [P_block hsem hv]
    have hst : (s.goto t (.execBmsem f)).stage = Function.update s.stage t .asks := stage_goto ..
    show LockInv (s.goto t (.execBmsem f)).stage (s.sync.P t .bmsem).1
    rw [hst]
    refine ⟨?_, ?_, passing_update h.passing (by simp), fun hne => ?_⟩
    · rw [Sync.P_value_zero hv, ← hv]
      exact h.bmsem.congr (update_iff (P := fun x => x = .locked ∨ x = .loading)
        (iff_of_false (by simp) hout))
    · rw [Sync.P_sems_ne _ _ (by simp)]
      exact h.addrLock.congr (haddr (by simp))
    · exact absurd (Sync.P_value_zero hv t) hne
  · rw [P_pass hsem hv, hpc]
    have hst : ((s.goto t (.execBmsem f)).goto t (.execEntered f)).stage =
        Function.update s.stage t .locked := by
      rw [stage_goto, stage_goto, Function.update_idem]
      rfl
    show LockInv ((s.goto t (.execBmsem f)).goto t (.execEntered f)).stage (s.sync.P t .bmsem).1
    rw [hst]
    refine ⟨?_, ?_, passing_update h.passing (by simp), fun hne => ?_⟩
    · rw [Sync.P_value_pos hv]
      refine h.bmsem.enter hv (.inl (Function.update_self ..)) fun u hu hin => ?_
      rwa [Function.update_of_ne hu] at hin
    · rw [Sync.P_sems_ne _ _ (by simp)]
      exact h.addrLock.congr (haddr (by simp))
    · rw [Sync.P_value_pos hv, (h.bmsem.empty_of_value hv).1] at hne
      exact absurd rfl hne

/-- `bmsem->V()`. -/
theorem LockInv.leave (h : LockInv s.stage s.sync) (hok : s.sync.Ok s.waits)
    (ht : s.stage t = .locked) (hq : q.stage = .idle) :
    LockInv ((s.V .bmsem).goto t q).stage ((s.V .bmsem).goto t q).sync := by
  have hst : ((s.V .bmsem).goto t q).stage = Function.update s.stage t .idle := by
    rw [stage_goto, hq]
    rfl
  show LockInv ((s.V .bmsem).goto t q).stage (s.sync.V .bmsem)
  rw [hst]
  refine ⟨?_, ?_, passing_update h.passing (by simp), fun _ hne => ?_⟩
  · rw [Sync.V_value]
    refine h.bmsem.leave (.inl ht) (by rw [Function.update_self]; simp) fun u hu hin => ?_
    rwa [Function.update_of_ne hu] at hin
  · rw [Sync.V_sems_ne _ (by simp)]
    exact h.addrLock.congr (update_iff (P := fun x => x = .loading)
      (iff_of_false (by simp) (by simp [ht])))
  · cases hqueue : (s.sync.sems .bmsem).queue with
    | nil =>
        rw [Sync.V_nil hqueue] at hne
        simp [hqueue] at hne
    | cons w l =>
        have hw := (hok.mem .bmsem w).mp (by rw [hqueue]; exact List.mem_cons_self)
        have hasks : s.stage w = .asks := by
          have hw' := hw.2
          unfold State.waits at hw'
          unfold State.stage
          revert hw'
          cases s.pc w <;> simp [PC.sem, PC.stage]
        refine ⟨w, ?_, ?_⟩
        · rw [Function.update_of_ne fun e => by rw [e, ht] at hasks; cases hasks]
          exact hasks
        · rw [Sync.V_cons hqueue]
          exact Function.update_self ..

/-- A thread that holds `bmsem` moves on to, or back from, `addrLock`. -/
theorem LockInv.move {x : Stage} (h : LockInv s.stage s.sync)
    (ht : s.stage t = .locked ∨ s.stage t = .loading) (hx : x = .locked ∨ x = .loading)
    (hb : y.sems .bmsem = s.sync.sems .bmsem)
    (hy : ∀ u, s.stage u = .asks → y.status u = s.sync.status u)
    (ha : Lock (fun u => Function.update s.stage t x u = .loading) (y.sems .addrLock).value) :
    LockInv (Function.update s.stage t x) y := by
  refine ⟨?_, ha, passing_update h.passing ?_, ?_⟩
  · rw [hb]
    exact h.bmsem.congr (update_iff (P := fun x => x = .locked ∨ x = .loading)
      (iff_of_true hx ht))
  · rcases hx with e | e <;> rw [e] <;> simp
  · rw [hb]
    intro hv hq
    obtain ⟨u, hu, hr⟩ := h.woken hv hq
    refine ⟨u, ?_, (hy u hu).trans hr⟩
    rw [Function.update_of_ne fun e => by rw [← e, hu] at ht; simp at ht]
    exact hu

/-- A thread comes to `addrLock->P()`, which it passes, as it holds `bmsem` alone. -/
theorem LockInv.load {i : Pid} {par : Option Pid} (h : LockInv s.stage s.sync)
    (ht : s.stage t = .locked) :
    LockInv ((s.goto t (.execAddrLock i par)).P t).stage
      ((s.goto t (.execAddrLock i par)).P t).sync := by
  have hfree : ∀ u, s.stage u ≠ .loading := fun u hu => by
    rw [h.bmsem.unique (.inl ht) (.inr hu), ht] at hu
    cases hu
  have hv : (s.sync.sems .addrLock).value ≠ 0 := by simp [h.addrLock.value_of_empty hfree]
  have hpc : (s.goto t (.execAddrLock i par)).pc t = .execAddrLock i par := goto_pc_self ..
  have hsem : ((s.goto t (.execAddrLock i par)).pc t).sem = some .addrLock := by
    rw [hpc]
    rfl
  rw [P_pass hsem hv, hpc]
  have hst : ((s.goto t (.execAddrLock i par)).goto t (.execSpace i par)).stage =
      Function.update s.stage t .loading := by
    rw [stage_goto, stage_goto, Function.update_idem]
    rfl
  show LockInv ((s.goto t (.execAddrLock i par)).goto t (.execSpace i par)).stage
    (s.sync.P t .addrLock).1
  rw [hst]
  refine h.move (.inl ht) (.inr rfl) (Sync.P_sems_ne _ _ (by simp)) (fun u hu => ?_) ?_
  · exact Sync.P_status_ne _ _ fun e => by rw [e, ht] at hu; cases hu
  · rw [Sync.P_value_pos hv]
    refine h.addrLock.enter hv (Function.update_self ..) fun u hu hin => ?_
    rwa [Function.update_of_ne hu] at hin

/-- The root takes over `bmsem` from the main thread. -/
theorem LockInv.hand (h : LockInv s.stage s.sync) (ht : s.stage t = .locked)
    (hc : s.stage c = .idle) (hb : y.sems .bmsem = s.sync.sems .bmsem)
    (ha : y.sems .addrLock = s.sync.sems .addrLock) :
    LockInv (Function.update (Function.update s.stage t .idle) c .locked) y := by
  have hne : t ≠ c := fun e => by
    rw [e, hc] at ht
    cases ht
  have hv := h.bmsem.value_of_inside (.inl ht)
  refine ⟨?_, ?_, passing_update (passing_update h.passing (by simp)) (by simp), ?_⟩
  · rw [hb, hv]
    refine .held c (.inl (Function.update_self ..)) fun u hu => ?_
    by_contra hcu
    rw [Function.update_of_ne hcu] at hu
    by_cases e : u = t
    · rw [e, Function.update_self] at hu
      simp at hu
    · rw [Function.update_of_ne e] at hu
      exact e (h.bmsem.unique (.inl ht) hu)
  · rw [ha]
    have hc' : Function.update s.stage t .idle c ≠ .loading := by
      rw [Function.update_of_ne hne.symm, hc]
      simp
    exact h.addrLock.congr fun u =>
      (update_iff (P := fun x => x = .loading) (iff_of_false (by simp) hc') u).trans
        (update_iff (P := fun x => x = .loading) (iff_of_false (by simp) (by simp [ht])) u)
  · rw [hb, hv]
    exact fun hne => absurd rfl hne

/-! ### The steps -/

theorem Apart.ret {v : Int} (ht : s.stage t = .idle) : Apart s (s.ret t v) :=
  (show Apart s { s with result := Function.update s.result t v } from .of rfl rfl).trans
    (.goto ht.symm)

theorem joinUpdate_apart {id : Int} (ht : s.stage t = .idle) (hok : s.joinUpdate t id = .ok s') :
    Apart s s' := by
  unfold State.joinUpdate at hok
  split at hok
  · dsimp only at hok
    split at hok
    · cases hok; exact .ret ht
    split at hok
    · cases hok; exact .ret ht
    rename_i pid _
    split at hok
    · cases hok
    rename_i target _
    split at hok
    · cases hok; exact .ret ht
    split at hok
    · cases hok
    rename_i b _
    split at hok
    · cases hok; exact .ret ht
    · cases hok
      have hg : Apart s ((s.setPcb pid { b with joinID := some ⟨id.toNat, by omega⟩ }).goto t
          (.joinWait pid ⟨id.toNat, by omega⟩ target.thread)) :=
        (show Apart s (s.setPcb pid _) from .of rfl rfl).trans (.goto ht.symm)
      exact hg.trans (.P (congrArg PC.waiting (goto_pc_self ..)))
  · cases hok; exact .ret ht

theorem exitJoinReleased_apart {ec : Int} {i j : Pid} (hq : Queued s) (ht : s.stage t = .idle)
    (hok : s.exitJoinReleased t ec i j = .ok s') : Apart s s' := by
  unfold State.exitJoinReleased at hok
  split at hok
  · cases hok
  dsimp only at hok
  split at hok
  · cases hok
    exact ((Apart.V (r := .exitsem j) hq (by simp) (by simp)).trans
      (.goto (t := t) (q := .exitReleased ec i) ht.symm)).trans (.of rfl rfl)
  · cases hok
    exact (Apart.goto (q := .done ec) ht.symm).trans (.of (Function.update_idem ..) rfl)

theorem exitWaited_apart {ec : Int} {i : Pid} {par : Option Pid} (hq : Queued s)
    (ht : s.stage t = .idle) (hok : s.exitWaited t ec i par = .ok s') : Apart s s' := by
  unfold State.exitWaited at hok
  split at hok
  · cases hok; exact .of rfl rfl
  split at hok
  · cases hok
  rename_i p _ _ _
  have hgoto : Apart s (s.goto t (.exitJoinReleased ec i p)) := .goto ht.symm
  split at hok
  · cases hok
    exact ((Apart.V (r := .joinsem p) hq (by simp) (by simp)).trans
      (.goto (t := t) (q := .exitJoinReleased ec i p) ht.symm)).trans (.of rfl rfl)
  · exact hgoto.trans (exitJoinReleased_apart (hq.goto ht.symm) (hgoto.stage t ▸ ht) hok)

theorem exitUpdate_apart {ec : Int} (hq : Queued s) (ht : s.stage t = .idle)
    (hok : s.exitUpdate t ec = .ok s') : Apart s s' := by
  unfold State.exitUpdate at hok
  split at hok
  · cases hok; exact .ret ht
  rename_i pid _
  split at hok
  · cases hok
  rename_i b _
  split at hok
  · cases hok
    have hg : Apart s ((s.setPcb pid { b with isExit := true }).goto t
        (.exitWait ec pid b.parentID)) :=
      (show Apart s (s.setPcb pid _) from .of rfl rfl).trans (.goto ht.symm)
    exact hg.trans (.P (congrArg PC.waiting (goto_pc_self ..)))
  · have hgoto : Apart s (s.goto t (.exitWaited ec pid b.parentID)) := .goto ht.symm
    exact hgoto.trans (exitWaited_apart (hq.goto ht.symm) (hgoto.stage t ▸ ht) hok)

theorem execEntered_lock {host : Host} (hI : Inv s) (h : LockInv s.stage s.sync)
    (hpc : s.pc t = .execEntered f) :
    LockInv (s.execEntered t f host).stage (s.execEntered t f host).sync := by
  have ht : s.stage t = .locked := by
    rw [State.stage, hpc]
    rfl
  rcases execEntered_cases s t f host with ⟨-, e⟩ | ⟨-, g, pid, par, -, e⟩
  · rw [e]
    exact h.leave hI.sync ht rfl
  · -- the new `mutex` lets the thread pass
    rw [e]
    have hmutex : ((s.newPCB t g (s.table.bm.mark pid) pid par).pc t).sem = some (.mutex pid) := by
      rw [State.newPCB, goto_pc_self]
      rfl
    have hv : ((s.newPCB t g (s.table.bm.mark pid) pid par).sync.sems (.mutex pid)).value ≠ 0 := by
      simp [State.newPCB, State.goto]
    have hsems : ∀ r, r = .bmsem ∨ r = .addrLock →
        ((s.newPCB t g (s.table.bm.mark pid) pid par).P t).sync.sems r = s.sync.sems r := by
      intro r hr
      rw [P_pass hmutex hv]
      show (Sync.P _ t (.mutex pid)).1.sems r = _
      rcases hr with rfl | rfl <;> rw [Sync.P_sems_ne _ _ (by simp)] <;>
        simp [State.newPCB, State.goto, Sync.renew]
    refine h.apart ⟨fun u => ?_, hsems _ (.inl rfl), hsems _ (.inr rfl), fun u hu => ?_⟩
    · by_cases e' : u = t
      · rw [e', ht, State.stage, newPCB_P]
        rfl
      · rw [State.stage, P_pc_ne e', State.newPCB, goto_pc_ne _ _ e']
        rfl
    · rw [P_status_ne fun e' => by rw [e', ht] at hu; cases hu]
      rfl

theorem execLocked_lock {g : Name} {i : Pid} {par : Option Pid} {host : Host} (hI : Inv s)
    (h : LockInv s.stage s.sync) (hpc : s.pc t = .execLocked g i par)
    (hok : s.execLocked t g i par host = .ok s') : LockInv s'.stage s'.sync := by
  have ht : s.stage t = .locked := by
    rw [State.stage, hpc]
    rfl
  unfold State.execLocked at hok
  split at hok
  · cases hok
  dsimp only at hok
  split at hok
  · cases hok
    exact h.apart ((Apart.V hI.queued (by simp) (by simp)).trans (.goto ht.symm))
  · cases hok
    have hnew : s.pc s.table.nextTid = .unborn := hI.pc_unborn rfl
    have hmade : ∀ b, Apart s ((s.newThread t g i par).setPcb i b) := by
      refine fun b => ⟨fun u => ?_, rfl, rfl, fun u hu => Function.update_of_ne (fun e => ?_) _ _⟩
      · show (Function.update s.pc s.table.nextTid .created u).stage = _
        by_cases e : u = s.table.nextTid
        · rw [e, Function.update_self, State.stage, hnew]
          rfl
        · rw [Function.update_of_ne e]
          rfl
      · rw [e, State.stage, hnew] at hu
        cases hu
    exact (h.apart (hmade _)).load (((hmade _).stage t).trans ht)

theorem execSpace_lock {i : Pid} {par : Option Pid} {host : Host} (hI : Inv s)
    (h : LockInv s.stage s.sync) (hpc : s.pc t = .execSpace i par)
    (hok : s.execSpace t i par host = .ok s') : LockInv s'.stage s'.sync := by
  have ht : s.stage t = .loading := by
    rw [State.stage, hpc]
    rfl
  unfold State.execSpace at hok
  split at hok
  · cases hok
  split at hok
  · cases hok
  cases hok
  rw [stage_goto]
  refine h.move (.inr ht) (.inl rfl) (Sync.V_sems_ne _ (by simp)) (fun u hu => ?_) ?_
  · exact hI.queued.V (by simp) hu
  · show Lock _ ((s.sync.V .addrLock).sems .addrLock).value
    rw [Sync.V_value]
    refine h.addrLock.leave ht (by rw [Function.update_self]; simp [PC.stage]) fun u hu hin => ?_
    rwa [Function.update_of_ne hu] at hin

theorem execBuilt_lock {i : Pid} {par : Option Pid} (hI : Inv s) (h : LockInv s.stage s.sync)
    (hpc : s.pc t = .execBuilt i par) (hok : s.execBuilt t i par = .ok s') :
    LockInv s'.stage s'.sync := by
  have ht : s.stage t = .locked := by
    rw [State.stage, hpc]
    rfl
  unfold State.execBuilt at hok
  split at hok
  · cases hok
  rename_i b hb
  split at hok
  · cases hok
  rename_i c hc
  have hcreated := hI.pc_created hpc hb hc
  have hidle : s.stage c = .idle := by
    rw [State.stage, hcreated]
    rfl
  have hne : t ≠ c := fun e => by
    rw [e, hidle] at ht
    cases ht
  dsimp only at hok
  split at hok
  · cases hok
    have hwoken : LockInv (((s.wake c).goto t .gone).goto c (.execUnlocked i par)).stage
        (((s.wake c).goto t .gone).goto c (.execUnlocked i par)).sync := by
      rw [stage_goto, stage_goto]
      exact h.hand ht hidle rfl rfl
    refine hwoken.apart (Apart.V (fun r u hm hu => hI.queued r u hm ?_) (by simp) (by simp))
    rw [stage_goto, stage_goto] at hu
    have e : u ≠ c := fun e => by
      rw [e, Function.update_self] at hu
      cases hu
    have e' : u ≠ t := fun e' => by
      rw [Function.update_of_ne e, e', Function.update_self] at hu
      cases hu
    rwa [Function.update_of_ne e, Function.update_of_ne e'] at hu
  · cases hok
    refine h.apart ?_
    have hwoken : Apart s (s.wake c) :=
      ⟨fun _ => rfl, rfl, rfl, fun u hu => Function.update_of_ne (fun e => by
        rw [e, hidle] at hu
        cases hu) _ _⟩
    have huser : Apart s ((s.wake c).goto c .user) :=
      hwoken.trans (.goto ((hwoken.stage c).trans hidle).symm)
    exact huser.trans (.goto ((huser.stage t).trans ht).symm)

theorem resume_lock {host : Host} (hI : Inv s) (h : LockInv s.stage s.sync)
    (hok : s.resume t host = .ok s') : LockInv s'.stage s'.sync := by
  unfold State.resume at hok
  have hstage : s.stage t = (s.pc t).stage := rfl
  cases hpc : s.pc t with
  | execBmsem f =>
      rw [hpc] at hok hstage
      cases hok
      have := h.ask (f := f) (.inr hstage)
      rwa [show s.goto t (.execBmsem f) = s from ?_] at this
      rw [State.goto, ← hpc, Function.update_eq_self]
  | execMutex f i par => exact absurd (by rw [hstage, hpc]; rfl) (h.passing t)
  | execAddrLock i par => exact absurd (by rw [hstage, hpc]; rfl) (h.passing t)
  | joinWait i j c =>
      rw [hpc] at hok
      cases hok
      exact h.apart (.P (by rw [hpc]; rfl))
  | exitWait ec i par =>
      rw [hpc] at hok
      cases hok
      exact h.apart (.P (by rw [hpc]; rfl))
  | execEntered f =>
      rw [hpc] at hok
      cases hok
      exact execEntered_lock hI h hpc
  | execLocked f i par =>
      rw [hpc] at hok
      exact execLocked_lock hI h hpc hok
  | execFailed i par =>
      rw [hpc] at hok hstage
      cases hok
      exact LockInv.leave (s := { s with table := { s.table with bm := s.table.bm.clear i } })
        h hI.sync hstage rfl
  | execSpace i par =>
      rw [hpc] at hok
      exact execSpace_lock hI h hpc hok
  | execBuilt i par =>
      rw [hpc] at hok
      exact execBuilt_lock hI h hpc hok
  | execForked i par =>
      rw [hpc] at hok hstage
      cases hok
      exact h.apart ((Apart.V hI.queued (by simp) (by simp)).trans (.goto hstage.symm))
  | execUnlocked i par =>
      simp only [hpc, State.execUnlocked] at hok
      rw [hpc] at hstage
      split at hok
      · cases hok
        exact h.leave hI.sync hstage rfl
      split at hok
      · cases hok
      · cases hok
        exact LockInv.leave (s := s.setPcb _ _) h hI.sync hstage rfl
  | execRet r =>
      simp only [hpc] at hok
      rw [hpc] at hstage
      split at hok
      · cases hok
      · cases hok
        exact h.apart (.ret hstage)
  | bootRet =>
      rw [hpc] at hok hstage
      cases hok
      exact h.apart (.goto hstage.symm)
  | joinWoken i j c =>
      simp only [hpc, State.joinWoken] at hok
      rw [hpc] at hstage
      split at hok
      · cases hok
      · cases hok
        exact h.apart (.ret hstage)
  | exitWaited ec i par =>
      rw [hpc] at hok hstage
      exact h.apart (exitWaited_apart hI.queued hstage hok)
  | exitJoinReleased ec i j =>
      rw [hpc] at hok hstage
      exact h.apart (exitJoinReleased_apart hI.queued hstage hok)
  | exitReleased ec i =>
      rw [hpc] at hok hstage
      cases hok
      exact h.apart ((Apart.goto (q := .done ec) hstage.symm).trans (.of rfl rfl))
  | _ =>
      rw [hpc] at hok
      cases hok

/-- Every step keeps the locks. -/
theorem step_lock {a : Action} (hI : Inv s) (h : LockInv s.stage s.sync) (hok : step s a = .ok s') :
    LockInv s'.stage s'.sync := by
  have hidle : ∀ {t}, s.InUser t → s.stage t = .idle := fun hu => by
    rw [State.stage, hu.2]
    rfl
  unfold step at hok
  split at hok
  · cases hok
  cases a with
  | boot f =>
      dsimp only at hok
      split at hok
      · rename_i h0
        cases hok
        exact h.ask (.inl (by rw [State.stage, h0.2]; rfl))
      · cases hok
  | exec t f =>
      dsimp only at hok
      split at hok
      · rename_i hu
        cases hok
        exact LockInv.ask (s := s.called t) h (.inl (hidle hu))
      · cases hok
  | join t id =>
      dsimp only at hok
      split at hok
      · rename_i hu
        exact LockInv.apart (s := s.called t) h (joinUpdate_apart (hidle hu) hok)
      · cases hok
  | exit t ec =>
      dsimp only at hok
      split at hok
      · rename_i hu
        exact LockInv.apart (s := s.called t) h (exitUpdate_apart hI.queued (hidle hu) hok)
      · cases hok
  | halt t =>
      dsimp only at hok
      split at hok
      · cases hok
        exact h
      · cases hok
  | touch t pageTable =>
      dsimp only at hok
      split at hok
      · cases hok
      split at hok
      · split at hok
        · cases hok
          exact h
        · cases hok
      · cases hok
  | resume t host =>
      dsimp only at hok
      split at hok
      · exact resume_lock hI h hok
      · cases hok

/-! ### Who is there -/

/-- A thread that has been made and not forked is one its maker is about to fork. -/
def Made (s : State) : Prop :=
  ∀ c, s.ph c = .created → ∃ t i par, s.ph t = .hatching i par ∧ s.table.pidOf c = some i

theorem Made.of (h : Made s) (hh : ∀ u i par, s.ph u = .hatching i par → s'.ph u = .hatching i par)
    (hc : ∀ u, s'.ph u = .created → s.ph u = .created) (hpid : s'.table.pidOf = s.table.pidOf) :
    Made s' := by
  intro c hcr
  obtain ⟨t, i, par, ht, hp⟩ := h c (hc c hcr)
  exact ⟨t, i, par, hh t i par ht, by rw [hpid, hp]⟩

theorem Made.goto (h : Made s) (hpc : s'.pc = Function.update s.pc t q)
    (hpid : s'.table.pidOf = s.table.pidOf)
    (hh : ∀ i par, s.ph t = .hatching i par → q.phase = .hatching i par)
    (hq : q.phase ≠ .created) : Made s' := by
  refine h.of (fun u i par hu => ?_) (fun u hu => ?_) hpid
  · rw [State.ph, hpc]
    by_cases e : u = t
    · rw [e, Function.update_self]
      exact hh i par (e ▸ hu)
    · rw [Function.update_of_ne e]
      exact hu
  · rw [State.ph, hpc] at hu
    by_cases e : u = t
    · rw [e, Function.update_self] at hu
      exact absurd hu hq
    · rw [Function.update_of_ne e] at hu
      exact hu

theorem Made.P (h : Made s) : Made (s.P t) := by
  have hpid : (s.P t).table.pidOf = s.table.pidOf := by rw [P_table]
  rcases P_pc s t with e | e
  · exact h.of (fun u _ _ hu => by rw [State.ph, e]; exact hu)
      (fun u hu => by rw [State.ph, e] at hu; exact hu) hpid
  · by_cases hc : s.ph t = .created
    · refine h.of (fun u _ _ hu => ?_) (fun u hu => ?_) hpid
      · rw [State.ph, e, show (s.pc t).afterP = s.pc t from ?_, Function.update_eq_self]
        · exact hu
        · revert hc
          unfold State.ph
          cases s.pc t <;> simp [PC.phase, PC.afterP]
      · rw [State.ph, e] at hu
        by_cases e' : u = t
        · exact e' ▸ hc
        · rw [Function.update_of_ne e'] at hu
          exact hu
    · refine h.goto e hpid (fun i par => ?_) ?_
      · unfold State.ph
        cases s.pc t <;> simp [PC.phase, PC.afterP]
      · revert hc
        unfold State.ph
        cases s.pc t <;> simp [PC.phase, PC.afterP]

/-- A thread that has been made is forked, by the thread that has made it. -/
theorem Made.hatch {i : Pid} {par : Option Pid} {b : PCB} (h : Made s) (hI : Inv s)
    (hpc : s.pc t = .execBuilt i par) (hb : s.table.pcb i = some b) (hc : b.thread = some c)
    (hs : ∀ u, u ≠ t → u ≠ c → s'.pc u = s.pc u) (ht : (s'.ph t) ≠ .created)
    (hc' : s'.ph c ≠ .created) (hpid : s'.table.pidOf = s.table.pidOf) : Made s' := by
  have hph : s.ph t = .hatching i par := by
    rw [State.ph, hpc]
    rfl
  obtain ⟨hcr, hci, -⟩ := hI.table.hatching_thread hph hb hc
  intro u hu
  have hut : u ≠ t := fun e => ht (e ▸ hu)
  have huc : u ≠ c := fun e => hc' (e ▸ hu)
  have hu' : s.ph u = .created := by rwa [State.ph, hs u hut huc] at hu
  obtain ⟨v, k, q, hv, hp⟩ := h u hu'
  have hvt : v ≠ t := by
    rintro rfl
    rw [hph] at hv
    cases hv
    exact huc (hI.table.slot_unique hp (by rw [hu']; simp) hci (by rw [hcr]; simp))
  have hvc : v ≠ c := by
    rintro rfl
    rw [hcr] at hv
    cases hv
  exact ⟨v, k, q, by rw [State.ph, hs v hvt hvc]; exact hv, by rw [hpid, hp]⟩

theorem piece_made {o : Input} (hI : Inv s) (hp : Piece t o s s') (h : Made s) : Made s' := by
  have hno : ∀ {p : PC}, s.pc t = p → (∀ i par, p.phase ≠ .hatching i par) →
      ∀ {r : Phase} i par, s.ph t = .hatching i par → r = .hatching i par := by
    intro p hpc hne r i par hph
    rw [State.ph, hpc] at hph
    exact absurd hph (hne i par)
  cases hp with
  | halt | touch | V => exact h.of (fun _ _ _ hu => hu) (fun _ hu => hu) rfl
  | P => exact h.P
  | call hu | refused hu | pass hu =>
      exact h.goto rfl rfl (hno hu.2 (by simp [PC.phase])) (by simp [PC.phase])
  | ret hpc | joinRet hpc | newPCB hpc | fail hpc | bootInc hpc | inc hpc | joinRelease hpc
  | skip hpc | exitRelease hpc | dec hpc | finish hpc =>
      exact h.goto rfl rfl (hno hpc (by simp [PC.phase])) (by simp [PC.phase])
  | exec hq =>
      have hph := hq.same.1
      refine h.goto rfl rfl (fun i par hph' => by rw [hph]; exact hph') ?_
      generalize s.pc t = pc at hq
      cases hq <;> simp [PC.phase]
  | space hpc =>
      refine h.goto rfl rfl (fun i par hph => ?_) (by simp [PC.phase])
      rw [State.ph, hpc] at hph
      exact hph
  | joinWait _ hu | exitWait hu =>
      exact Made.P (h.goto rfl rfl (hno hu.2 (by simp [PC.phase])) (by simp [PC.phase]))
  | @newThread g i par b hpc =>
      intro c hc
      by_cases e : c = s.table.nextTid
      · refine ⟨t, i, par, ?_, ?_⟩
        · rw [State.ph, goto_pc_self]
          rfl
        · rw [e]
          exact Function.update_self ..
      · have hct : c ≠ t := fun e' => by
          rw [e', State.ph, goto_pc_self] at hc
          cases hc
        have hc' : s.ph c = .created := by
          rw [State.ph, goto_pc_ne _ _ hct] at hc
          exact (congrArg PC.phase (goto_pc_ne _ _ e)).symm.trans hc
        obtain ⟨v, k, q, hv, hp⟩ := h c hc'
        have hvt : v ≠ t := fun e' => by
          rw [e', State.ph, hpc] at hv
          cases hv
        have hvn : v ≠ s.table.nextTid := fun e' => by
          rw [State.ph, hI.pc_unborn e'] at hv
          cases hv
        refine ⟨v, k, q, ?_, (Function.update_of_ne e _ _).trans hp⟩
        rw [State.ph, goto_pc_ne _ _ hvt]
        exact (congrArg PC.phase (goto_pc_ne _ _ hvn)).trans hv
  | @fork i j c b hpc hb hc =>
      have hne : c ≠ t := by
        rintro rfl
        rw [hI.pc_created hpc hb hc] at hpc
        cases hpc
      refine h.hatch hI hpc hb hc
        (fun u h₁ h₂ => (goto_pc_ne _ _ h₁).trans (goto_pc_ne _ _ h₂)) ?_ ?_ rfl
      · rw [State.ph, goto_pc_self]
        simp [PC.phase]
      · rw [State.ph, goto_pc_ne _ _ hne, goto_pc_self]
        simp [PC.phase]
  | @takeOver i c b hpc hb hc =>
      have hne : t ≠ c := by
        rintro rfl
        rw [hI.pc_created hpc hb hc] at hpc
        cases hpc
      refine h.hatch hI hpc hb hc
        (fun u h₁ h₂ => (goto_pc_ne _ _ h₂).trans (goto_pc_ne _ _ h₁)) ?_ ?_ rfl
      · rw [State.ph, goto_pc_ne _ _ hne, goto_pc_self]
        simp [PC.phase]
      · rw [State.ph, goto_pc_self]
        simp [PC.phase]

/-- Forked, and not past its `DecNumWait`. -/
def Phase.active : Phase → Bool
  | unborn | created | decd | dead => false
  | _ => true

/-- As long as the kernel runs, the main thread or the root is there. -/
def Rooted (s : State) : Prop :=
  s.halted = true ∨ ∃ r, s.table.parent r = none ∧ (s.ph r).active = true

@[simp] theorem P_halted (s : State) (t : Tid) : (s.P t).halted = s.halted := by
  unfold State.P; split <;> [rfl; split <;> rfl]

theorem Rooted.goto (h : Rooted s) (hpc : s'.pc = Function.update s.pc t q)
    (hpar : s'.table.parent = s.table.parent) (hh : s'.halted = s.halted)
    (hq : s.table.parent t = none → (s.ph t).active = true → q.phase.active = true) :
    Rooted s' := by
  rcases h with h | ⟨r, hr, ha⟩
  · exact .inl (hh.trans h)
  refine .inr ⟨r, by rw [hpar, hr], ?_⟩
  rw [State.ph, hpc]
  by_cases e : r = t
  · rw [e, Function.update_self]
    exact hq (e ▸ hr) (e ▸ ha)
  · rw [Function.update_of_ne e]
    exact ha

theorem Rooted.P (h : Rooted s) : Rooted (s.P t) := by
  rcases P_pc s t with e | e
  · rcases h with h | ⟨r, hr, ha⟩
    · exact .inl (by rw [P_halted, h])
    · exact .inr ⟨r, by rw [P_table, hr], by rw [State.ph, e]; exact ha⟩
  · refine h.goto e (by rw [P_table]) (P_halted s t) fun _ ha => ?_
    revert ha
    unfold State.ph
    cases s.pc t <;> simp [PC.afterP, PC.phase, Phase.active]

theorem piece_rooted {o : Input} (hI : Inv s) (hp : Piece t o s s') (h : Rooted s) : Rooted s' := by
  have hroot : ∀ {ec : Int} {i j : Pid}, s.pc t = .exitJoinReleased ec i j →
      s.table.parent t ≠ none := by
    intro ec i j hpc hr
    have hx := hI.exitPar t (some j) (by rw [hpc]; rfl)
    rw [hr] at hx
    cases hx
  cases hp with
  | halt => exact .inl rfl
  | touch | V => exact h
  | P => exact h.P
  | call | refused | ret | joinRet | newPCB | fail | space | bootInc | inc | pass | joinRelease
  | skip => exact h.goto rfl rfl rfl fun _ _ => rfl
  | exec hq =>
      refine h.goto rfl rfl rfl fun _ _ => ?_
      generalize s.pc t = pc at hq
      cases hq <;> rfl
  | exitRelease hpc | dec hpc =>
      exact h.goto rfl rfl rfl fun hr _ => absurd hr (hroot hpc)
  | finish hpc =>
      refine h.goto rfl rfl rfl fun _ ha => ?_
      rw [State.ph, hpc] at ha
      cases ha
  | joinWait | exitWait => exact Rooted.P (h.goto rfl rfl rfl fun _ _ => rfl)
  | @fork i j c =>
      have huser : Rooted ((s.wake c).goto c .user) := h.goto rfl rfl rfl fun _ _ => rfl
      exact huser.goto rfl rfl rfl fun _ _ => rfl
  | @takeOver i c b hpc hb hc =>
      -- the root takes the place of the main thread
      have hpar := (hI.table.hatching_thread (by rw [State.ph, hpc]; rfl) hb hc).2.2
      refine .inr ⟨c, hpar, ?_⟩
      rw [State.ph, goto_pc_self]
      rfl
  | @newThread g i par b hpc =>
      rcases h with h | ⟨r, hr, ha⟩
      · exact .inl h
      have hne : r ≠ s.table.nextTid := fun e => by
        rw [State.ph, hI.pc_unborn e] at ha
        cases ha
      refine .inr ⟨r, (Function.update_of_ne hne _ _).trans hr, ?_⟩
      by_cases e : r = t
      · rw [e, State.ph, goto_pc_self]
        rfl
      · rw [State.ph, goto_pc_ne _ _ e]
        exact (congrArg (fun p => (PC.phase p).active) (goto_pc_ne _ _ hne)).trans ha

/-! ### Somebody goes on -/

/-- Neither asleep nor at an end. -/
def Awake (s : State) (t : Tid) : Prop := s.sync.status t = .ready ∧ (s.ph t).active = true

theorem Inv.awake (h : Inv s) (hsem : (s.pc t).sem = none) (ha : (s.ph t).active = true) :
    Awake s t := by
  refine ⟨h.ready hsem ?_ ?_, ha⟩ <;> intro e <;> rw [e] at ha <;> cases ha

/-- Who has made a thread goes on to fork it. -/
theorem LockInv.hatching_awake {i : Pid} {par : Option Pid} (h : LockInv s.stage s.sync)
    (hI : Inv s) (ht : s.ph t = .hatching i par) : Awake s t := by
  refine hI.awake ?_ (by rw [ht]; rfl)
  have hp := h.passing t
  unfold State.stage at hp
  unfold State.ph at ht
  revert hp ht
  cases s.pc t <;> simp [PC.phase, PC.stage, PC.sem]

/-- `bmsem` comes to whoever sleeps for it. -/
theorem LockInv.asks_awake (h : LockInv s.stage s.sync) (hI : Inv s)
    (hm : t ∈ (s.sync.sems .bmsem).queue) : ∃ u, Awake s u := by
  by_cases hv : (s.sync.sems .bmsem).value = 0
  · obtain ⟨u, hu⟩ : ∃ u, s.stage u = .locked ∨ s.stage u = .loading := by
      by_contra hn
      have := h.bmsem.value_of_empty (not_exists.mp hn)
      rw [hv] at this
      cases this
    refine ⟨u, hI.awake ?_ ?_⟩ <;> revert hu <;> unfold State.stage
    · cases s.pc u <;> simp [PC.stage, PC.sem]
    · unfold State.ph
      cases s.pc u <;> simp [PC.stage, PC.phase, Phase.active]
  · obtain ⟨u, hu, hr⟩ := h.woken hv (List.ne_nil_of_mem hm)
    refine ⟨u, hr, ?_⟩
    revert hu
    unfold State.stage State.ph
    cases s.pc u <;> simp [PC.stage, PC.phase, Phase.active]

/-- What a process sleeps for is somebody awake, or a child, which is younger. -/
theorem awake_or_younger (hI : Inv s) (hL : LockInv s.stage s.sync) (hE : Elder s)
    (hA : AllAwaited s) (hM : Made s) (ht : (s.ph t).active = true) :
    (∃ u, Awake s u) ∨ ∃ c, t < c ∧ (s.ph c).active = true := by
  have hchild : ∀ c, s.table.parent c = some t → (s.ph c).undec = true →
      (∃ u, Awake s u) ∨ ∃ c, t < c ∧ (s.ph c).active = true := by
    intro c hpar hu
    have hborn : s.ph c ≠ .unborn := fun e => (hI.table.parent c t hpar).1
      ((hI.table.noPid c).mpr (.inr ((hI.table.unborn c).mp e)))
    by_cases hc : s.ph c = .created
    · obtain ⟨u, i, par, hu, -⟩ := hM c hc
      exact .inl ⟨u, hL.hatching_awake hI hu⟩
    · refine .inr ⟨c, hE c t hpar, ?_⟩
      cases hph : s.ph c <;> simp_all [Phase.active, Phase.undec]
  cases hst : s.sync.status t with
  | ready => exact .inl ⟨t, hst, ht⟩
  | justCreated => rcases hI.fresh t hst with e | e <;> rw [e] at ht <;> cases ht
  | blocked =>
      cases hpc : s.pc t with
      | execBmsem f =>
          refine .inl (hL.asks_awake (t := t) hI ((hI.sync.mem .bmsem t).mpr ⟨hst, ?_⟩))
          rw [State.waits, hpc]
          rfl
      | execMutex f i par => exact absurd (by rw [State.stage, hpc]; rfl) (hL.passing t)
      | execAddrLock i par => exact absurd (by rw [State.stage, hpc]; rfl) (hL.passing t)
      | joinWait j i c =>
          obtain ⟨x, -, hpar, -, hrel⟩ := hA t j i c hpc hst
          refine hchild x hpar ?_
          revert hrel
          unfold State.ph
          cases s.pc x <;> simp [PC.released, PC.phase, Phase.undec]
      | exitWait ec j par =>
          obtain ⟨-, -, b, hb, hbt⟩ := hI.own (t := t) (j := j) (by rw [hpc]; rfl)
          have hx := hI.exit t j b hb hbt
          unfold ExitOk at hx
          rw [hpc] at hx
          rcases hx.2 with ⟨-, -, hn⟩ | ⟨-, hr, -⟩
          · obtain ⟨c, hc⟩ := Finset.nonempty_iff_ne_empty.mpr hn
            obtain ⟨-, hpar, hu⟩ := Table.mem_undec.mp hc
            exact hchild c hpar hu
          · rw [hst] at hr
            cases hr
      | _ => exact .inl ⟨t, hI.awake (by rw [hpc]; rfl) ht⟩

theorem awake_of_active (hI : Inv s) (hL : LockInv s.stage s.sync) (hE : Elder s)
    (hA : AllAwaited s) (hM : Made s) (ht : (s.ph t).active = true) : ∃ u, Awake s u := by
  -- on the number of threads made behind `t`
  induction hn : s.table.nextTid - t using Nat.strong_induction_on generalizing t with
  | _ n ih =>
      rcases awake_or_younger hI hL hE hA hM ht with hu | ⟨c, hc, ha⟩
      · exact hu
      · have hlt : c < s.table.nextTid := hI.table.lt_nextTid fun e => by
          rw [e] at ha
          cases ha
        exact ih _ (hn ▸ Nat.sub_lt_sub_left (hc.trans hlt) hc) ha rfl

theorem exitJoinReleased_ne_disabled {ec : Int} {i j : Pid} :
    s.exitJoinReleased t ec i j ≠ .error .disabled := by
  intro h
  unfold State.exitJoinReleased at h
  split at h
  · cases h
  dsimp only at h
  split at h <;> cases h

theorem exitWaited_ne_disabled {ec : Int} {i : Pid} {par : Option Pid} :
    s.exitWaited t ec i par ≠ .error .disabled := by
  intro h
  unfold State.exitWaited at h
  split at h
  · cases h
  split at h
  · cases h
  split at h
  · cases h
  · exact exitJoinReleased_ne_disabled h

/-- The kernel code a thread is in goes on, or aborts. -/
theorem resume_ne_disabled {host : Host} (ha : (s.ph t).active = true) (hb : s.pc t ≠ .boot)
    (hu : s.pc t ≠ .user) : s.resume t host ≠ .error .disabled := by
  intro h
  unfold State.resume at h
  unfold State.ph at ha
  cases hpc : s.pc t with
  | boot => exact hb hpc
  | user => exact hu hpc
  | unborn | created | done _ | gone =>
      rw [hpc] at ha
      cases ha
  | execLocked f i par =>
      simp only [hpc, State.execLocked] at h
      split at h
      · cases h
      · split at h <;> cases h
  | execSpace i par =>
      simp only [hpc, State.execSpace] at h
      split at h
      · cases h
      split at h
      · rename_i he
        cases h
        rcases build_error he with e | e <;> cases e
      · cases h
  | execBuilt i par =>
      simp only [hpc, State.execBuilt] at h
      split at h
      · cases h
      split at h
      · cases h
      · split at h <;> cases h
  | execUnlocked i par =>
      simp only [hpc, State.execUnlocked] at h
      split at h
      · cases h
      · split at h <;> cases h
  | execRet r =>
      simp only [hpc] at h
      split at h <;> cases h
  | joinWoken j i c =>
      simp only [hpc, State.joinWoken] at h
      split at h <;> cases h
  | exitWaited ec i par =>
      rw [hpc] at h
      exact exitWaited_ne_disabled h
  | exitJoinReleased ec i j =>
      rw [hpc] at h
      exact exitJoinReleased_ne_disabled h
  | _ =>
      rw [hpc] at h
      cases h

/-- The thread makes a step, or aborts in it, when it gets the CPU.  The bits that the hardware sets
are none. -/
def State.CanGoOn (s : State) (t : Tid) : Prop :=
  ∃ a : Action, a.thread = t ∧ (∀ l, a ≠ .touch t l) ∧ step s a ≠ .error .disabled

theorem Awake.canGoOn (h : Awake s t) (hr : Reachable s) (hh : s.halted = false) :
    s.CanGoOn t := by
  by_cases hu : s.pc t = .user
  · refine ⟨.halt t, rfl, fun _ e => (by cases e), ?_⟩
    simp [step, hh, State.InUser, h.1, hu]
  by_cases hb : s.pc t = .boot
  · have hc := (reachable_callInv hr).ok t
    rw [hb] at hc
    obtain ⟨-, rfl⟩ := hc
    refine ⟨.boot [], rfl, fun _ e => (by cases e), ?_⟩
    simp [step, hh, h.1, hb]
  · refine ⟨.resume t ⟨false, noff⟩, rfl, fun _ e => (by cases e), ?_⟩
    simp only [step, hh, h.1, if_true]
    exact resume_ne_disabled h.2 hb hu

theorem init_lock (heap : Nat → BitVec 32) : LockInv (init heap).stage (init heap).sync := by
  have hidle : ∀ u, (init heap).stage u = .idle := by
    intro u
    simp only [State.stage, init, Function.update_apply]
    split <;> rfl
  refine ⟨.free fun u => ?_, .free fun u => ?_, fun u => ?_, fun _ hq => absurd rfl hq⟩ <;>
    simp [hidle u]

theorem init_awaited (heap : Nat → BitVec 32) : AllAwaited (init heap) := by
  intro p j i c hpc
  simp only [init, Function.update_apply] at hpc
  split at hpc <;> cases hpc

theorem reachable_made (h : Reachable s) : Made s := by
  refine reachable_keeps h (fun heap c hc => ?_) fun hI hr hM => piece_made hI hr.2 hM
  simp only [State.ph, init, Function.update_apply] at hc
  split at hc <;> cases hc

theorem reachable_rooted (h : Reachable s) : Rooted s :=
  reachable_keeps h (fun _ => .inr ⟨0, rfl, rfl⟩) fun hI hr hR => piece_rooted hI hr.2 hR

/-- **The processes do not deadlock** in a run whose calls of Join that pass their checks are made
on processes that have not executed their `JoinRelease`: as long as the kernel has not halted, some
thread can go on. -/
theorem processes_goOn {heap : Nat → BitVec 32} (h : Steps step JoinsUnreleased (init heap) s)
    (hh : s.halted = false) : ∃ t, s.CanGoOn t := by
  have hr : Reachable s := ⟨heap, h.any⟩
  obtain ⟨hI, hA, hL⟩ := h.inv
    (I := fun s => Inv s ∧ AllAwaited s ∧ LockInv s.stage s.sync)
    ⟨init_inv heap, init_awaited heap, init_lock heap⟩
    fun _ _ _ hI ha hok => ⟨step_inv hI.1 hok, step_awaited hI.1 ha hok hI.2.1,
      step_lock hI.1 hI.2.2 hok⟩
  obtain hhalt | ⟨r, -, ha⟩ := reachable_rooted hr
  · rw [hh] at hhalt
    cases hhalt
  · obtain ⟨u, hu⟩ := awake_of_active hI hL (reachable_elder hr) hA (reachable_made hr) ha
    exact ⟨u, hu.canGoOn hr hh⟩

end

/-- The root sleeps for its child. -/
theorem processes_goOn_joined : ∃ s,
    run step JoinsUnreleased (init fun _ => 0) (startChild ++ [.join 1 1]) = some s ∧
      s.sync.status 1 = .blocked ∧ ∃ t, s.CanGoOn t := by
  obtain ⟨s, hs, hp⟩ := (Option.any_eq_true ..).mp (show (run step JoinsUnreleased
    (init fun _ => 0) (startChild ++ [.join 1 1])).any (fun s =>
      s.sync.status 1 = .blocked ∧ s.halted = false) = true by decide +kernel)
  obtain ⟨hst, hh⟩ := of_decide_eq_true hp
  exact ⟨s, hs, hst, processes_goOn (Steps.of_run hs) hh⟩

end Nachos.Proc
