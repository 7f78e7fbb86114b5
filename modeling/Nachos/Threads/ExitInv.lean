import Nachos.Threads.ExecInv

/-!
# Threads — `JoinUpdate` and `ExitUpdate` keep the invariant

The two calls that sleep, the two releases that wake their sleepers, and the end of a process; then
`step_inv` and `reachable_inv`.
-/

namespace Nachos.Proc
open Relation (ReflTransGen)
open Lib

section
variable {s s' : State} {t p c : Tid} {i j : Pid} {b b' : PCB}

/-! ### The calls -/

/-- What a process in user code finds in its own PCB. -/
theorem Inv.user_pcb (h : Inv s) (hu : s.InUser t) (hj : s.table.pidOf t = some j)
    (hb : s.table.pcb j = some b) :
    b.thread = some t ∧ b.joinID = none ∧ s.joinValue j = 0 ∧ s.exitValue j = 0 ∧
      b.isExit = false := by
  have hd : s.ph t ≠ .dead := by rw [State.ph, hu.2]; decide
  have hbt := h.table.pcb_of_pid hj hd hb
  obtain ⟨h₁, h₂⟩ := (h.join t j b hb hbt).calm (by rw [hu.2]; rfl)
  obtain ⟨h₃, h₄⟩ := (h.exit t j b hb hbt).calm (by rw [hu.2]; rfl)
  refine ⟨hbt, h₁, h₂, h₃, ?_⟩
  by_contra he
  have := h₄ (by simpa using he)
  rw [State.ph, hu.2] at this
  cases this

/-- `joinID = joinid; joinsem->P();` puts the caller to sleep. -/
theorem Inv.joinWait {d : PCB} (h : Inv s) (hu : s.InUser t) (hj : s.table.pidOf t = some j)
    (hb : s.table.pcb j = some b) (hd : s.table.pcb i = some d) :
    Inv (((s.setPcb j { b with joinID := some i }).goto t (.joinWait j i d.thread)).P t) := by
  obtain ⟨hbt, -, hjv, hxv, hex⟩ := h.user_pcb hu hj hb
  have hnb : s.sync.status t ≠ .blocked := by rw [hu.1]; decide
  have hrun : s.ph t = .running := by rw [State.ph, hu.2]; rfl
  rw [P_block (s := (s.setPcb j { b with joinID := some i }).goto t (.joinWait j i d.thread))
    (r := .joinsem j) (by rw [goto_pc_self]; rfl) hjv]
  generalize hs' : State.mk .. = s'
  have hpc : s'.pc = Function.update s.pc t (.joinWait j i d.thread) := by rw [← hs']; rfl
  have htab : s'.table = s.table.setPcb j { b with joinID := some i } := by rw [← hs']; rfl
  have hsync : s'.sync = (s.sync.P t (.joinsem j)).1 := by rw [← hs']; rfl
  clear hs'
  have hpct : s'.pc t = .joinWait j i d.thread := by rw [hpc, Function.update_self]
  have hblocked : s'.sync.status t = .blocked := by rw [hsync]; exact Sync.P_status_zero hjv t
  have hph : s'.ph = s.ph := by
    funext u
    by_cases e : u = t
    · rw [e, hrun, State.ph, hpct]; rfl
    · rw [State.ph, State.ph, hpc, Function.update_of_ne e]
  refine h.ofOwn (q := .joinWait j i d.thread) hj (by rw [hrun]; decide) hpc htab
    (hph ▸ htab ▸ h.table.setPcb hb hbt rfl rfl rfl)
    (hsync ▸ (h.sync.goto hnb (some (.joinsem j))).P hnb (Function.update_self ..))
    (fun u hu => hsync ▸ Sync.P_status_ne _ _ hu) (by rw [hblocked]; decide)
    (fun r hr _ => hsync ▸ Sync.P_sems_ne _ _ hr) rfl
    (fun r hr => by cases hr) (by rw [hrun]; rfl) (by rw [hu.2]; rfl) ⟨?_, ?_⟩
  · unfold JoinOk State.joinValue
    rw [hpct, hsync]
    refine .inl ⟨rfl, Sync.P_value_zero hjv t, hsync ▸ hblocked, fun x _ hid hr => ?_⟩
    -- an unreleased process with this pid is the one in the slot
    refine h.table.pcb_of_pid (by rwa [htab] at hid) ?_ hd
    rw [← hph]
    exact PC.not_dead_of_released hr
  · unfold ExitOk State.exitValue
    rw [hpct, hsync]
    refine ⟨(congrArg Semaphore.value (Sync.P_sems_ne _ _ (by simp))).trans hxv, fun he => ?_⟩
    rw [show b.isExit = true from he] at hex
    cases hex

/-- `isExit = 1; exitsem->P();` puts the caller to sleep. -/
theorem Inv.exitWait {ec : Int} (h : Inv s) (hu : s.InUser t) (hj : s.table.pidOf t = some j)
    (hb : s.table.pcb j = some b) (hn : 0 < b.numwait) :
    Inv (((s.setPcb j { b with isExit := true }).goto t (.exitWait ec j b.parentID)).P t) := by
  obtain ⟨hbt, hid, hjv, hxv, -⟩ := h.user_pcb hu hj hb
  have hnb : s.sync.status t ≠ .blocked := by rw [hu.1]; decide
  have hrun : s.ph t = .running := by rw [State.ph, hu.2]; rfl
  rw [P_block (s := (s.setPcb j { b with isExit := true }).goto t (.exitWait ec j b.parentID))
    (r := .exitsem j) (by rw [goto_pc_self]; rfl) hxv]
  generalize hs' : State.mk .. = s'
  have hpc : s'.pc = Function.update s.pc t (.exitWait ec j b.parentID) := by rw [← hs']; rfl
  have htab : s'.table = s.table.setPcb j { b with isExit := true } := by rw [← hs']; rfl
  have hsync : s'.sync = (s.sync.P t (.exitsem j)).1 := by rw [← hs']; rfl
  clear hs'
  have hpct : s'.pc t = .exitWait ec j b.parentID := by rw [hpc, Function.update_self]
  have hblocked : s'.sync.status t = .blocked := by rw [hsync]; exact Sync.P_status_zero hxv t
  have hph : s'.ph = s.ph := by
    funext u
    by_cases e : u = t
    · rw [e, hrun, State.ph, hpct]; rfl
    · rw [State.ph, State.ph, hpc, Function.update_of_ne e]
  refine h.ofOwn (q := .exitWait ec j b.parentID) hj (by rw [hrun]; decide) hpc htab
    (hph ▸ htab ▸ h.table.setPcb hb hbt rfl rfl rfl)
    (hsync ▸ (h.sync.goto hnb (some (.exitsem j))).P hnb (Function.update_self ..))
    (fun u hu => hsync ▸ Sync.P_status_ne _ _ hu) (by rw [hblocked]; decide)
    (fun r _ hr => hsync ▸ Sync.P_sems_ne _ _ hr) rfl
    (fun r hr => ?_) (by rw [hrun]; rfl) (by rw [hu.2]; rfl) ⟨?_, ?_⟩
  · cases hr; exact (h.table.slot j b t hb hbt).2.2
  · unfold JoinOk State.joinValue
    rw [hpct, hsync]
    exact ⟨hid, (congrArg Semaphore.value (Sync.P_sems_ne _ _ (by simp))).trans hjv⟩
  · unfold ExitOk State.exitValue State.undec
    rw [hpct, hph, htab, show Table.undec (s.table.setPcb j _) s.ph t = s.table.undec s.ph t from
      TInv.undec_congr rfl rfl fun _ _ => rfl]
    refine ⟨rfl, .inl ⟨hsync ▸ Sync.P_value_zero hxv t, hblocked, fun e => ?_⟩⟩
    have hcard := h.table.numwait j b t hb hbt
    rw [hrun, e] at hcard
    simp [Phase.pend] at hcard
    omega

/-- `ExitWait` with no child to wait for. -/
theorem Inv.pass {ec : Int} (h : Inv s) (hu : s.InUser t) (hj : s.table.pidOf t = some j)
    (hb : s.table.pcb j = some b) (hn : ¬ 0 < b.numwait) :
    Inv (s.goto t (.exitWaited ec j b.parentID)) := by
  have hrun : s.ph t = .running := by rw [State.ph, hu.2]; rfl
  have hbt := (h.user_pcb hu hj hb).1
  have hemp : s.table.undec s.ph t = ∅ := by
    have hcard := h.table.numwait j b t hb hbt
    rw [hrun] at hcard
    simp only [Phase.pend] at hcard
    rw [← Finset.card_eq_zero]
    omega
  refine h.ofGoto (q := .exitWaited ec j b.parentID) rfl rfl hu.1
    (h.table.pass hrun hemp fun u => ph_goto s t _ u)
    (by rw [hu.2]; rfl) rfl (fun k hk => ?_) (fun q hq => ?_)
    (fun hr => by rw [hu.2] at hr; cases hr) (fun hp => by rw [hrun] at hp; cases hp)
    (fun k q hk => by cases hk) rfl rfl (fun p j d hd hp => .inl ⟨d, hd, hp, rfl, rfl, rfl⟩)
    (fun p _ _ _ _ => ?_)
  · cases hk; exact hj
  · cases hq; exact (h.table.slot j b t hb hbt).2.2
  · rw [undec_goto (by rw [hrun]; rfl)]

/-! ### The releases -/

/-- The parent of a process before `DecNumWait` is alive, in the slot the process knows. -/
theorem Inv.parent_slot (h : Inv s) (ht : s.ph t = .waited) (hp : (s.pc t).exitPar = some (some j))
    (hb : s.table.pcb j = some b) :
    ∃ p, s.table.parent t = some p ∧ s.table.pidOf p = some j ∧ (s.ph p).past = false ∧
      b.thread = some p ∧ t ∈ s.undec p := by
  have hq := h.exitPar t (some j) hp
  obtain ⟨p, hpar, hpj⟩ := Option.bind_eq_some_iff.mp hq.symm
  obtain ⟨hmem, hpast, k, d, hk, hd, hdp⟩ := h.table.live_parent hpar (by rw [ht]; rfl)
  rw [hpj] at hk
  cases hk
  rw [hb] at hd
  cases hd
  exact ⟨p, hpar, hpj, hpast, hdp, hmem⟩

/-- The end of `ExitUpdate`. -/
theorem Inv.exitReleased {ec : Int} (h : Inv s) (hs : s.sync.status t = .ready)
    (hpc : s.pc t = .exitReleased ec j) : Inv (s.exitReleased t ec j) := by
  have ht : s.ph t = .decd := by rw [State.ph, hpc]; rfl
  obtain ⟨hp, -, -⟩ := h.own (t := t) (j := j) (by rw [hpc]; rfl)
  refine h.ofGoto rfl rfl hs ?_ (by rw [hpc]; rfl) rfl (fun k hk => by cases hk)
    (fun q hq => by cases hq) (fun _ => ⟨rfl, by rw [hpc]; rfl⟩) (fun _ => rfl)
    (fun k q hk => by cases hk) rfl rfl (fun p k d hd hp' => ?_) (fun p _ _ _ _ => ?_)
  · exact h.table.finish ht hp (fun k => BitMap.test_clear _ _ _)
      (Function.update_apply s.table.pcb j none) fun u => ph_goto _ _ _ _
  · replace hd : Function.update s.table.pcb j none k = some d := hd
    by_cases e : k = j
    · rw [e, Function.update_self] at hd; cases hd
    · rw [Function.update_of_ne e] at hd
      exact .inl ⟨d, hd, hp', rfl, rfl, rfl⟩
  · exact iff_of_eq (congrArg (· = ∅) (undec_goto (s := s) (by rw [ht]; rfl)))

/-- A child `t` goes on to `q` and wakes its parent `p`, which sleeps in a handshake. -/
theorem Inv.ofRelease {q : PC} {r : SemRef} (h : Inv s) (hs : s.sync.status t = .ready)
    (hp : s.table.pidOf p = some j) (hrun : s.ph p = .running) (hpt : p ≠ t)
    (hr : r = .joinsem j ∨ r = .exitsem j) (hqueue : (s.sync.sems r).queue = [p])
    (hpcs : s'.pc = Function.update s.pc t q) (htab : s'.table = s.table.setPcb j b)
    (hsync : s'.sync = s.sync.V r) (hT : TInv s'.table s'.ph)
    (hc : (s.pc t).waiting = false) (hq : q.handshake = false)
    (hself : ∀ k, q.self = some k → s.table.pidOf t = some k)
    (hpar : ∀ x, q.exitPar = some x → x = (s.table.parent t).bind s.table.pidOf)
    (hrel : q.released = true ∧ q.exitCode = (s.pc t).exitCode) (hpast : q.phase.past = true)
    (hundec : ∀ u, u ≠ p → s'.undec u = s.undec u)
    (hhand : JoinOk s' p j b ∧ ExitOk s' p j b) : Inv s' := by
  have hpct : s'.pc t = q := by rw [hpcs, Function.update_self]
  have hpcu : ∀ u, u ≠ t → s'.pc u = s.pc u := fun u hu => by
    rw [hpcs, Function.update_of_ne hu]
  have hstat : ∀ u, u ≠ p → s'.sync.status u = s.sync.status u := fun u hu => by
    rw [hsync, Sync.V_cons hqueue]
    exact Function.update_of_ne hu _ _
  have hwoken : s'.sync.status p = .ready := by
    rw [hsync, Sync.V_cons hqueue]
    exact Function.update_self ..
  have hsem : q.sem = none ∧ ∀ i x, q.phase ≠ .building i x := by
    revert hpast
    cases q <;> simp [PC.phase, Phase.past, PC.sem]
  have hsems : ∀ r', r' ≠ .joinsem j → r' ≠ .exitsem j → s'.sync.sems r' = s.sync.sems r' :=
    fun r' h₁ h₂ => by
      rw [hsync]
      refine Sync.V_sems_ne _ ?_
      rcases hr with rfl | rfl
      · exact h₁
      · exact h₂
  refine h.ofHand hp (by rw [hrun]; decide) ?_ hT ?_ (fun u hu => ?_) ?_ ?_ ?_ ?_ ?_ ?_ ?_ ?_ ?_ ?_
    ?_ ?_
  · rw [State.ph, hpcu p hpt]
    exact fun e => by rw [State.ph, e] at hrun; cases hrun
  · have hw : s'.waits = Function.update s.waits t none := by
      funext u
      by_cases e : u = t
      · rw [e, State.waits, hpct, Function.update_self, hsem.1]
      · rw [State.waits, hpcu u e, Function.update_of_ne e]; rfl
    rw [hsync, hw]
    exact (h.sync.goto (by rw [hs]; decide) none).V _
  · by_cases e : u = t
    · subst e
      have hst : s'.sync.status u = .ready := (hstat u hu).trans hs
      refine .inr ⟨?_, ?_, hc, ?_, ?_, ?_, ?_, ?_, ?_, ?_⟩
      · rw [hs]; decide
      · rw [hst]; decide
      · rw [hpct]; exact hq
      · rw [hpct]; exact hself
      · rw [hpct]; exact hpar
      · rw [hpct]; exact fun _ => hrel
      · exact fun _ => by rw [State.ph, hpct]; exact hpast
      · rw [State.ph, hpct]; exact fun i x hx => absurd hx (hsem.2 i x)
      · rw [hst]; rintro ⟨⟩
    · exact .inl ⟨hpcu u e, hstat u hu⟩
  · rw [hpcu p hpt]
    intro k hk
    exact h.self_eq hk hp
  · rw [hpcu p hpt]; exact h.exitPar p
  · rw [hwoken]; decide
  · intro u i x hx
    by_cases e : u = t
    · rw [e, State.ph, hpct] at hx
      exact absurd hx (hsem.2 i x)
    · rw [State.ph, ← hpcu u e]; exact hx
  · exact fun k hk => congrArg Semaphore.value (hsems _ (by simpa using hk) (by simp))
  · exact fun k hk => congrArg Semaphore.value (hsems _ (by simp) (by simpa using hk))
  · rw [htab]; rfl
  · rw [htab]; rfl
  · intro k hk
    rw [htab, Table.setPcb_pcb, Function.update_of_ne hk]
  · intro x hx
    by_cases e : x = t
    · rw [e, hpct]; exact hrel
    · rw [hpcu x e]; exact ⟨hx, rfl⟩
  · intro u hu _ _ _ _
    rw [hundec u hu]
  · intro d hd _
    rw [htab, Table.setPcb_pcb, Function.update_self, Option.some.injEq] at hd
    exact hd ▸ hhand

/-- `JoinRelease` by the child its parent waits for. -/
theorem Inv.joinRelease {ec : Int} (h : Inv s) (hs : s.sync.status t = .ready)
    (hpc : s.pc t = .exitWaited ec i (some j)) (hb : s.table.pcb j = some b)
    (hid : b.joinID = some i) :
    Inv (((s.setPcb j { b with joinID := none, joinExitcode := ec }).goto t
      (.exitJoinReleased ec i j)).V (.joinsem j)) := by
  have ht : s.ph t = .waited := by rw [State.ph, hpc]; rfl
  have hpid : s.table.pidOf t = some i := h.self t i (by rw [hpc]; rfl)
  obtain ⟨p, hpar, hp, hpast, hbp, hmem⟩ := h.parent_slot ht (by rw [hpc]; rfl) hb
  -- a `joinID` is there, so the parent sleeps in `joinsem->P()`, and for this child
  obtain ⟨k, c, hpcp, hv, hbl, hjoinee⟩ : ∃ k c, s.pc p = .joinWait k i c ∧ s.joinValue j = 0 ∧
      s.sync.status p = .blocked ∧ c = some t := by
    have hj := h.join p j b hb hbp
    unfold JoinOk at hj
    split at hj
    · rename_i k id c e
      rcases hj with ⟨h₁, h₂, h₃, h₄⟩ | ⟨h₁, -⟩
      · obtain rfl : i = id := Option.some.inj (hid.symm.trans h₁)
        exact ⟨k, c, e, h₂, h₃, h₄ t hpar hpid (by rw [hpc]; rfl)⟩
      · rw [hid] at h₁; cases h₁
    · rw [hid] at hj; cases hj.1
    · rw [hid] at hj; cases hj.1
  subst hjoinee
  have hrun : s.ph p = .running := by rw [State.ph, hpcp]; rfl
  have hpt : p ≠ t := fun e => by rw [e, ht] at hrun; cases hrun
  obtain rfl : k = j := h.self_eq (by rw [hpcp]; rfl) hp
  have hexit : s.exitValue k = 0 ∧ (b.isExit = true → (s.pc p).phase.past = true) := by
    have hx := h.exit p k b hb hbp
    unfold ExitOk at hx
    rw [hpcp] at hx ⊢
    exact hx
  have hqueue : (s.sync.sems (.joinsem k)).queue = [p] :=
    h.queue_alone rfl hbl (by rw [State.waits, hpcp]; rfl)
  generalize hs' : State.V _ _ = s'
  have hpcs : s'.pc = Function.update s.pc t (.exitJoinReleased ec i k) := by rw [← hs']; rfl
  have htab : s'.table = s.table.setPcb k { b with joinID := none, joinExitcode := ec } := by
    rw [← hs']; rfl
  have hsync : s'.sync = s.sync.V (.joinsem k) := by rw [← hs']; rfl
  clear hs'
  have hpct : s'.pc t = .exitJoinReleased ec i k := by rw [hpcs, Function.update_self]
  have hpcp' : s'.pc p = .joinWait k i (some t) := by
    rw [hpcs, Function.update_of_ne hpt, hpcp]
  have hph : s'.ph = s.ph := by
    funext u
    by_cases e : u = t
    · rw [e, ht, State.ph, hpct]; rfl
    · rw [State.ph, State.ph, hpcs, Function.update_of_ne e]
  refine h.ofRelease (r := .joinsem k) hs hp hrun hpt (.inl rfl) hqueue hpcs htab hsync
    (hph ▸ htab ▸ h.table.setPcb hb hbp rfl rfl rfl) (by rw [hpc]; rfl) rfl (fun x hx => ?_)
    (fun x hx => ?_) ⟨rfl, by rw [hpc]; rfl⟩ rfl (fun u _ => ?_) ⟨?_, ?_⟩
  · cases hx; exact hpid
  · cases hx; exact h.exitPar t (some k) (by rw [hpc]; rfl)
  · rw [State.undec, hph, htab]
    exact TInv.undec_congr rfl rfl fun _ _ => rfl
  · unfold JoinOk State.joinValue
    rw [hpcp', hsync, Sync.V_value]
    refine .inr ⟨rfl, ?_, ?_, t, rfl, ?_, ?_⟩
    · rw [show (s.sync.sems (.joinsem k)).value = 0 from hv]; rfl
    · rw [Sync.V_cons hqueue]; exact Function.update_self ..
    · rw [hpct]; rfl
    · rw [hpct]; rfl
  · unfold ExitOk State.exitValue
    rw [hpcp', hsync, Sync.V_sems_ne _ (by simp)]
    refine ⟨hexit.1, fun he => ?_⟩
    have := hexit.2 he
    rw [hpcp] at this
    exact this

/-- The last child's `DecNumWait` and `ExitRelease` wake the parent. -/
theorem Inv.exitRelease {ec : Int} (h : Inv s) (hs : s.sync.status t = .ready)
    (hpc : s.pc t = .exitJoinReleased ec i j) (hb : s.table.pcb j = some b)
    (hn : b.numwait - 1 = 0) (he : b.isExit = true) :
    Inv (((s.setPcb j { b with numwait := b.numwait - 1 }).goto t (.exitReleased ec i)).V
      (.exitsem j)) := by
  have ht : s.ph t = .waited := by rw [State.ph, hpc]; rfl
  obtain ⟨p, hpar, hp, hpast, hbp, hmem⟩ := h.parent_slot ht (by rw [hpc]; rfl) hb
  -- the parent has set `isExit` and still has a child, so it sleeps in `exitsem->P()`
  obtain ⟨ec', k, q, hpcp, hv, hbl⟩ : ∃ ec k q, s.pc p = .exitWait ec k q ∧ s.exitValue j = 0 ∧
      s.sync.status p = .blocked := by
    have hx := h.exit p j b hb hbp
    unfold ExitOk at hx
    split at hx
    · rename_i e
      rcases hx.2 with ⟨h₁, h₂, -⟩ | ⟨-, -, h₃⟩
      · exact ⟨_, _, _, e, h₁, h₂⟩
      · rw [h₃] at hmem; cases hmem
    · rw [show (s.ph p).past = true from hx.2 he] at hpast; cases hpast
  have hrun : s.ph p = .running := by rw [State.ph, hpcp]; rfl
  have hpt : p ≠ t := fun e => by rw [e, ht] at hrun; cases hrun
  obtain rfl : k = j := h.self_eq (by rw [hpcp]; rfl) hp
  have hjoin : b.joinID = none ∧ s.joinValue k = 0 := by
    have hj := h.join p k b hb hbp
    unfold JoinOk at hj
    rw [hpcp] at hj
    exact hj
  have hqueue : (s.sync.sems (.exitsem k)).queue = [p] :=
    h.queue_alone rfl hbl (by rw [State.waits, hpcp]; rfl)
  generalize hs' : State.V _ _ = s'
  have hpcs : s'.pc = Function.update s.pc t (.exitReleased ec i) := by rw [← hs']; rfl
  have htab : s'.table = s.table.setPcb k { b with numwait := b.numwait - 1 } := by
    rw [← hs']; rfl
  have hsync : s'.sync = s.sync.V (.exitsem k) := by rw [← hs']; rfl
  clear hs'
  have hpct : s'.pc t = .exitReleased ec i := by rw [hpcs, Function.update_self]
  have hpcp' : s'.pc p = .exitWait ec' k q := by rw [hpcs, Function.update_of_ne hpt, hpcp]
  have hph : ∀ u, s'.ph u = if u = t then .decd else s.ph u := fun u => by
    by_cases e : u = t
    · rw [if_pos e, e, State.ph, hpct]; rfl
    · rw [if_neg e, State.ph, State.ph, hpcs, Function.update_of_ne e]
  obtain ⟨hund, hT⟩ := h.table.dec ht hpar hb hbp hph
  have hundec : ∀ u, s'.undec u = s.table.undec s'.ph u := fun u =>
    TInv.undec_congr (by rw [htab]; rfl) (by rw [htab]; rfl) fun _ _ => rfl
  refine h.ofRelease (r := .exitsem k) hs hp hrun hpt (.inr rfl) hqueue hpcs htab hsync
    (htab ▸ hT) (by rw [hpc]; rfl) rfl (fun x hx => ?_)
    (fun x hx => by cases hx) ⟨rfl, by rw [hpc]; rfl⟩ rfl (fun u hu => ?_) ⟨?_, ?_⟩
  · cases hx; exact h.self t i (by rw [hpc]; rfl)
  · rw [hundec]
    refine TInv.undec_congr rfl rfl fun x hx => ?_
    have e : x ≠ t := by
      rintro rfl
      rw [hpar] at hx
      exact hu (Option.some.inj hx).symm
    rw [hph, if_neg e]
  · unfold JoinOk State.joinValue
    rw [hpcp', hsync, Sync.V_sems_ne _ (by simp)]
    exact hjoin
  · unfold ExitOk State.exitValue
    rw [hpcp', hsync, Sync.V_value, hundec]
    refine ⟨he, .inr ⟨?_, ?_, ?_⟩⟩
    · rw [show (s.sync.sems (.exitsem k)).value = 0 from hv]; rfl
    · rw [Sync.V_cons hqueue]; exact Function.update_self ..
    · have hcard := hT.numwait k { b with numwait := b.numwait - 1 } p (by simp) hbp
      rw [hph p, if_neg hpt, hrun, show Table.undec (s.table.setPcb k _) s'.ph p =
        s.table.undec s'.ph p from TInv.undec_congr rfl rfl fun _ _ => rfl] at hcard
      simp only [Phase.pend, hn] at hcard
      rw [← Finset.card_eq_zero]
      exact_mod_cast hcard.symm

/-- `DecNumWait`, with nobody to wake. -/
theorem Inv.dec {ec : Int} (h : Inv s) (hs : s.sync.status t = .ready)
    (hpc : s.pc t = .exitJoinReleased ec i j) (hb : s.table.pcb j = some b)
    (hn : ¬ (b.numwait - 1 = 0 ∧ b.isExit = true)) :
    Inv ((s.setPcb j { b with numwait := b.numwait - 1 }).goto t (.exitReleased ec i)) := by
  have ht : s.ph t = .waited := by rw [State.ph, hpc]; rfl
  obtain ⟨p, hpar, hp, hpast, hbp, hmem⟩ := h.parent_slot ht (by rw [hpc]; rfl) hb
  obtain ⟨hund, hT⟩ := h.table.dec ht hpar hb hbp
    (fun u => ph_goto (s.setPcb j { b with numwait := b.numwait - 1 }) t (.exitReleased ec i) u)
  refine h.ofGoto rfl rfl hs hT (by rw [hpc]; rfl) rfl (fun k hk => ?_)
    (fun q hq => by cases hq) (fun _ => ⟨rfl, by rw [hpc]; rfl⟩) (fun _ => rfl)
    (fun k q hk => by cases hk) rfl rfl (fun u k d hd hu => ?_) (fun u ec' k q hu => ?_)
  · cases hk; exact h.self t i (by rw [hpc]; rfl)
  · rcases Table.setPcb_cases hd with ⟨rfl, rfl⟩ | ⟨-, hd⟩
    · exact .inl ⟨b, hb, hu, rfl, rfl, rfl⟩
    · exact .inl ⟨d, hd, hu, rfl, rfl, rfl⟩
  · generalize hs' : (s.setPcb j { b with numwait := b.numwait - 1 }).goto t
      (.exitReleased ec i) = s' at hund hT ⊢
    have htab : s'.table = s.table.setPcb j { b with numwait := b.numwait - 1 } := by
      rw [← hs']; rfl
    have hph : ∀ u, s'.ph u = if u = t then .decd else s.ph u := fun u => by
      rw [← hs', ph_goto]; rfl
    have hundec : ∀ u, s'.undec u = s.table.undec s'.ph u := fun u =>
      TInv.undec_congr (by rw [htab]; rfl) (by rw [htab]; rfl) fun _ _ => rfl
    clear hs'
    by_cases e : u = p
    · -- an exiting parent keeps a child: otherwise this was the last one, and would wake it
      subst e
      have hut : u ≠ t := fun e => by rw [e, hpc] at hu; cases hu
      have hisExit : b.isExit = true := by
        have hx := h.exit u j b hb hbp
        unfold ExitOk at hx
        rw [hu] at hx
        exact hx.1
      have hcard := hT.numwait j { b with numwait := b.numwait - 1 } u (by simp) hbp
      rw [hph u, if_neg hut, State.ph, hu, show Table.undec (s.table.setPcb j _) s'.ph u =
        s.table.undec s'.ph u from TInv.undec_congr rfl rfl fun _ _ => rfl] at hcard
      refine iff_of_false (fun e => ?_) fun e => by rw [e] at hmem; cases hmem
      rw [← hundec, e] at hcard
      exact hn ⟨by simpa [PC.phase, Phase.pend] using hcard, hisExit⟩
    · rw [hundec]
      refine iff_of_eq (congrArg (· = ∅) (TInv.undec_congr rfl rfl fun x hx => ?_))
      have ex : x ≠ t := by
        rintro rfl
        rw [hpar] at hx
        exact e (Option.some.inj hx).symm
      rw [hph, if_neg ex]

/-! ### Every step -/

/-- Every piece keeps the invariant. -/
theorem piece_inv {o : Input} (h : Inv s) (hs : s.sync.status t = .ready)
    (hp : Piece t o s s') : Inv s' := by
  have hcalled : Inv (s.called t) := h.congr rfl rfl rfl
  cases hp with
  | halt | touch => exact h.congr rfl rfl rfl
  | call hu =>
      exact hcalled.exec hs (congrArg PC.phase hu.2).symm (congrArg PC.waiting hu.2)
        (congrArg PC.released hu.2) ⟨rfl, rfl, rfl⟩
  | refused hu =>
      exact hcalled.ret hs (congrArg PC.phase hu.2) (congrArg PC.waiting hu.2) _
  | ret hpc | joinRet hpc => exact h.ret hs (by rw [State.ph, hpc]; rfl) (by rw [hpc]; rfl) _
  | exec hq =>
      obtain ⟨h₁, h₂, h₃, h₄⟩ := hq.same
      exact h.exec hs h₁ h₂ h₃ h₄
  | P => exact h.P hs
  | V hr => exact h.V hr
  | newPCB hpc hi hpar h0 =>
      exact h.newPCB hs (by rw [State.ph, hpc]; rfl) (by rw [hpc]; rfl) (by rw [hpc]; rfl) hi
        (fun k => BitMap.test_mark _ _ _) hpar h0
  | newThread hpc h₁ h₂ h₃ h₄ h₅ => exact h.newThread hs hpc h₁ h₂ h₃ h₄ h₅
  | fail hpc => exact h.fail hs hpc
  | space hpc =>
      refine Inv.exec (h.congr rfl rfl rfl) hs ?_ ?_ ?_ ⟨rfl, rfl, rfl⟩
      · exact (congrArg PC.phase hpc).symm
      · exact congrArg PC.waiting hpc
      · exact congrArg PC.released hpc
  | fork hpc hb hc => exact h.fork hs hpc hb hc
  | takeOver hpc hb hc => exact h.takeOver hs hpc hb hc
  | bootInc hpc => exact h.bootInc hs hpc
  | inc hpc hb => exact h.inc hs hpc hb
  | joinWait _ hu hj hb hd => exact hcalled.joinWait hu hj hb hd
  | exitWait hu hj hb hn => exact hcalled.exitWait hu hj hb hn
  | pass hu hj hb hn => exact hcalled.pass hu hj hb hn
  | joinRelease hpc hb hid => exact h.joinRelease hs hpc hb hid
  | skip hpc =>
      refine h.goto hs (by rw [State.ph, hpc]; rfl) (by rw [hpc]; rfl) rfl (fun k hk => ?_)
        (fun q hq => ?_) (fun hr => by rw [hpc] at hr; cases hr)
      · cases hk; exact h.self t _ (by rw [hpc]; rfl)
      · cases hq; exact h.exitPar t _ (by rw [hpc]; rfl)
  | exitRelease hpc hb hn he => exact h.exitRelease hs hpc hb hn he
  | dec hpc hb hn => exact h.dec hs hpc hb hn
  | finish hpc => exact h.exitReleased hs hpc

theorem pieces_inv {o : Input} (h : Inv s) (hp : ReflTransGen (Runs t o) s s') :
    Inv s' := by
  induction hp with
  | refl => exact h
  | tail _ hr ih => exact piece_inv ih hr.1 hr.2

/-- **A step is a run of pieces** of the thread whose step it is. -/
theorem step_pieces {a : Action} (h : Inv s) (hok : step s a = .ok s') :
    ReflTransGen (Runs a.thread (a.input s)) s s' := by
  unfold step at hok
  split at hok
  · cases hok
  cases a with
  | boot f =>
      dsimp only at hok
      split at hok
      · rename_i hg
        cases hok
        exact (Runs.one (t := 0) hg.1 (.exec (hg.2 ▸ .boot))).tail ⟨hg.1, .P⟩
      · cases hok
  | exec t f =>
      dsimp only at hok
      split at hok
      · rename_i hg
        cases hok
        exact (Runs.one (t := t) hg.1 (.call hg)).tail ⟨hg.1, .P⟩
      · cases hok
  | join t id =>
      dsimp only at hok
      split at hok
      · rename_i hg
        exact joinUpdate_pieces rfl h hg hok
      · cases hok
  | exit t ec =>
      dsimp only at hok
      split at hok
      · rename_i hg
        exact exitUpdate_pieces h hg hok
      · cases hok
  | halt t =>
      dsimp only at hok
      split at hok
      · rename_i hg; cases hok; exact Runs.one (t := t) hg.1 .halt
      · cases hok
  | touch t pageTable =>
      dsimp only at hok
      split at hok
      · cases hok
      rename_i sp hsp
      split at hok
      · split at hok
        · rename_i hg; cases hok; exact Runs.one (t := t) hg (.touch hsp)
        · cases hok
      · cases hok
  | resume t host =>
      dsimp only at hok
      split at hok
      · rename_i hg; exact resume_pieces h hg hok
      · cases hok

theorem step_inv {a : Action} (h : Inv s) (hok : step s a = .ok s') : Inv s' :=
  pieces_inv h (step_pieces h hok)

/-- What every piece of a step keeps, the step keeps. -/
theorem step_keeps {a : Action} {I : State → Prop} (h : Inv s) (hok : step s a = .ok s')
    (hI : ∀ x y, Inv x → x.sync.status a.thread = .ready → Piece a.thread (a.input s) x y →
      I x → I y) (h₀ : I s) : I s' := by
  have hp := step_pieces h hok
  have : Inv s' ∧ I s' := by
    clear hok
    induction hp with
    | refl => exact ⟨h, h₀⟩
    | tail _ hr ih => exact ⟨piece_inv ih.1 hr.1 hr.2, hI _ _ ih.1 hr.1 hr.2 ih.2⟩
  exact this.2

theorem init_inv (heap : Nat → BitVec 32) : Inv (init heap) := by
  have hpc : ∀ t, (init heap).pc t = if t = 0 then .boot else .unborn := fun t => by
    simp [init, Function.update_apply]
  have hph : ∀ t, (init heap).ph t = if t = 0 then .running else .unborn := fun t => by
    rw [State.ph, hpc]; split <;> rfl
  have hbm : ∀ i, (init heap).table.bm.test i = false := fun i => BitMap.test_new _ i
  have hundec : ∀ p, (init heap).table.undec (init heap).ph p = ∅ := fun p => by
    rw [Finset.eq_empty_iff_forall_notMem]
    intro c hc
    cases (Table.mem_undec.mp hc).2.1
  refine ⟨⟨fun t => ?_, fun t => ?_, ?_, ?_, ?_, ?_, fun i => ?_, ?_, ?_, ?_, ?_, ?_, ?_⟩, ?_, ?_,
    ⟨fun r t => ?_, fun r => ?_, fun t ht => ?_⟩, fun t ht => ?_, ?_, ?_, ?_⟩
  · rw [hph]
    show _ ↔ 1 ≤ t
    rw [Nat.one_le_iff_ne_zero]
    split <;> simp_all
  · show none = none ↔ t = 0 ∨ 1 ≤ t
    simp only [true_iff, Nat.one_le_iff_ne_zero]
    exact em _
  · rintro c p ⟨⟩
  · rintro c i - ⟨⟩
  · rintro i b c ⟨⟩
  · rintro c i ⟨⟩
  · rw [hbm]
    refine iff_of_false (by simp) ?_
    rintro (⟨c, ⟨⟩, -⟩ | ⟨t, q, hq⟩)
    rw [hph] at hq
    split at hq <;> cases hq
  · intro t i q hq
    rw [hph] at hq
    split at hq <;> cases hq
  · intro t t' i q q' hq
    rw [hph] at hq
    split at hq <;> cases hq
  · intro t i q hq
    rw [hph] at hq
    split at hq <;> cases hq
  · intro t j hq
    rw [hph] at hq
    split at hq <;> cases hq
  · rintro i b p ⟨⟩
  · exact fun p _ => hundec p
  · intro t j hj
    rw [hpc] at hj
    split at hj <;> cases hj
  · intro t q hq
    rw [hpc] at hq
    split at hq <;> cases hq
  · have hq : ((init heap).sync.sems r).queue = [] := by cases r <;> rfl
    rw [hq]
    refine iff_of_false (by simp) ?_
    rintro ⟨-, hw⟩
    rw [State.waits, hpc] at hw
    split at hw <;> cases hw
  · have hq : ((init heap).sync.sems r).queue = [] := by cases r <;> rfl
    rw [hq]
    exact List.nodup_nil
  · simp only [init, Function.update_apply] at ht
    split at ht <;> cases ht
  · left
    rw [hph, if_neg]
    rintro rfl
    simp [init] at ht
  · intro t i q hq
    rw [hph] at hq
    split at hq <;> cases hq
  · rintro p j b ⟨⟩
  · rintro p j b ⟨⟩

/-- The invariant holds in every reachable state. -/
theorem reachable_inv (h : Reachable s) : Inv s := by
  obtain ⟨heap, h⟩ := h
  exact h.inv (init_inv heap) fun _ _ _ hI _ hs => step_inv hI hs

/-- What holds at the start and every piece keeps holds in every reachable state. -/
theorem reachable_keeps {I : State → Prop} (h : Reachable s) (h₀ : ∀ heap, I (init heap))
    (hI : ∀ {t o x y}, Inv x → Runs t o x y → I x → I y) : I s := by
  obtain ⟨heap, h⟩ := h
  refine (h.inv (I := fun s => Inv s ∧ I s) ⟨init_inv heap, h₀ heap⟩ fun x a x' hx _ hok => ?_).2
  exact ⟨step_inv hx.1 hok, step_keeps hx.1 hok (fun _ _ hy hs hp => hI hy ⟨hs, hp⟩) hx.2⟩

end

end Nachos.Proc
