import Nachos.Threads.Join

/-!
# Threads — when Join delivers the exit status

`JoinDelivers` is what Join is for: the call returns the code the child has passed, or will pass, to
`ExitUpdate`.  It does so exactly when the child has not yet executed its `JoinRelease` at the call,
or is gone with the code `-1` (`joinDelivers_iff`): a child that exits first leaves its code
nowhere.
-/

namespace Nachos.Proc
open Lib

section
variable {s s' s₁ s₂ : State} {t p c x : Tid} {i j : Pid} {b : PCB} {o : Input}

/-- The call of Join by which the process `p` has come to `s₁` delivers the status of `c`: until `p`
makes another system call, it is back in user code only with the code `c` has passed to
`ExitUpdate`; and once `c` has executed its `JoinRelease`, steps of `p` alone lead it back. -/
def JoinDelivers (s₁ : State) (p c : Tid) : Prop :=
  ∀ s₂, Steps step always s₁ s₂ → s₂.calls p = s₁.calls p → s₂.halted = false →
    (s₂.pc p = .user → (s₂.pc c).exitCode = some (s₂.result p)) ∧
    ((s₂.pc c).released = true → ∃ n, ∀ host, ∃ s₃,
      run step always s₂ (List.replicate n (.resume p host)) = some s₃ ∧
        s₃.calls p = s₂.calls p ∧ s₃.pc p = .user)

/-! ### A slot is used by one process after the other -/

theorem PC.dead_iff {pc : PC} : pc.phase = .dead ↔ pc = .gone ∨ ∃ ec, pc = .done ec := by
  cases pc <;> simp [PC.phase]

/-- A thread that is done stays where it is. -/
theorem piece_dead (h : Inv s) (hp : Piece t o s s') (hd : s.ph x = .dead) : s'.pc x = s.pc x := by
  have hno : ∀ {q}, s.pc x = q → q.phase ≠ .dead → False := fun e hq => by
    rw [State.ph, e] at hd; exact hq hd
  by_cases e : x = t
  · subst e
    cases hp with
    | halt | touch | V => rfl
    | P =>
        rw [P_none]
        rcases PC.dead_iff.mp hd with e | ⟨ec, e⟩ <;> rw [e] <;> rfl
    | call hu | refused hu | joinWait _ hu | exitWait hu | pass hu =>
        exact (hno hu.2 (by simp [PC.phase])).elim
    | exec hq =>
        generalize hpc : s.pc x = pc at hq
        cases hq <;> exact (hno hpc (by simp [PC.phase])).elim
    | ret hpc | joinRet hpc | newPCB hpc | newThread hpc | fail hpc | space hpc | fork hpc
    | takeOver hpc | bootInc hpc | inc hpc | joinRelease hpc | skip hpc | exitRelease hpc
    | dec hpc | finish hpc => exact (hno hpc (by simp [PC.phase])).elim
  · rcases piece_pc h hp e with e' | ⟨e', -⟩ | ⟨e', -⟩
    · exact e'
    · exact (hno e' (by simp [PC.phase])).elim
    · exact (hno e' (by simp [PC.phase])).elim

/-- When a thread is made for a slot, those made for it before are done. -/
def Successive (s : State) : Prop :=
  ∀ x c i, x < c → s.table.pidOf x = some i → s.table.pidOf c = some i → s.ph x = .dead

theorem piece_successive (h : Inv s) (hp : Piece t o s s') (hS : Successive s) : Successive s' := by
  have hdead : ∀ x, s.ph x = .dead → s'.ph x = .dead := fun x hx => by
    rw [State.ph, piece_dead h hp hx]; exact hx
  have hsame : s'.table.pidOf = s.table.pidOf → Successive s' := fun e x c i hlt hx hc =>
    hdead x (hS x c i hlt (e ▸ hx) (e ▸ hc))
  cases hp with
  | @newThread f k par b hpc =>
      intro x c i hlt hx hc
      apply hdead
      replace hx : Function.update s.table.pidOf s.table.nextTid (some k) x = some i := hx
      replace hc : Function.update s.table.pidOf s.table.nextTid (some k) c = some i := hc
      have hle : ∀ y, Function.update s.table.pidOf s.table.nextTid (some k) y = some i →
          y ≤ s.table.nextTid := by
        intro y hy
        by_contra hn
        rw [Function.update_of_ne (ne_of_gt (not_le.mp hn)),
          (h.table.noPid y).mpr (.inr (le_of_lt (not_le.mp hn)))] at hy
        cases hy
      have hxn : x ≠ s.table.nextTid := fun e => absurd (e ▸ hle c hc) (not_le.mpr hlt)
      rw [Function.update_of_ne hxn] at hx
      by_cases ec : c = s.table.nextTid
      · -- the slot of the new thread holds a PCB without thread
        rw [ec, Function.update_self] at hc
        cases hc
        by_contra hd
        have hb := (h.table.building t k par (by rw [State.ph, hpc]; rfl)).1
        cases h.table.pcb_of_pid hx hd hb
      · rw [Function.update_of_ne ec] at hc
        exact hS x c i hlt hx hc
  | P => exact hsame (by rw [P_table])
  | joinWait | exitWait => exact hsame (by rw [P_table]; rfl)
  | _ => exact hsame rfl

theorem reachable_successive (h : Reachable s) : Successive s :=
  reachable_keeps h (fun _ _ _ _ _ hx => by cases hx) fun hy hr => piece_successive hy hr.2

/-! ### The return -/

/-- A call that has been woken returns in one step. -/
theorem woken_returns (h : Inv s) (hh : s.halted = false) {c : Option Tid}
    (hpc : s.pc p = .joinWoken j i c) (host : Host) :
    ∃ s', step s (.resume p host) = .ok s' ∧ s'.calls = s.calls ∧ s'.pc p = .user := by
  have hst : s.sync.status p = .ready := by
    apply h.ready
    · rw [hpc]; rfl
    · rw [State.ph, hpc]; simp [PC.phase]
    · rw [State.ph, hpc]; simp [PC.phase]
  obtain ⟨-, -, b, hb, -⟩ := h.own (t := p) (j := j) (by rw [hpc]; rfl)
  refine ⟨s.ret p b.joinExitcode, ?_, rfl, goto_pc_self ..⟩
  simp [step, hh, hst, State.resume, hpc, State.joinWoken, hb]

/-- A call that does not sleep returns by steps of its own. -/
theorem Joining.returns (h : Inv s) (hh : s.halted = false) (hj : Joining s p j i x)
    (hb : s.sync.status p ≠ .blocked) : ∃ n, ∀ host, ∃ s',
      run step always s (List.replicate n (.resume p host)) = some s' ∧
        s'.calls p = s.calls p ∧ s'.pc p = .user := by
  rcases hj.cases h with ⟨-, e⟩ | ⟨hpc | hpc, hst, -⟩ | ⟨hpc, -⟩
  · exact absurd e hb
  · refine ⟨2, fun host => ?_⟩
    obtain ⟨b, hpcb, -, -, hv, -⟩ := h.joiner_awake hst hpc
    have hne : (s.sync.sems (.joinsem j)).value ≠ 0 := by
      rw [show (s.sync.sems (.joinsem j)).value = 1 from hv]; decide
    have h₁ : step s (.resume p host) = .ok (s.P p) := by
      simp [step, hh, hst, State.resume, hpc]
    have hP := P_pass (s := s) (r := .joinsem j) (by rw [hpc]; rfl) hne
    have hpc₁ : (s.P p).pc p = .joinWoken j i (some x) := by
      rw [hP, goto_pc_self, hpc]; rfl
    have hh₁ : (s.P p).halted = false := by rw [hP]; exact hh
    obtain ⟨s', hs', hcalls, hpc'⟩ := woken_returns (h.P hst) hh₁ hpc₁ host
    refine ⟨s', ?_, by rw [hcalls, P_calls], hpc'⟩
    simp [List.replicate, run, always, h₁, hs']
  · refine ⟨1, fun host => ?_⟩
    obtain ⟨s', hs', hcalls, hpc'⟩ := woken_returns h hh hpc host
    exact ⟨s', by simp [List.replicate, run, always, hs'], by rw [hcalls], hpc'⟩
  · exact ⟨0, fun _ => ⟨s, rfl, rfl, hpc⟩⟩

/-- A call in progress that is awaited while it sleeps. -/
def Delivering (s : State) (p : Tid) (j i : Pid) (x : Tid) : Prop :=
  Joining s p j i x ∧
    (s.pc p = .joinWait j i (some x) → s.sync.status p = .blocked → Awaited s p i x)

theorem piece_delivering (h : Inv s) (hr : Runs t o s s') (hd : Delivering s p j i x) :
    s.calls p < s'.calls p ∨ (s'.calls p = s.calls p ∧ Delivering s' p j i x) := by
  obtain ⟨hj, ha⟩ := hd
  refine (piece_joining h hr.2 hj).imp_right fun ⟨hc, hj'⟩ => ⟨hc, hj', fun hpc hb => ?_⟩
  obtain ⟨hpc₀, hb₀⟩ := piece_sleeps h hr (.inr hc) hpc hb
  exact piece_awaited h hr hpc₀ hb₀ (ha hpc₀ hb₀) hb

theorem Delivering.joinDelivers (h : Inv s₁) (hd : Delivering s₁ p j i c) :
    JoinDelivers s₁ p c := by
  intro s₂ hrun hcalls hh
  obtain ⟨h₂, hj, ha⟩ := run_until_call piece_delivering h hrun hd hcalls
  refine ⟨fun hpc => ?_, fun hr => hj.returns h₂ hh fun hb => ?_⟩
  · rcases hj with e | e | ⟨-, -, e⟩
    · rw [hpc] at e; cases e
    · rw [hpc] at e; cases e
    · exact e
  · rcases hj.cases h₂ with ⟨hpc, -⟩ | ⟨-, e, -⟩ | ⟨e, -⟩
    · rw [(ha hpc hb).2.2] at hr; cases hr
    · rw [hb] at e; cases e
    · exact h₂.awake_of_sem (by rw [e]; rfl) hb

/-! ### The condition -/

/-- A call of Join on a child that is still in its slot passes its checks. -/
theorem Inv.joinPasses (h : Inv s) (hu : s.InUser p) (hpar : s.table.parent c = some p)
    (hpid : s.table.pidOf c = some i) (hd : s.ph c ≠ .dead) : s.joinPasses p i = true := by
  have hfind := h.table.find_eq (t := p) (by rw [State.ph, hu.2]; decide)
  obtain ⟨j, hj⟩ := Option.ne_none_iff_exists'.mp (h.table.parent c p hpar).2
  obtain ⟨b, hb, hbc⟩ := h.table.owns c i hpid hd
  have hbit := (h.table.bit i).mpr (.inl ⟨c, hpid, hd⟩)
  have hp := (h.table.slot i b c hb hbc).2.2
  rw [hpar] at hp
  simp [State.joinPasses, hbit, hfind, hj, hb, hp]

/-- A call of Join on a pid whose last process is done does not pass its checks. -/
theorem Inv.not_joinPasses (h : Inv s) (hS : Successive s) (hu : s.InUser p)
    (hpar : s.table.parent c = some p) (hpid : s.table.pidOf c = some i) (hd : s.ph c = .dead)
    (hlast : ∀ x, c < x → s.table.pidOf x ≠ some i) : s.joinPasses p i = false := by
  have hfind := h.table.find_eq (t := p) (by rw [State.ph, hu.2]; decide)
  obtain ⟨j, hj⟩ := Option.ne_none_iff_exists'.mp (h.table.parent c p hpar).2
  by_contra hn
  simp only [State.joinPasses, Bool.not_eq_false, Bool.and_eq_true] at hn
  obtain ⟨⟨hbit, -⟩, hany⟩ := hn
  obtain ⟨b, hb, hbp⟩ := (Option.any_eq_true ..).mp hany
  rw [hfind, hj, beq_iff_eq] at hbp
  obtain ⟨y, hby, -⟩ := h.holder_of_passes hu hj hbit hb hbp
  obtain ⟨hy, hyd, -⟩ := h.table.slot i b y hb hby
  rcases lt_trichotomy y c with hlt | rfl | hlt
  · exact hyd (hS y c i hlt hy hpid)
  · exact hyd hd
  · exact hlast y hlt hy

/-- A sleeping process takes no step. -/
theorem run_asleep {host : Host} (hb : s.sync.status p = .blocked) (hpc : s.pc p ≠ .user) {n : Nat}
    (hrun : run step always s (List.replicate n (.resume p host)) = some s') : s'.pc p ≠ .user := by
  cases n with
  | zero => cases hrun; exact hpc
  | succ n =>
      have : ∃ e, step s (.resume p host) = .error e := by
        unfold step
        split
        · exact ⟨_, rfl⟩
        · exact ⟨_, if_neg (by rw [hb]; simp)⟩
      obtain ⟨e, he⟩ := this
      simp [List.replicate, run, always, he] at hrun

/-- A call that is refused has found the slot of `c` cleared: it returns `-1` whatever the code. -/
theorem joinDelivers_refused_iff (hI₁ : Inv ((s.called p).ret p (-1))) (hu : s.InUser p)
    (hh : s.halted = false) (hd : s.ph c = .dead) :
    JoinDelivers ((s.called p).ret p (-1)) p c ↔
      (s.pc c).released = false ∨ s.pc c = .done (-1) := by
  have hcp : c ≠ p := by
    rintro rfl
    rw [State.ph, hu.2] at hd
    cases hd
  have hpc : ∀ r, ((s.called p).ret p r).pc c = s.pc c := fun r => goto_pc_ne _ _ hcp
  constructor
  · intro hdel
    have hcode := (hdel _ .refl rfl hh).1 (goto_pc_self ..)
    rw [hpc] at hcode
    rcases PC.dead_iff.mp hd with e | ⟨ec, e⟩
    · rw [e] at hcode; cases hcode
    · rw [e] at hcode
      obtain rfl : ec = -1 := by simpa [PC.exitCode, State.ret, State.goto] using hcode
      exact .inr e
  · rintro (hr | e)
    · exact absurd hd (PC.not_dead_of_released hr)
    · refine Delivering.joinDelivers (j := 0) (i := 0) hI₁ ⟨.inr (.inr ⟨goto_pc_self .., ?_, ?_⟩),
        fun e' => ?_⟩
      · rw [hpc, e]; rfl
      · rw [hpc, e]; simp [PC.exitCode, State.ret, State.goto]
      · rw [State.ret, goto_pc_self] at e'; cases e'

/-- A call that sleeps for `c` is woken by the `JoinRelease` of `c`, if that is still to come. -/
theorem joinDelivers_asleep_iff (hI₁ : Inv s₁) (hu : s.InUser p) (hh : s.halted = false)
    (hpar : s.table.parent c = some p) (hpid : s.table.pidOf c = some i) (hd : s.ph c ≠ .dead)
    (hs : Sleeps s s₁ p j i c) :
    JoinDelivers s₁ p c ↔ (s.pc c).released = false ∨ s.pc c = .done (-1) := by
  have hrel : (s₁.pc c).released = (s.pc c).released := by
    rw [hs.pc]
    by_cases e : c = p
    · rw [e, Function.update_self, hu.2]; rfl
    · rw [Function.update_of_ne e]
  have hpcp : s₁.pc p = .joinWait j i (some c) := by rw [hs.pc, Function.update_self]
  have hbl : s₁.sync.status p = .blocked := by rw [hs.asleep, Function.update_self]
  constructor
  · intro hdel
    refine .inl ?_
    by_contra hr
    have hh₁ : s₁.halted = false := hs.halted.trans hh
    obtain ⟨n, hn⟩ := (hdel s₁ .refl rfl hh₁).2 (by rw [hrel]; simpa using hr)
    obtain ⟨s₃, hrun, -, huser⟩ := hn ⟨true, noff⟩
    exact run_asleep hbl (by rw [hpcp]; simp) hrun huser
  · intro hcond
    have hr : (s.pc c).released = false := by
      rcases hcond with hr | e
      · exact hr
      · rw [State.ph, e] at hd; exact absurd rfl hd
    refine Delivering.joinDelivers hI₁ ⟨.inl hpcp, fun _ _ => ⟨?_, ?_, ?_⟩⟩
    · rw [hs.table.2, hpar]
    · rw [hs.table.1, hpid]
    · rw [hrel, hr]

/-- **When Join delivers the status.**  A call of Join on the pid of a child `c`, given to no other
process since, delivers the status of `c` iff at the call `c` has not executed its `JoinRelease`, or
has finished with the code `-1`. -/
theorem joinDelivers_iff (h : Reachable s) (hpar : s.table.parent c = some p)
    (hpid : s.table.pidOf c = some i) (hlast : ∀ x, c < x → s.table.pidOf x ≠ some i)
    (hok : step s (.join p i.val) = .ok s₁) :
    JoinDelivers s₁ p c ↔ (s.pc c).released = false ∨ s.pc c = .done (-1) := by
  have hI := reachable_inv h
  have hI₁ := step_inv hI hok
  obtain ⟨hu, hh, -, ⟨rfl, hno⟩ | ⟨k, j, x, hk, hpass, hs⟩⟩ := join_cases hI hok
  · have hd : s.ph c = .dead := by
      by_contra hd
      have := hno i rfl
      rw [hI.joinPasses hu hpar hpid hd] at this
      cases this
    exact joinDelivers_refused_iff hI₁ hu hh hd
  · -- the call sleeps for the process in the slot
    obtain rfl : k = i := Fin.ext (by omega)
    have hd : s.ph c ≠ .dead := fun hd => by
      rw [hI.not_joinPasses (reachable_successive h) hu hpar hpid hd hlast] at hpass
      cases hpass
    obtain rfl : x = c := Option.some.inj (hs.holder.symm.trans (hI.holder_eq hpid hd))
    exact joinDelivers_asleep_iff hI₁ hu hh hpar hpid hd hs

end

/-- The pids of the threads after the first three. -/
theorem pidOf_of_three {s : State} (h : Inv s) (hn : s.table.nextTid = 3) (i : Pid) :
    ∀ x, 2 < x → s.table.pidOf x ≠ some i := by
  intro x hx e
  rw [(h.table.noPid x).mpr (.inr (hn ▸ hx))] at e
  cases e

/-- The root joins a child that has not exited. -/
theorem joinDelivers_iff_startChild : ∃ s s₁,
    run step always (init fun _ => 0) startChild = some s ∧ (s.pc 2).released = false ∧
      step s (.join 1 1) = .ok s₁ ∧ JoinDelivers s₁ 1 2 := by
  obtain ⟨s, hs, hp⟩ := (Option.any_eq_true ..).mp (show (run step always (init fun _ => 0)
    startChild).any (fun s => s.table.nextTid = 3 ∧ s.table.parent 2 = some 1 ∧
      s.table.pidOf 2 = some 1 ∧ (s.pc 2).released = false ∧
      (step s (.join 1 1)).toOption.isSome = true) = true by decide +kernel)
  obtain ⟨hn, hpar, hpid, hr, hsome⟩ := of_decide_eq_true hp
  obtain ⟨s₁, hs₁⟩ := Option.isSome_iff_exists.mp hsome
  have hR : Reachable s := ⟨_, Steps.of_run hs⟩
  refine ⟨s, s₁, hs, hr, toOption_some hs₁, ?_⟩
  exact (joinDelivers_iff hR hpar hpid (pidOf_of_three (reachable_inv hR) hn 1)
    (toOption_some hs₁)).mpr (.inl hr)

/-- The child of the root exits with 7, and only then the root joins it, for the first time: the
call returns `-1`. -/
theorem join_loses_status : ∃ s s₁, Reachable s ∧ s.table.parent 2 = some 1 ∧
    s.table.pidOf 2 = some 1 ∧ (∀ x, 2 < x → s.table.pidOf x ≠ some 1) ∧ s.pc 2 = .done 7 ∧
    s.calls 1 = 1 ∧ step s (.join 1 1) = .ok s₁ ∧ s₁.pc 1 = .user ∧ s₁.result 1 = -1 ∧
    ¬ JoinDelivers s₁ 1 2 := by
  obtain ⟨s, hs, hp⟩ := (Option.any_eq_true ..).mp (show (run step always (init fun _ => 0)
    (startChild ++ [.exit 2 7])).any (fun s => s.table.nextTid = 3 ∧ s.table.parent 2 = some 1 ∧
      s.table.pidOf 2 = some 1 ∧ s.pc 2 = .done 7 ∧ s.calls 1 = 1 ∧
      (step s (.join 1 1)).toOption.any fun s₁ =>
        s₁.pc 1 = .user ∧ s₁.result 1 = -1 ∧ s₁.pc 2 = .done 7 ∧ s₁.halted = false) = true
    by decide +kernel)
  obtain ⟨hn, hpar, hpid, hdone, hcalls, hany⟩ := of_decide_eq_true hp
  obtain ⟨s₁, hs₁, hp⟩ := (Option.any_eq_true ..).mp hany
  obtain ⟨huser, hres, hdone₁, hh⟩ := of_decide_eq_true hp
  have hR : Reachable s := ⟨_, Steps.of_run hs⟩
  refine ⟨s, s₁, hR, hpar, hpid, pidOf_of_three (reachable_inv hR) hn 1, hdone, hcalls,
    toOption_some hs₁, huser, hres, fun hdel => ?_⟩
  have hcode := (hdel s₁ .refl rfl hh).1 huser
  rw [hdone₁, hres] at hcode
  cases hcode

end Nachos.Proc
