import Nachos.Threads.ProcessTable

/-!
# Threads — Join

What a call of `JoinUpdate` returns.  A call that passes its checks sleeps for the process in the
slot; from then on to its return only that process can wake it, and the value is the code that
process has passed to `ExitUpdate` (`join_ownChild`).

The slot is cleared long after `JoinRelease`, and nothing in between keeps a call from passing its
checks.  So a call can sleep for a process that has already released it, and then sleeps for good;
and a call made after the slot is cleared returns `-1`, whatever the process has left.
`joinersAwaited` and `joinDelivers_iff` say exactly when this does not happen.
-/

namespace Nachos.Proc
open Lib

namespace State

/-- The checks of `JoinUpdate`, in a call of `t` for the slot `i`. -/
def joinPasses (s : State) (t : Tid) (i : Pid) : Bool :=
  s.table.bm.test i && (s.table.find t).isSome &&
    (s.table.pcb i).any fun target => target.parentID == s.table.find t

end State

section
variable {s s' s₁ s₂ : State} {t p c x : Tid} {i j : Pid} {b : PCB} {o : Input}

/-! ### The call -/

/-- A call that has gone to sleep for the process `x` in the slot `i`. -/
structure Sleeps (s s' : State) (p : Tid) (j i : Pid) (x : Tid) : Prop where
  pid : s.table.pidOf p = some j
  holder : s.holder i = some x
  /-- Only behind its `DecNumWait` can `x` be the child of another process, which has exited. -/
  child : (s.pc x).released = false → s.table.parent x = some p
  pc : s'.pc = Function.update s.pc p (.joinWait j i (some x))
  table : s'.table.pidOf = s.table.pidOf ∧ s'.table.parent = s.table.parent
  asleep : s'.sync.status = Function.update s.sync.status p .blocked
  halted : s'.halted = s.halted

/-- A slot that passes the checks holds a process. -/
theorem Inv.holder_of_passes (h : Inv s) (hu : s.InUser p) (hp : s.table.pidOf p = some j)
    (hbit : s.table.bm.test i = true) (hb : s.table.pcb i = some b) (hpar : b.parentID = some j) :
    ∃ x, b.thread = some x ∧ ((s.pc x).released = false → s.table.parent x = some p) := by
  rcases (h.table.bit i).mp hbit with ⟨x, hx, hd⟩ | ⟨t, par, ht⟩
  · have hbx := h.table.pcb_of_pid hx hd hb
    refine ⟨x, hbx, fun hr => ?_⟩
    have hq := (h.table.slot i b x hb hbx).2.2
    rw [hpar] at hq
    obtain ⟨q, hq₁, hq₂⟩ := Option.bind_eq_some_iff.mp hq.symm
    -- the parent of a process before `DecNumWait` is alive, so it is the one in slot `j`
    have hund : (s.ph x).undec = true := by
      unfold State.ph
      revert hr
      cases s.pc x <;> simp [PC.released, PC.phase, Phase.undec]
    obtain ⟨-, hpast, -⟩ := h.table.live_parent hq₁ hund
    rw [hq₁, h.table.slot_unique hq₂ (fun e => by rw [e] at hpast; cases hpast) hp
      (by rw [State.ph, hu.2]; decide)]
  · -- a PCB under construction has `parentID == -1`
    rw [(h.table.building t i par ht).1] at hb
    cases hb
    cases hpar

theorem sleeps_of_value {b' : PCB} (hp : s.table.pidOf p = some j) (hx : s.holder i = some x)
    (hchild : (s.pc x).released = false → s.table.parent x = some p) (hv : s.joinValue j = 0) :
    Sleeps s ((((s.called p).setPcb j b').goto p (.joinWait j i (some x))).P p) p j i x := by
  rw [P_block (s := ((s.called p).setPcb j b').goto p (.joinWait j i (some x))) (r := .joinsem j)
    (by rw [goto_pc_self]; rfl) hv]
  refine ⟨hp, hx, hchild, rfl, ⟨rfl, rfl⟩, ?_, rfl⟩
  exact congrArg (fun y => Sync.status (Prod.fst y)) (Sync.P_zero hv p)

/-- **A call of Join** returns `-1` at once or sleeps for the process in the slot, as its checks
say. -/
theorem join_cases {id : Int} (h : Inv s) (hok : step s (.join p id) = .ok s') :
    s.InUser p ∧ s.halted = false ∧ s'.calls p = s.calls p + 1 ∧
      ((s' = (s.called p).ret p (-1) ∧ ∀ i : Pid, id = i.val → s.joinPasses p i = false) ∨
        ∃ i j x, id = (i.val : Int) ∧ s.joinPasses p i = true ∧ Sleeps s s' p j i x) := by
  unfold step at hok
  split at hok
  · cases hok
  rename_i hhalt
  dsimp only at hok
  split at hok
  · rename_i hu
    have hfind := h.table.find_eq (t := p) (by rw [State.ph, hu.2]; decide)
    have hcalls : ∀ r, ((s.called p).ret p r).calls p = s.calls p + 1 := fun r =>
      Function.update_self ..
    refine ⟨hu, by simpa using hhalt, ?_⟩
    unfold State.joinUpdate at hok
    split at hok
    · rename_i hid
      -- the slot of the call, and what the checks are about
      generalize hi : (⟨id.toNat, by omega⟩ : Pid) = i at hok
      have hidi : id = (i.val : Int) := by rw [← hi]; exact (Int.toNat_of_nonneg hid.1).symm
      have hfail : s.joinPasses p i = false → ((s.called p).ret p (-1) : State) = s' →
          s'.calls p = s.calls p + 1 ∧
          ((s' = (s.called p).ret p (-1) ∧ ∀ i : Pid, id = i.val → s.joinPasses p i = false) ∨
            ∃ i j x, id = (i.val : Int) ∧ s.joinPasses p i = true ∧ Sleeps s s' p j i x) := by
        rintro hf rfl
        refine ⟨hcalls _, .inl ⟨rfl, fun k hk => ?_⟩⟩
        obtain rfl : k = i := Fin.ext (by omega)
        exact hf
      dsimp only at hok
      split at hok
      · rename_i hbit
        replace hbit : s.table.bm.test i = false := hbit
        exact hfail (by simp [State.joinPasses, hbit]) (Except.ok.inj hok)
      rename_i hbit
      replace hbit : s.table.bm.test i = true := (Bool.not_eq_false _).mp hbit
      split at hok
      · rename_i hn
        replace hn : s.table.find p = none := hn
        exact hfail (by simp [State.joinPasses, hn]) (Except.ok.inj hok)
      rename_i j hj
      replace hj : s.table.find p = some j := hj
      split at hok
      · cases hok
      rename_i d hd
      replace hd : s.table.pcb i = some d := hd
      split at hok
      · rename_i hne
        exact hfail (by simp [State.joinPasses, hd, hj, hne]) (Except.ok.inj hok)
      rename_i hdp
      rw [not_not] at hdp
      split at hok
      · cases hok
      rename_i b hb
      obtain ⟨-, hid', hjv, -⟩ := h.user_pcb hu (hfind ▸ hj) hb
      rw [if_neg (by rw [hid']; simp)] at hok
      cases hok
      obtain ⟨x, hx, hchild⟩ := h.holder_of_passes hu (hfind ▸ hj) hbit hd hdp
      refine ⟨?_, .inr ⟨i, j, x, hidi, by simp [State.joinPasses, hbit, hj, hd, hdp], ?_⟩⟩
      · rw [P_calls]; exact Function.update_self ..
      · rw [hx]
        exact sleeps_of_value (hfind ▸ hj) (by rw [State.holder, hd]; exact hx) hchild hjv
    · rename_i hid
      cases hok
      refine ⟨hcalls _, .inl ⟨rfl, fun i hi => ?_⟩⟩
      exact absurd ⟨by omega, by have := i.isLt; omega⟩ hid
  · cases hok

/-! ### From the call to its return -/

/-- A sleeping joiner still has its `joinID`, and is alone on its `joinsem`. -/
theorem Inv.joiner_asleep (h : Inv s) (hpc : s.pc p = .joinWait j i (some x))
    (hb : s.sync.status p = .blocked) :
    ∃ b, s.table.pcb j = some b ∧ b.thread = some p ∧ b.joinID = some i ∧ s.joinValue j = 0 ∧
      (s.sync.sems (.joinsem j)).queue = [p] ∧
      ∀ y, s.table.parent y = some p → s.table.pidOf y = some i → (s.pc y).released = false →
        y = x := by
  obtain ⟨-, -, b, hpcb, hbp⟩ := h.own (t := p) (j := j) (by rw [hpc]; rfl)
  have hj := h.join p j b hpcb hbp
  unfold JoinOk at hj
  rw [hpc] at hj
  rcases hj with ⟨h₁, h₂, -, h₃⟩ | ⟨-, -, hr, -⟩
  · refine ⟨b, hpcb, hbp, h₁, h₂, ?_, fun y h₄ h₅ h₆ => (Option.some.inj (h₃ y h₄ h₅ h₆)).symm⟩
    exact h.queue_alone rfl hb (by rw [State.waits, hpc]; rfl)
  · rw [hr] at hb; cases hb

/-- A piece that wakes a joiner is the `JoinRelease` of the process the joiner sleeps for. -/
theorem piece_wakes (h : Inv s) (hr : Runs t o s s') (hpc : s.pc p = .joinWait j i (some x))
    (hb : s.sync.status p = .blocked) :
    (s'.sync.status p = .blocked ∧ s'.pc p = .joinWait j i (some x)) ∨
      (t = x ∧ (s.pc x).released = false ∧ (s'.pc x).released = true) := by
  obtain ⟨hs, hp⟩ := hr
  have hpt : p ≠ t := fun e => by rw [e, hs] at hb; cases hb
  have hpc' : s'.pc p = .joinWait j i (some x) := by
    rcases piece_pc h hp hpt with e | ⟨e, -⟩ | ⟨e, -⟩
    · rw [e, hpc]
    · rw [hpc] at e; cases e
    · rw [hpc] at e; cases e
  rcases piece_status h hp hpt with e | ⟨-, hrel⟩
  · exact .inl ⟨e.trans hb, hpc'⟩
  · obtain ⟨ec, k, d, ht, hd, hid, ht'⟩ := hrel (.joinsem j) (by rw [State.waits, hpc]; rfl)
    obtain ⟨b, hpcb, hbp, hid', -, -, hall⟩ := h.joiner_asleep hpc hb
    rw [hpcb] at hd
    cases hd
    rw [hid'] at hid
    cases hid
    obtain ⟨q, hpar, -, -, hbq, -⟩ :=
      h.parent_slot (by rw [State.ph, ht]; rfl) (by rw [ht]; rfl) hpcb
    rw [hbp] at hbq
    cases hbq
    obtain rfl : t = x := hall t hpar (h.self t i (by rw [ht]; rfl)) (by rw [ht]; rfl)
    exact .inr ⟨rfl, by rw [ht]; rfl, by rw [ht']; rfl⟩

/-- A step that wakes a joiner is one of the process it sleeps for, which executes its
`JoinRelease` in it. -/
theorem step_wakes {a : Action} (h : Inv s) (hok : step s a = .ok s')
    (hpc : s.pc p = .joinWait j i (some x)) (hb : s.sync.status p = .blocked) :
    (s'.sync.status p = .blocked ∧ s'.pc p = .joinWait j i (some x)) ∨
      (a.thread = x ∧ (s.pc x).released = false ∧ (s'.pc x).released = true) := by
  refine (step_keeps (I := fun y => Released s y ∧
    ((y.sync.status p = .blocked ∧ y.pc p = .joinWait j i (some x)) ∨
      (a.thread = x ∧ (s.pc x).released = false ∧ (y.pc x).released = true))) h hok ?_
    ⟨fun y hy => ⟨hy, rfl⟩, .inl ⟨hb, hpc⟩⟩).2
  rintro y z hy hs hp ⟨hrel, hI⟩
  have hrel' := piece_released hy hp
  refine ⟨fun u hu => ?_, ?_⟩
  · obtain ⟨h₁, h₂⟩ := hrel u hu
    exact ⟨(hrel' u h₁).1, (hrel' u h₁).2.trans h₂⟩
  · rcases hI with ⟨h₁, h₂⟩ | ⟨h₁, h₂, h₃⟩
    · refine (piece_wakes hy ⟨hs, hp⟩ h₂ h₁).imp_right fun ⟨h₃, h₄, h₅⟩ => ⟨h₃, ?_, h₅⟩
      by_contra hn
      rw [(hrel x (by simpa using hn)).1] at h₄
      cases h₄
    · exact .inr ⟨h₁, h₂, (hrel' x h₃).1⟩

/-- A call of Join for `x` that has not returned, or has returned the code of `x`. -/
def Joining (s : State) (p : Tid) (j i : Pid) (x : Tid) : Prop :=
  s.pc p = .joinWait j i (some x) ∨ s.pc p = .joinWoken j i (some x) ∨
    (s.pc p = .user ∧ (s.pc x).released = true ∧ (s.pc x).exitCode = some (s.result p))

/-- A piece of a process that is in the call, or back from it, continues the call or begins the
next one. -/
theorem piece_joining (h : Inv s) (hp : Piece t o s s') (hj : Joining s p j i x) :
    s.calls p < s'.calls p ∨ (s'.calls p = s.calls p ∧ Joining s' p j i x) := by
  have hrel := piece_released h hp
  by_cases e : p = t
  · subst e
    have hsame : s'.calls = s.calls → s'.result = s.result → s'.pc = s.pc →
        s'.calls p = s.calls p ∧ Joining s' p j i x := fun h₁ h₂ h₃ => by
      rw [Joining, h₁, h₂, h₃]; exact ⟨rfl, hj⟩
    have hno : ∀ {q}, s.pc p = q → q.handshake = false → q ≠ .user → False := by
      intro q e h₁ h₂
      rcases hj with e' | e' | ⟨e', -⟩ <;> rw [e] at e' <;> subst e'
      · cases h₁
      · cases h₁
      · exact h₂ rfl
    have hcall : s.calls p < (s.called p).calls p := by simp [State.called]
    cases hp with
    | halt | touch | V => exact .inr (hsame rfl rfl rfl)
    | call | refused | pass => exact .inl hcall
    | joinWait | exitWait => rw [P_calls]; exact .inl hcall
    | P =>
        rcases P_pc s p with e | e
        · exact .inr (hsame (P_calls s p) (P_result s p) e)
        · refine .inr ⟨by rw [P_calls], ?_⟩
          have hpc : (s.P p).pc p = (s.pc p).afterP := by rw [e, Function.update_self]
          rcases hj with e' | e' | ⟨e', h₁, h₂⟩
          · exact .inr (.inl (by rw [hpc, e']; rfl))
          · exact .inr (.inl (by rw [hpc, e']; rfl))
          · refine .inr (.inr ⟨by rw [hpc, e']; rfl, (hrel x h₁).1, ?_⟩)
            rw [(hrel x h₁).2, h₂, P_result]
    | @joinRet j' i' c b hpc hb =>
        obtain ⟨rfl, rfl, rfl⟩ : j' = j ∧ i' = i ∧ c = some x := by
          rcases hj with e | e | ⟨e, -⟩ <;> rw [hpc] at e <;> cases e
          exact ⟨rfl, rfl, rfl⟩
        have hbp : b.thread = some p := by
          obtain ⟨-, -, b', hb', hbp⟩ := h.own (t := p) (j := j') (by rw [hpc]; rfl)
          rw [hb] at hb'
          cases hb'
          exact hbp
        have hok := h.join p j' b hb hbp
        unfold JoinOk at hok
        rw [hpc] at hok
        obtain ⟨-, -, y, hy, h₁, h₂⟩ := hok
        cases hy
        refine .inr ⟨rfl, .inr (.inr ⟨goto_pc_self .., (hrel x h₁).1, ?_⟩)⟩
        rw [(hrel x h₁).2, h₂]
        simp [State.ret, State.goto]
    | ret hpc | newPCB hpc | newThread hpc | fail hpc | space hpc | fork hpc | takeOver hpc
    | bootInc hpc | inc hpc | joinRelease hpc | skip hpc | exitRelease hpc | dec hpc
    | finish hpc => exact (hno hpc rfl (by simp)).elim
    | exec hq =>
        obtain ⟨-, -, -, h₁, -⟩ := hq.same
        generalize hpc : s.pc p = pc at hq
        cases hq <;> exact (hno hpc rfl (by simp)).elim
  · obtain ⟨h₁, h₂⟩ := piece_calls hp e
    refine .inr ⟨h₁, ?_⟩
    have hpc : s'.pc p = s.pc p := by
      rcases piece_pc h hp e with e | ⟨e, -⟩ | ⟨e, -⟩
      · exact e
      · rcases hj with e' | e' | ⟨e', -⟩ <;> rw [e] at e' <;> cases e'
      · rcases hj with e' | e' | ⟨e', -⟩ <;> rw [e] at e' <;> cases e'
    rcases hj with e' | e' | ⟨e', h₃, h₄⟩
    · exact .inl (hpc.trans e')
    · exact .inr (.inl (hpc.trans e'))
    · exact .inr (.inr ⟨hpc.trans e', (hrel x h₃).1, by rw [(hrel x h₃).2, h₄, h₂]⟩)

/-- The calls of a process are only ever counted up. -/
theorem piece_calls_le (hp : Piece t o s s') : s.calls p ≤ s'.calls p := by
  by_cases e : p = t
  · subst e
    have hcall : s.calls p ≤ (s.called p).calls p := by simp [State.called]
    cases hp with
    | call | refused | pass => exact hcall
    | P => rw [P_calls]
    | joinWait | exitWait => rw [P_calls]; exact hcall
    | _ => exact le_refl _
  · exact (piece_calls hp e).1.ge

/-- What every piece keeps until a process makes its next call, every run keeps until then. -/
theorem run_until_call {K : State → Prop} (hK : ∀ {t o y z}, Inv y → Runs t o y z → K y →
      y.calls p < z.calls p ∨ (z.calls p = y.calls p ∧ K z)) (h : Inv s)
    (hrun : Steps step always s s') (h₀ : K s) (hcalls : s'.calls p = s.calls p) :
    Inv s' ∧ K s' := by
  have hstep : ∀ x a x', step x a = .ok x' → Inv x →
      (s.calls p < x.calls p ∨ (x.calls p = s.calls p ∧ K x)) →
      s.calls p < x'.calls p ∨ (x'.calls p = s.calls p ∧ K x') := by
    intro x a x' hok hI
    refine step_keeps (I := fun y => s.calls p < y.calls p ∨ (y.calls p = s.calls p ∧ K y)) hI hok
      fun y z hy hs hp => ?_
    rintro (hlt | ⟨hn, hKy⟩)
    · exact .inl (lt_of_lt_of_le hlt (piece_calls_le hp))
    · exact hn ▸ hK hy ⟨hs, hp⟩ hKy
  obtain ⟨hI, hlt | ⟨-, hK'⟩⟩ := hrun.inv (I := fun y => Inv y ∧
    (s.calls p < y.calls p ∨ (y.calls p = s.calls p ∧ K y))) ⟨h, .inr ⟨rfl, h₀⟩⟩
    fun x a x' hI _ hok => ⟨step_inv hI.1 hok, hstep x a x' hok hI.1 hI.2⟩
  · exact absurd hcalls (Nat.ne_of_gt hlt)
  · exact ⟨hI, hK'⟩

/-- A process in user code, or at a place outside every `P`, is ready. -/
theorem Inv.ready (h : Inv s) (hsem : (s.pc p).sem = none) (h₁ : s.ph p ≠ .unborn)
    (h₂ : s.ph p ≠ .created) : s.sync.status p = .ready := by
  cases hst : s.sync.status p with
  | ready => rfl
  | blocked => exact absurd hst (h.awake_of_sem hsem)
  | justCreated => exact ((h.fresh p hst).elim h₁ h₂).elim

/-- How a call of Join stands: asleep, woken with the code to read, or back with it. -/
theorem Joining.cases (h : Inv s) (hj : Joining s p j i x) :
    (s.pc p = .joinWait j i (some x) ∧ s.sync.status p = .blocked) ∨
    ((s.pc p = .joinWait j i (some x) ∨ s.pc p = .joinWoken j i (some x)) ∧
      s.sync.status p = .ready ∧ (s.pc x).released = true ∧
      ∃ b, s.table.pcb j = some b ∧ (s.pc x).exitCode = some b.joinExitcode) ∨
    (s.pc p = .user ∧ (s.pc x).released = true ∧ (s.pc x).exitCode = some (s.result p)) := by
  rcases hj with hpc | hpc | huser
  · cases hst : s.sync.status p with
    | blocked => exact .inl ⟨hpc, rfl⟩
    | ready =>
        obtain ⟨b, hb, -, -, -, y, hy, h₁, h₂⟩ := h.joiner_awake hst hpc
        cases hy
        exact .inr (.inl ⟨.inl hpc, rfl, h₁, b, hb, h₂⟩)
    | justCreated =>
        rcases h.fresh p hst with e | e <;> rw [State.ph, hpc] at e <;> cases e
  · obtain ⟨-, -, b, hb, hbp⟩ := h.own (t := p) (j := j) (by rw [hpc]; rfl)
    have hok := h.join p j b hb hbp
    unfold JoinOk at hok
    rw [hpc] at hok
    obtain ⟨-, -, y, hy, h₁, h₂⟩ := hok
    cases hy
    have hst : s.sync.status p = .ready := by
      apply h.ready
      · rw [hpc]; rfl
      · rw [State.ph, hpc]; simp [PC.phase]
      · rw [State.ph, hpc]; simp [PC.phase]
    exact .inr (.inl ⟨.inr hpc, hst, h₁, b, hb, h₂⟩)
  · exact .inr (.inr huser)

/-- **A joiner gets the status of the child it joined.**  In every reachable state a process that
does not sleep in `JoinWait` has no `joinID`.  When a call of Join goes to sleep, the slot holds a
process `x`; and until its caller makes another system call, in every state of every run, the call
sleeps and only a step in which `x` executes its `JoinRelease` can wake it, or it has been woken and
`joinExitcode` is the code `x` has passed to `ExitUpdate`, or it has returned this code. -/
theorem join_ownChild (h : Reachable s) :
    (∀ p j b, s.table.pcb j = some b → b.thread = some p → b.joinID ≠ none →
      s.sync.status p = .blocked ∧ ∃ i c, s.pc p = .joinWait j i c) ∧
    ∀ p (id : Int) s₁ j i c, step s (.join p id) = .ok s₁ → s₁.pc p = .joinWait j i c →
      id = (i.val : Int) ∧ ∃ x, c = some x ∧ s.holder i = some x ∧
        ∀ s₂, Steps step always s₁ s₂ → s₂.calls p = s₁.calls p →
          (s₂.pc p = .joinWait j i (some x) ∧ s₂.sync.status p = .blocked ∧
            ∀ a s₃, step s₂ a = .ok s₃ → s₃.sync.status p ≠ .blocked →
              a.thread = x ∧ (s₂.pc x).released = false ∧ (s₃.pc x).released = true) ∨
          ((s₂.pc p = .joinWait j i (some x) ∨ s₂.pc p = .joinWoken j i (some x)) ∧
            s₂.sync.status p = .ready ∧ (s₂.pc x).released = true ∧
            ∃ b, s₂.table.pcb j = some b ∧ (s₂.pc x).exitCode = some b.joinExitcode) ∨
          (s₂.pc p = .user ∧ (s₂.pc x).released = true ∧
            (s₂.pc x).exitCode = some (s₂.result p)) := by
  have hI := reachable_inv h
  refine ⟨fun p j b hb hbp hid => ?_, fun p id s₁ j i c hok hpc => ?_⟩
  · have hj := hI.join p j b hb hbp
    unfold JoinOk at hj
    split at hj
    · rename_i k i c e
      rcases hj with ⟨-, -, hst, -⟩ | ⟨hn, -⟩
      · have hk := hI.self p k (by rw [e]; rfl)
        rw [(hI.table.slot j b p hb hbp).1] at hk
        cases hk
        exact ⟨hst, i, c, e⟩
      · exact absurd hn hid
    · exact absurd hj.1 hid
    · exact absurd hj.1 hid
  · obtain ⟨-, -, -, ⟨rfl, -⟩ | ⟨i', j', x, hidi, -, hs⟩⟩ := join_cases hI hok
    · rw [State.ret, goto_pc_self] at hpc; cases hpc
    · rw [hs.pc, Function.update_self] at hpc
      cases hpc
      refine ⟨hidi, x, rfl, hs.holder, fun s₂ hrun hcalls => ?_⟩
      have hj : Joining s₁ p j i x := .inl (by rw [hs.pc, Function.update_self])
      obtain ⟨hI₂, hj₂⟩ := run_until_call (fun hy hr => piece_joining hy hr.2) (step_inv hI hok)
        hrun hj hcalls
      refine (hj₂.cases hI₂).imp_left fun ⟨hpc, hb⟩ => ⟨hpc, hb, fun a s₃ hok₃ hne => ?_⟩
      exact (step_wakes hI₂ hok₃ hpc hb).resolve_left fun e => hne e.1

end

/-- The root joins its child, which then exits with 7. -/
theorem join_ownChild_seven : ∃ s s₁ s₂,
    run step always (init fun _ => 0) startChild = some s ∧ step s (.join 1 1) = .ok s₁ ∧
      run step always s₁ (.exit 2 7 :: resumes 1 2) = some s₂ ∧ s₂.pc 1 = .user ∧
      s₂.result 1 = 7 ∧ (s₂.pc 2).exitCode = some (s₂.result 1) := by
  obtain ⟨s, hs, hp⟩ := (Option.any_eq_true ..).mp (show (run step always (init fun _ => 0)
    startChild).any (fun s => (step s (.join 1 1)).toOption.any fun s₁ =>
      s₁.pc 1 = .joinWait 0 1 (some 2) ∧
        (run step always s₁ (.exit 2 7 :: resumes 1 2)).any fun s₂ =>
          s₂.calls 1 = s₁.calls 1 ∧ s₂.pc 1 = .user ∧ s₂.result 1 = 7) = true by decide +kernel)
  obtain ⟨s₁, hs₁, hp⟩ := (Option.any_eq_true ..).mp hp
  obtain ⟨hw, hp⟩ := of_decide_eq_true hp
  obtain ⟨s₂, hs₂, hp⟩ := (Option.any_eq_true ..).mp hp
  obtain ⟨hcalls, hpc, hres⟩ := of_decide_eq_true hp
  have hok := toOption_some hs₁
  obtain ⟨-, x, hx, -, hall⟩ :=
    (join_ownChild ⟨_, Steps.of_run hs⟩).2 1 1 s₁ 0 1 (some 2) hok hw
  cases hx
  refine ⟨s, s₁, s₂, hs, hok, hs₂, hpc, hres, ?_⟩
  rcases hall s₂ (Steps.of_run hs₂) hcalls with ⟨e, -⟩ | ⟨e | e, -⟩ | ⟨-, -, e⟩
  · rw [hpc] at e; cases e
  · rw [hpc] at e; cases e
  · rw [hpc] at e; cases e
  · exact e

/-! ### Joiners that are awaited -/

section
variable {s s' s₁ s₂ : State} {t p c x : Tid} {i j : Pid} {b : PCB} {o : Input}

/-- `x` is the child of `p` that had the slot `i`, and has not executed its `JoinRelease`. -/
def Awaited (s : State) (p : Tid) (i : Pid) (x : Tid) : Prop :=
  s.table.parent x = some p ∧ s.table.pidOf x = some i ∧ (s.pc x).released = false

/-- A joiner asleep behind a piece was asleep before it, but for a call of Join. -/
theorem piece_sleeps {c : Option Tid} (h : Inv s) (hr : Runs t o s s')
    (ho : o.joins = false ∨ s'.calls p = s.calls p) (hpc : s'.pc p = .joinWait j i c)
    (hb : s'.sync.status p = .blocked) :
    s.pc p = .joinWait j i c ∧ s.sync.status p = .blocked := by
  obtain ⟨hs, hp⟩ := hr
  by_cases e : p = t
  · subst e
    exfalso
    have hgoto : ∀ {y : State} {q : PC}, y.pc = Function.update s.pc p q →
        y.pc p = .joinWait j i c → q.handshake = false → False := fun e e' hq => by
      rw [e, Function.update_self] at e'
      rw [e'] at hq
      cases hq
    have hready : s'.sync.status p = s.sync.status p → False := fun e => by
      rw [hb, hs] at e; cases e
    cases hp with
    | halt | touch => exact hready rfl
    | V =>
        rcases s.sync.V_status _ p with e | ⟨-, e⟩
        · exact hready e
        · rw [show (State.V s _).sync.status p = .ready from e] at hb; cases hb
    | P =>
        rcases P_pc s p with e | e
        · -- an awake joiner passes
          rw [e] at hpc
          obtain ⟨-, -, -, -, hv, -⟩ := h.joiner_awake hs hpc
          have hne : (s.sync.sems (.joinsem j)).value ≠ 0 := by
            rw [show (s.sync.sems (.joinsem j)).value = 1 from hv]; decide
          rw [P_pass (r := .joinsem j) (by rw [hpc]; rfl) hne] at e
          have := congrFun e p
          rw [goto_pc_self, hpc] at this
          cases this
        · rw [e, Function.update_self] at hpc
          revert hpc
          cases s.pc p <;> simp [PC.afterP]
    | joinWait ho' =>
        -- a call of Join, which counts
        rcases ho with e | e
        · rw [ho'] at e; cases e
        · rw [P_calls] at e
          simp [State.goto, State.setPcb, State.called] at e
    | exitWait =>
        rcases P_pc (State.goto _ p _) p with e | e
        · rw [e, goto_pc_self] at hpc; cases hpc
        · rw [e, Function.update_self, goto_pc_self] at hpc; cases hpc
    | @takeOver k c' b hpc' hb' hc =>
        have e : p ≠ c' := by
          rintro rfl
          rw [h.pc_created hpc' hb' hc] at hpc'
          cases hpc'
        rw [goto_pc_ne _ _ e, goto_pc_self] at hpc
        cases hpc
    | exec hq => exact hgoto rfl hpc hq.same.2.2.2.1
    | newThread | fork => exact absurd (hpc.symm.trans (goto_pc_self ..)) (by simp)
    | _ => exact hgoto rfl hpc rfl
  · constructor
    · rcases piece_pc h hp e with e' | ⟨-, e'⟩ | ⟨-, e' | ⟨k, e'⟩⟩ <;> rw [hpc] at e'
      · exact e'.symm
      · cases e'
      · cases e'
      · cases e'
    · rcases piece_status h hp e with e' | ⟨hne, -⟩
      · rw [← e', hb]
      · exact absurd hb hne

/-- A piece in which a process becomes released is its `JoinRelease`. -/
theorem piece_releases (h : Inv s) (hp : Piece t o s s') (hpid : s.table.pidOf x ≠ none)
    (hr : (s.pc x).released = false) (hr' : (s'.pc x).released = true) :
    x = t ∧ ∃ ec i j b, s.pc t = .exitWaited ec i (some j) ∧ s.table.pcb j = some b ∧
      (b.joinID = some i → s'.sync = s.sync.V (.joinsem j)) := by
  by_cases e : x = t
  · subst e
    refine ⟨rfl, ?_⟩
    have hgoto : ∀ {y : State} {q : PC}, y.pc = Function.update s.pc x q →
        (y.pc x).released = true → q.released = false → False := fun e e' hq => by
      rw [e, Function.update_self, hq] at e'
      cases e'
    have hno : ∀ {q}, s.pc x = q → q.released = true → False := fun e hq => by
      rw [e, hq] at hr; cases hr
    have hsame : ∀ {y : State}, y.pc = s.pc → (y.pc x).released = true → False := fun e e' => by
      rw [e, hr] at e'; cases e'
    have hP : ∀ {y : State}, (y.pc x).released = false → ((y.P x).pc x).released = true →
        False := by
      intro y hy hy'
      rcases P_pc y x with e | e
      · rw [e, hy] at hy'; cases hy'
      · rw [e, Function.update_self] at hy'
        revert hy hy'
        cases y.pc x <;> simp [PC.afterP, PC.released]
    cases hp with
    | halt | touch | V => exact (hsame rfl hr').elim
    | P => exact (hP hr hr').elim
    | joinWait | exitWait => exact (hP (congrArg PC.released (goto_pc_self ..)) hr').elim
    | @joinRelease ec i j b hpc hb hid => exact ⟨ec, i, j, b, hpc, hb, fun _ => rfl⟩
    | @skip ec i j b hpc hb hid => exact ⟨ec, i, j, b, hpc, hb, fun e => absurd e hid⟩
    | exitRelease hpc | dec hpc | finish hpc => exact (hno hpc rfl).elim
    | exec hq =>
        refine (hgoto rfl hr' ?_).elim
        generalize s.pc x = pc at hq
        cases hq <;> rfl
    | takeOver hpc =>
        exact absurd (h.table.hatching x _ none (by rw [State.ph, hpc]; rfl)).1.symm hpid
    | newThread | fork =>
        exact (Bool.false_ne_true ((congrArg PC.released (goto_pc_self ..)).symm.trans hr')).elim
    | _ => exact (hgoto rfl hr' rfl).elim
  · exfalso
    rcases piece_pc h hp e with e' | ⟨-, e'⟩ | ⟨-, e' | ⟨k, e'⟩⟩ <;> rw [e'] at hr'
    · rw [hr] at hr'; cases hr'
    · cases hr'
    · cases hr'
    · cases hr'

/-- A joiner that stays asleep is awaited as before. -/
theorem piece_awaited (h : Inv s) (hr : Runs t o s s') (hpc : s.pc p = .joinWait j i (some x))
    (hb : s.sync.status p = .blocked) (ha : Awaited s p i x) (hb' : s'.sync.status p = .blocked) :
    Awaited s' p i x := by
  obtain ⟨hpar, hpid, hrel⟩ := ha
  have hne : s.table.pidOf x ≠ none := by rw [hpid]; simp
  obtain ⟨h₁, h₂⟩ := piece_kin h hr.2 hne
  refine ⟨h₂.trans hpar, h₁.trans hpid, ?_⟩
  by_contra hn
  obtain ⟨rfl, ec, k, l, d, ht, hd, hV⟩ := piece_releases h hr.2 hne hrel (by simpa using hn)
  obtain ⟨b, hpcb, hbp, hid, -, hq, -⟩ := h.joiner_asleep hpc hb
  -- the parent whose PCB the release reads is the joiner
  obtain ⟨q, hpar', hq', -, hdq, -⟩ :=
    h.parent_slot (by rw [State.ph, ht]; rfl) (by rw [ht]; rfl) hd
  rw [hpar] at hpar'
  cases hpar'
  have hj := h.self p j (by rw [hpc]; rfl)
  rw [hq'] at hj
  cases hj
  have hk := h.self x k (by rw [ht]; rfl)
  rw [hpid] at hk
  cases hk
  rw [hpcb] at hd
  cases hd
  -- so the release wakes it
  rw [hV hid, Sync.V_cons hq] at hb'
  simp at hb'

/-- A call of Join that passes its checks is made on a process that has not executed its
`JoinRelease`. -/
def JoinsUnreleased (s : State) : Action → Prop
  | .join t id => ∀ i : Pid, id = i.val → s.joinPasses t i = true →
      ∀ x ∈ s.holder i, (s.pc x).released = false
  | _ => True

instance (s : State) (a : Action) : Decidable (JoinsUnreleased s a) :=
  match a with
  | .join t id => inferInstanceAs (Decidable (∀ i : Pid, id = i.val → s.joinPasses t i = true →
      ∀ x ∈ s.holder i, (s.pc x).released = false))
  | .boot _ | .exec _ _ | .exit _ _ | .halt _ | .touch _ _ | .resume _ _ =>
      inferInstanceAs (Decidable True)

/-- Every process that sleeps in `JoinWait` with its `joinID` set and no `V` delivered sleeps for a
child in that slot that has not executed its `JoinRelease`. -/
def JoinersAwaited (s : State) : Prop :=
  ∀ p j i b, s.table.pcb j = some b → b.thread = some p → (∃ k c, s.pc p = .joinWait j k c) →
    s.sync.status p = .blocked → b.joinID = some i → s.joinValue j = 0 →
    ∃ x, s.holder i = some x ∧ s.table.parent x = some p ∧ (s.pc x).released = false

/-- The same, with the process the joiner has gone to sleep for. -/
def AllAwaited (s : State) : Prop :=
  ∀ p j i c, s.pc p = .joinWait j i c → s.sync.status p = .blocked →
    ∃ x, c = some x ∧ Awaited s p i x

theorem AllAwaited.joiners (h : Inv s) (hA : AllAwaited s) : JoinersAwaited s := by
  rintro p j i b hb hbp ⟨k, c, hpc⟩ hst hid -
  obtain ⟨x, rfl, hpar, hpid, hrel⟩ := hA p j k c hpc hst
  obtain ⟨b', hb', -, hid', -⟩ := h.joiner_asleep hpc hst
  rw [hb] at hb'
  cases hb'
  rw [hid] at hid'
  cases hid'
  exact ⟨x, h.holder_eq hpid (PC.not_dead_of_released hrel), hpar, hrel⟩

/-- The call of Join itself. -/
theorem join_awaited {id : Int} (h : Inv s) (ha : JoinsUnreleased s (.join t id))
    (hok : step s (.join t id) = .ok s') (hA : AllAwaited s) : AllAwaited s' := by
  obtain ⟨hu, -, -, ⟨rfl, -⟩ | ⟨k, l, y, hid, hpass, hs⟩⟩ := join_cases h hok
  · intro p j i c hpc hb
    have e : p ≠ t := by
      rintro rfl
      rw [State.ret, goto_pc_self] at hpc
      cases hpc
    rw [State.ret, goto_pc_ne _ _ e] at hpc
    obtain ⟨x, hc, hpar, hpid, hrel⟩ := hA p j i c hpc hb
    refine ⟨x, hc, hpar, hpid, ?_⟩
    by_cases ex : x = t
    · rw [ex, State.ret, goto_pc_self]; rfl
    · rw [State.ret, goto_pc_ne _ _ ex]; exact hrel
  · have hkeep : ∀ {p i x}, Awaited s p i x → Awaited s' p i x := by
      rintro p i x ⟨hpar, hpid, hrel⟩
      refine ⟨by rw [hs.table.2, hpar], by rw [hs.table.1, hpid], ?_⟩
      rw [hs.pc]
      by_cases ex : x = t
      · rw [ex, Function.update_self]; rfl
      · rw [Function.update_of_ne ex]; exact hrel
    intro p j i c hpc hb
    rw [hs.pc] at hpc
    rw [hs.asleep] at hb
    by_cases e : p = t
    · subst e
      rw [Function.update_self] at hpc
      cases hpc
      have hrel := ha k hid hpass y hs.holder
      exact ⟨y, rfl, hkeep ⟨hs.child hrel, (h.pid_of_holder hs.holder).1, hrel⟩⟩
    · rw [Function.update_of_ne e] at hpc hb
      obtain ⟨x, hc, hx⟩ := hA p j i c hpc hb
      exact ⟨x, hc, hkeep hx⟩

theorem step_awaited {a : Action} (h : Inv s) (ha : JoinsUnreleased s a) (hok : step s a = .ok s')
    (hA : AllAwaited s) : AllAwaited s' := by
  cases hj : (a.input s).joins with
  | true =>
      cases a with
      | join t id => exact join_awaited h ha hok hA
      | resume t host =>
          simp only [Action.input] at hj
          split at hj <;> cases hj
      | _ => cases hj
  | false =>
      refine step_keeps h hok (fun y z hy hs hp hAy p j i c hpc hb => ?_) hA
      obtain ⟨hpc₀, hb₀⟩ := piece_sleeps hy ⟨hs, hp⟩ (.inl hj) hpc hb
      obtain ⟨x, rfl, hx⟩ := hAy p j i c hpc₀ hb₀
      exact ⟨x, rfl, piece_awaited hy ⟨hs, hp⟩ hpc₀ hb₀ hx hb⟩

/-- **No joiner is stranded** in a run whose calls of Join that pass their checks are made on
processes that have not executed their `JoinRelease`. -/
theorem joinersAwaited {heap : Nat → BitVec 32} (h : Steps step JoinsUnreleased (init heap) s) :
    JoinersAwaited s := by
  obtain ⟨hI, hA⟩ := h.inv (I := fun s => Inv s ∧ AllAwaited s)
    ⟨init_inv heap, fun p j i c hpc => by
      simp only [init, Function.update_apply] at hpc
      split at hpc <;> cases hpc⟩
    fun _ _ _ hI ha hok => ⟨step_inv hI.1 hok, step_awaited hI.1 ha hok hI.2⟩
  exact hA.joiners hI

end

/-- The root sleeps for its child, which has not exited. -/
theorem joinersAwaited_root : ∃ s,
    run step JoinsUnreleased (init fun _ => 0) (startChild ++ [.join 1 1]) = some s ∧
      s.pc 1 = .joinWait 0 1 (some 2) ∧ s.sync.status 1 = .blocked ∧ JoinersAwaited s := by
  obtain ⟨s, hs, hp⟩ := (Option.any_eq_true ..).mp (show (run step JoinsUnreleased
    (init fun _ => 0) (startChild ++ [.join 1 1])).any (fun s =>
      s.pc 1 = .joinWait 0 1 (some 2) ∧ s.sync.status 1 = .blocked) = true by decide +kernel)
  obtain ⟨h₁, h₂⟩ := of_decide_eq_true hp
  exact ⟨s, hs, h₁, h₂, joinersAwaited (Steps.of_run hs)⟩

/-- The root joins its child and is released, and joins it again before the child has cleared its
slot; then the child finishes, and the root sleeps for an empty slot. -/
theorem joiner_stranded : ∃ s, Reachable s ∧ s.pc 2 = .done 7 ∧ s.holder 1 = none ∧
    ¬ JoinersAwaited s := by
  obtain ⟨s, hs, hp⟩ := (Option.any_eq_true ..).mp (show (run step always (init fun _ => 0)
    (startChild ++ [.join 1 1, .exit 2 7] ++ resumes 1 2 ++ .join 1 1 :: resumes 2 1)).any
      (fun s => s.pc 2 = .done 7 ∧ s.holder 1 = none ∧ s.pc 1 = .joinWait 0 1 (some 2) ∧
        s.sync.status 1 = .blocked ∧ s.joinValue 0 = 0 ∧
        (s.table.pcb 0).any fun b => b.thread = some 1 ∧ b.joinID = some 1) = true
      by decide +kernel)
  obtain ⟨hdone, hnone, hpc, hst, hv, hb⟩ := of_decide_eq_true hp
  obtain ⟨b, hb, hp⟩ := (Option.any_eq_true ..).mp hb
  obtain ⟨hbt, hid⟩ := of_decide_eq_true hp
  refine ⟨s, ⟨_, Steps.of_run hs⟩, hdone, hnone, fun hall => ?_⟩
  obtain ⟨x, hx, -⟩ := hall 1 0 1 b hb hbt ⟨1, some 2, hpc⟩ hst hid hv
  rw [hnone] at hx
  cases hx

end Nachos.Proc
