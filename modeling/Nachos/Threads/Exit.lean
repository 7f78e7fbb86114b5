import Nachos.Threads.ProcessTable

/-!
# Threads — Exit

A process finishes exiting only behind all its children.  `numwait` is counted up behind `Fork`,
when the child may have exited already, so the counter alone says little; what carries the result is
that `numwait`, together with a child the parent is about to count, is the number of children before
their `DecNumWait` (`TInv.numwait`).
-/

namespace Nachos.Proc
open Lib

/-- In the `P` of `ExitWait`. -/
def PC.exiting : PC → Bool
  | exitWait _ _ _ => true
  | _ => false

section
variable {s s' : State} {t p c : Tid} {j : Pid} {b : PCB} {o : Input}

/-! ### Parents are older -/

/-- A process is made before its children. -/
def Elder (s : State) : Prop := ∀ c p, s.table.parent c = some p → p < c

theorem piece_elder (h : Inv s) (hp : Piece t o s s') (hE : Elder s) : Elder s' := by
  cases hp with
  | @newThread f k par b hpc =>
      intro c p hc
      replace hc : Function.update s.table.parent s.table.nextTid (par.map fun _ => t) c =
        some p := hc
      by_cases e : c = s.table.nextTid
      · rw [e, Function.update_self] at hc
        obtain ⟨-, -, rfl⟩ := Option.map_eq_some_iff.mp hc
        rw [e]
        refine h.table.lt_nextTid ?_
        rw [State.ph, hpc]
        rintro ⟨⟩
      · rw [Function.update_of_ne e] at hc
        exact hE c p hc
  | P => rw [Elder, P_table]; exact hE
  | joinWait | exitWait => rw [Elder, P_table]; exact hE
  | _ => exact hE

theorem reachable_elder (h : Reachable s) : Elder s :=
  reachable_keeps h (fun _ _ _ hc => by cases hc) fun hy hr => piece_elder hy hr.2

/-! ### The last child -/

/-- A process leaves the children before their `DecNumWait` by a step of its own. -/
theorem step_undec {a : Action} (h : Inv s) (hok : step s a = .ok s') (hu : (s.ph c).undec = true)
    (hu' : (s'.ph c).undec = false) : a.thread = c := by
  by_contra hne
  have hkeep : (s'.ph c).undec = true := by
    refine step_keeps (I := fun y => (y.ph c).undec = true) h hok (fun y z hy _ hp hI => ?_) hu
    rcases piece_pc hy hp (Ne.symm hne) with e | ⟨-, e⟩ | ⟨-, e | ⟨i, e⟩⟩ <;> rw [State.ph, e]
    · exact hI
    all_goals rfl
  rw [hkeep] at hu'
  cases hu'

/-- A step moves another process only when it is forked in it. -/
theorem step_pc {a : Action} (h : Inv s) (hok : step s a = .ok s') (hp : p ≠ a.thread)
    (hpast : (s.ph p).past = false) :
    (s'.ph p).past = false ∧ (s'.pc p = s.pc p ∨
      ((s.pc p).exiting = false ∧ (s'.pc p).exiting = false)) := by
  refine step_keeps (I := fun y => (y.ph p).past = false ∧ (y.pc p = s.pc p ∨
      ((s.pc p).exiting = false ∧ (y.pc p).exiting = false))) h hok (fun y z hy _ hpc hI => ?_)
    ⟨hpast, .inl rfl⟩
  have hcalm : ∀ {q q'}, y.pc p = q → z.pc p = q' → q.exiting = false → q'.exiting = false →
      q'.phase.past = false → (z.ph p).past = false ∧ (z.pc p = s.pc p ∨
        ((s.pc p).exiting = false ∧ (z.pc p).exiting = false)) := by
    rintro q q' rfl rfl h₁ h₂ h₃
    refine ⟨h₃, .inr ⟨?_, h₂⟩⟩
    rcases hI.2 with e | ⟨e, -⟩
    · rw [← e]; exact h₁
    · exact e
  rcases piece_pc hy hpc hp with e | ⟨e, e'⟩ | ⟨e, e' | ⟨i, e'⟩⟩
  · rw [State.ph, e]; exact hI
  · exact hcalm e e' rfl rfl rfl
  · exact hcalm e e' rfl rfl rfl
  · exact hcalm e e' rfl rfl rfl

/-- What the semaphore of `ExitWait` says: it has a `V` to consume iff the process waits and no
child is left. -/
theorem Inv.exitValue_eq (h : Inv s) (hb : s.table.pcb j = some b) (hbp : b.thread = some p) :
    s.exitValue j = if (s.pc p).exiting = true ∧ s.undec p = ∅ then 1 else 0 := by
  have hx := h.exit p j b hb hbp
  unfold ExitOk at hx
  split at hx
  · rename_i e
    rw [e]
    rcases hx.2 with ⟨h₁, -, h₂⟩ | ⟨h₁, -, h₂⟩
    · rw [if_neg (fun hn => h₂ hn.2), h₁]
    · rw [if_pos ⟨rfl, h₂⟩, h₁]
  · rename_i hne
    rw [if_neg, hx.1]
    rintro ⟨hn, -⟩
    revert hn hne
    cases s.pc p <;> simp [PC.exiting]

/-- **A process exits behind all its children.**  In every reachable state: a process past its
`ExitWait` has no child before its `DecNumWait`; one that sleeps on `exitsem` has such a child.  In
a step in which a child executes its `DecNumWait`, its parent gets one `V` on `exitsem` if it waits
there and this was the last child, and none otherwise. -/
theorem exit_afterChildren (h : Reachable s) :
    (∀ p, (s.ph p).past = true → s.undec p = ∅) ∧
    (∀ p ec j q, s.pc p = .exitWait ec j q → s.sync.status p = .blocked → s.undec p ≠ ∅) ∧
    ∀ a s' c p j, step s a = .ok s' → s.table.parent c = some p → s.table.pidOf p = some j →
      (s.ph c).undec = true → (s'.ph c).undec = false →
        s'.exitValue j =
          s.exitValue j + if (s.pc p).exiting = true ∧ s'.undec p = ∅ then 1 else 0 := by
  have hI := reachable_inv h
  refine ⟨hI.table.past, fun p ec j q hpc hst => ?_, fun a s' c p j hok hpar hp hu hu' => ?_⟩
  · obtain ⟨-, -, b, hb, hbp⟩ := hI.own (t := p) (j := j) (by rw [hpc]; rfl)
    have hx := hI.exit p j b hb hbp
    unfold ExitOk at hx
    rw [hpc] at hx
    rcases hx.2 with ⟨-, -, h₂⟩ | ⟨-, h₁, -⟩
    · exact h₂
    · rw [hst] at h₁; cases h₁
  · have hI' := step_inv hI hok
    obtain ⟨hmem, hpast, k, b, hk, hb, hbp⟩ := hI.table.live_parent hpar hu
    rw [hp] at hk
    cases hk
    have hpt : p ≠ a.thread := by
      rw [step_undec hI hok hu hu']
      exact Nat.ne_of_lt (reachable_elder h c p hpar)
    obtain ⟨hpast', hpc⟩ := step_pc hI hok hpt hpast
    -- the parent is still in its slot
    have hp' : s'.table.pidOf p = some j := by
      refine step_keeps (I := fun y => y.table.pidOf p = some j) hI hok
        (fun y z hy _ hpy hI => ?_) hp
      rw [(piece_kin hy hpy (by rw [hI]; simp)).1, hI]
    obtain ⟨b', hb', hbp'⟩ := hI'.table.owns p j hp' fun e => by rw [e] at hpast'; cases hpast'
    have h0 : s.exitValue j = 0 := by
      rw [hI.exitValue_eq hb hbp, if_neg]
      rintro ⟨-, hn⟩
      rw [show s.table.undec s.ph p = ∅ from hn] at hmem
      cases hmem
    rw [hI'.exitValue_eq hb' hbp', h0, Int.zero_add]
    rcases hpc with e | ⟨e, e'⟩
    · rw [e]
    · rw [e, e']

end

/-- The root exits while its child runs: it sleeps, and is woken when the child exits. -/
theorem exit_afterChildren_root : ∃ s s',
    run step always (init fun _ => 0) (startChild ++ [.exit 1 0]) = some s ∧
      s.sync.status 1 = .blocked ∧ s.undec 1 ≠ ∅ ∧ step s (.exit 2 7) = .ok s' ∧
      s'.exitValue 0 = s.exitValue 0 + 1 := by
  obtain ⟨s, hs, hp⟩ := (Option.any_eq_true ..).mp (show (run step always (init fun _ => 0)
    (startChild ++ [.exit 1 0])).any (fun s => s.pc 1 = .exitWait 0 0 none ∧
      s.sync.status 1 = .blocked ∧ s.table.parent 2 = some 1 ∧ s.table.pidOf 1 = some 0 ∧
      (s.ph 2).undec = true ∧ (step s (.exit 2 7)).toOption.any fun s' =>
        (s'.ph 2).undec = false ∧ s'.undec 1 = ∅) = true by decide +kernel)
  obtain ⟨hpc, hst, hpar, hpid, hu, hany⟩ := of_decide_eq_true hp
  obtain ⟨s', hs', hp⟩ := (Option.any_eq_true ..).mp hany
  obtain ⟨hu', hlast⟩ := of_decide_eq_true hp
  obtain ⟨-, hsleep, hV⟩ := exit_afterChildren ⟨_, Steps.of_run hs⟩
  have hok := toOption_some hs'
  refine ⟨s, s', hs, hst, hsleep 1 0 0 none hpc hst, hok, ?_⟩
  rw [hV _ s' 2 1 0 hok hpar hpid hu hu', if_pos ⟨by rw [hpc]; rfl, hlast⟩]

end Nachos.Proc
