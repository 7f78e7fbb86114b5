import Nachos.Threads.PTableInv

/-!
# Threads — the handshakes of Join and Exit

A parent in `joinsem->P()` and its child's `JoinRelease`, and a process in `exitsem->P()` and the
`ExitRelease` of its last child, meet over two fields of a PCB and a semaphore of value 0 or 1.
`JoinOk` and `ExitOk` say how these stand in every state, and `Inv` puts them together with the
invariant of the table and of the queues.

A joiner that still has its `joinID` sleeps, and of its children only the joinee can release it.
One whose `joinID` is gone is awake with one `V` to consume, and finds in `joinExitcode` what the
joinee has passed to `ExitUpdate`.  Nothing is said here on whether the joinee will release the
joiner.
-/

namespace Nachos.Proc

namespace PC

/-- The slot a place knows to be the thread's own. -/
def self : PC → Option Pid
  | joinWait pid _ _ | joinWoken pid _ _ => some pid
  | exitWait _ pid _ | exitWaited _ pid _ | exitJoinReleased _ pid _ | exitReleased _ pid =>
      some pid
  | _ => none

/-- The parent `ExitUpdate` has read from the PCB. -/
def exitPar : PC → Option (Option Pid)
  | exitWait _ _ parentid | exitWaited _ _ parentid => some parentid
  | exitJoinReleased _ _ parentid => some (some parentid)
  | _ => none

/-- In the `P` of a handshake. -/
def waiting : PC → Bool
  | joinWait _ _ _ | exitWait _ _ _ => true
  | _ => false

/-- In a handshake, the read of `joinExitcode` included. -/
def handshake : PC → Bool
  | joinWait _ _ _ | joinWoken _ _ _ | exitWait _ _ _ => true
  | _ => false

theorem self_of_exitPar {pc : PC} {q : Option Pid} (h : pc.exitPar = some q) :
    ∃ j, pc.self = some j := by
  cases pc <;> simp_all [exitPar, self]

theorem waiting_of_sem {pc : PC} {j : Pid}
    (h : pc.sem = some (.joinsem j) ∨ pc.sem = some (.exitsem j)) :
    pc.waiting = true ∧ pc.self = some j := by
  cases pc <;> simp_all [sem, waiting, self]

theorem not_dead_of_released {pc : PC} (h : pc.released = false) : pc.phase ≠ .dead := by
  cases pc <;> simp_all [released, phase]

theorem sem_of_waiting {pc : PC} (h : pc.waiting = true) :
    ∃ j, pc.sem = some (.joinsem j) ∨ pc.sem = some (.exitsem j) := by
  cases pc <;> simp_all [sem, waiting]

end PC

namespace State

def ph (s : State) (t : Tid) : Phase := (s.pc t).phase
def waits (s : State) (t : Tid) : Option SemRef := (s.pc t).sem
def undec (s : State) (p : Tid) : Finset Tid := s.table.undec s.ph p
def joinValue (s : State) (j : Pid) : Int := (s.sync.sems (.joinsem j)).value
def exitValue (s : State) (j : Pid) : Int := (s.sync.sems (.exitsem j)).value

end State

/-- The joinee has released the joiner, whose PCB holds the code it left. -/
def Delivered (s : State) (joinee : Option Tid) (b : PCB) : Prop :=
  ∃ x, joinee = some x ∧ (s.pc x).released = true ∧ (s.pc x).exitCode = some b.joinExitcode

/-- How the join handshake of the process `p` stands. -/
def JoinOk (s : State) (p : Tid) (j : Pid) (b : PCB) : Prop :=
  match s.pc p with
  | .joinWait _ id joinee =>
      (b.joinID = some id ∧ s.joinValue j = 0 ∧ s.sync.status p = .blocked ∧
        ∀ x, s.table.parent x = some p → s.table.pidOf x = some id → (s.pc x).released = false →
          joinee = some x) ∨
      (b.joinID = none ∧ s.joinValue j = 1 ∧ s.sync.status p = .ready ∧ Delivered s joinee b)
  | .joinWoken _ _ joinee => b.joinID = none ∧ s.joinValue j = 0 ∧ Delivered s joinee b
  | _ => b.joinID = none ∧ s.joinValue j = 0

/-- How the exit handshake of the process `p` stands. -/
def ExitOk (s : State) (p : Tid) (j : Pid) (b : PCB) : Prop :=
  match s.pc p with
  | .exitWait _ _ _ =>
      b.isExit = true ∧
        ((s.exitValue j = 0 ∧ s.sync.status p = .blocked ∧ s.undec p ≠ ∅) ∨
          (s.exitValue j = 1 ∧ s.sync.status p = .ready ∧ s.undec p = ∅))
  | pc => s.exitValue j = 0 ∧ (b.isExit = true → pc.phase.past = true)

/-- What holds in every reachable state. -/
structure Inv (s : State) : Prop where
  table : TInv s.table s.ph
  self : ∀ t j, (s.pc t).self = some j → s.table.pidOf t = some j
  exitPar : ∀ t q, (s.pc t).exitPar = some q → q = (s.table.parent t).bind s.table.pidOf
  sync : s.sync.Ok s.waits
  fresh : ∀ t, s.sync.status t = .justCreated → s.ph t = .unborn ∨ s.ph t = .created
  newSems : ∀ t i q, s.ph t = .building i q → s.joinValue i = 0 ∧ s.exitValue i = 0
  join : ∀ p j b, s.table.pcb j = some b → b.thread = some p → JoinOk s p j b
  exit : ∀ p j b, s.table.pcb j = some b → b.thread = some p → ExitOk s p j b

section
variable {s s' : State} {t p c : Tid} {i j : Pid} {b b' : PCB}

theorem JoinOk.calm (h : JoinOk s p j b) (hp : (s.pc p).waiting = false) :
    b.joinID = none ∧ s.joinValue j = 0 := by
  unfold JoinOk at h
  split at h
  · rename_i e; rw [e] at hp; cases hp
  · exact ⟨h.1, h.2.1⟩
  · exact h

theorem JoinOk.of_calm (hp : (s.pc p).handshake = false) (h₁ : b.joinID = none)
    (h₂ : s.joinValue j = 0) : JoinOk s p j b := by
  unfold JoinOk
  split
  · rename_i e; rw [e] at hp; cases hp
  · rename_i e; rw [e] at hp; cases hp
  · exact ⟨h₁, h₂⟩

theorem ExitOk.calm (h : ExitOk s p j b) (hp : (s.pc p).waiting = false) :
    s.exitValue j = 0 ∧ (b.isExit = true → (s.ph p).past = true) := by
  unfold ExitOk at h
  split at h
  · rename_i e; rw [e] at hp; cases hp
  · exact h

theorem ExitOk.of_calm (hp : (s.pc p).handshake = false) (h₁ : s.exitValue j = 0)
    (h₂ : b.isExit = true → (s.ph p).past = true) : ExitOk s p j b := by
  unfold ExitOk
  split
  · rename_i e; rw [e] at hp; cases hp
  · exact ⟨h₁, h₂⟩

/-- A process that has released its parent stays so, with the code it has left. -/
def Released (s s' : State) : Prop := ∀ x, (s.pc x).released = true →
  (s'.pc x).released = true ∧ (s'.pc x).exitCode = (s.pc x).exitCode

theorem Delivered.mono {joinee : Option Tid} (h : Delivered s joinee b) (hr : Released s s')
    (he : b'.joinExitcode = b.joinExitcode) : Delivered s' joinee b' := by
  obtain ⟨x, rfl, h₁, h₂⟩ := h
  exact ⟨x, rfl, (hr x h₁).1, by rw [(hr x h₁).2, h₂, he]⟩

/-- A join handshake that a step does not touch. -/
theorem JoinOk.frame (h : JoinOk s p j b) (hpc : s'.pc p = s.pc p)
    (hst : (s.pc p).waiting = true → s'.sync.status p = s.sync.status p)
    (hv : s'.joinValue j = s.joinValue j) (h₁ : b'.joinID = b.joinID)
    (h₂ : b'.joinExitcode = b.joinExitcode) (hr : Released s s')
    (hc : (s.pc p).waiting = true → ∀ x, s'.table.parent x = some p →
      s.table.parent x = some p ∧ s'.table.pidOf x = s.table.pidOf x) : JoinOk s' p j b' := by
  unfold JoinOk at h ⊢
  rw [hpc]
  split at h
  · rename_i e
    rw [e] at hst hc
    simp only [hv, h₁, hst rfl]
    rcases h with ⟨g₁, g₂, g₃, g₄⟩ | ⟨g₁, g₂, g₃, g₄⟩
    · refine .inl ⟨g₁, g₂, g₃, fun x hx hid hrel => ?_⟩
      obtain ⟨hx', hp'⟩ := hc rfl x hx
      refine g₄ x hx' (hp' ▸ hid) ?_
      by_contra hn
      rw [(hr x (by simpa using hn)).1] at hrel
      cases hrel
    · exact .inr ⟨g₁, g₂, g₃, g₄.mono hr h₂⟩
  · exact ⟨h₁ ▸ h.1, hv ▸ h.2.1, h.2.2.mono hr h₂⟩
  · exact ⟨h₁ ▸ h.1, hv ▸ h.2⟩

/-- An exit handshake that a step does not touch. -/
theorem ExitOk.frame (h : ExitOk s p j b) (hpc : s'.pc p = s.pc p)
    (hst : (s.pc p).waiting = true → s'.sync.status p = s.sync.status p)
    (hv : s'.exitValue j = s.exitValue j) (h₁ : b'.isExit = b.isExit)
    (hu : ∀ ec k q, s.pc p = .exitWait ec k q → (s'.undec p = ∅ ↔ s.undec p = ∅)) :
    ExitOk s' p j b' := by
  unfold ExitOk at h ⊢
  rw [hpc]
  split at h
  · rename_i e
    rw [e] at hst
    simpa only [hv, h₁, hst rfl, ne_eq, hu _ _ _ e] using h
  · exact ⟨hv ▸ h.1, h₁ ▸ h.2⟩

/-! ### Steps outside the handshakes -/

/-- The thread `u` goes from a place where it is awake to one outside the handshakes. -/
structure Moves (s s' : State) (u : Tid) : Prop where
  awake : s.sync.status u ≠ .blocked
  awake' : s'.sync.status u ≠ .blocked
  calm : (s.pc u).waiting = false
  plain : (s'.pc u).handshake = false
  self : ∀ j, (s'.pc u).self = some j → s.table.pidOf u = some j
  exitPar : ∀ q, (s'.pc u).exitPar = some q → q = (s.table.parent u).bind s.table.pidOf
  released : (s.pc u).released = true →
    (s'.pc u).released = true ∧ (s'.pc u).exitCode = (s.pc u).exitCode
  past : (s.ph u).past = true → (s'.ph u).past = true
  building : ∀ i q, s'.ph u = .building i q →
    s.ph u = .building i q ∨ (s.joinValue i = 0 ∧ s.exitValue i = 0)
  fresh : s'.sync.status u = .justCreated → s'.ph u = .unborn ∨ s'.ph u = .created

/-- The PCB in a slot is the one that was there, as far as the handshakes go, or a new one. -/
def KeepsSlot (s s' : State) (p : Tid) (j : Pid) (b' : PCB) : Prop :=
  (∃ b, s.table.pcb j = some b ∧ b.thread = some p ∧ b'.joinID = b.joinID ∧
      b'.joinExitcode = b.joinExitcode ∧ b'.isExit = b.isExit) ∨
    (b'.joinID = none ∧ b'.isExit = false ∧ s.joinValue j = 0 ∧ s.exitValue j = 0 ∧
      (s'.pc p).handshake = false)

/-- A step outside the handshakes keeps the invariant when it keeps that of the table. -/
theorem Inv.of (h : Inv s) (hT : TInv s'.table s'.ph) (hsems : s'.sync.sems = s.sync.sems)
    (hu : ∀ u, (s'.pc u = s.pc u ∧ s'.sync.status u = s.sync.status u) ∨ Moves s s' u)
    (hslot : ∀ p j b', s'.table.pcb j = some b' → b'.thread = some p → KeepsSlot s s' p j b')
    (hpid : ∀ u, s.table.pidOf u ≠ none →
      s'.table.pidOf u = s.table.pidOf u ∧ s'.table.parent u = s.table.parent u)
    (hchild : ∀ p x, (s.pc p).waiting = true → s'.table.parent x = some p →
      s.table.parent x = some p ∧ s'.table.pidOf x = s.table.pidOf x)
    (hundec : ∀ p ec k q, s.pc p = .exitWait ec k q → (s'.undec p = ∅ ↔ s.undec p = ∅)) :
    Inv s' := by
  have hjv : ∀ j, s'.joinValue j = s.joinValue j := fun j => by simp [State.joinValue, hsems]
  have hxv : ∀ j, s'.exitValue j = s.exitValue j := fun j => by simp [State.exitValue, hsems]
  have hrel : Released s s' := fun x hx => by
    rcases hu x with ⟨e, -⟩ | hm
    · rw [e]; exact ⟨hx, rfl⟩
    · exact hm.released hx
  have hself : ∀ t j, (s'.pc t).self = some j → s.table.pidOf t = some j := fun t j hj => by
    rcases hu t with ⟨e, -⟩ | hm
    · exact h.self t j (e ▸ hj)
    · exact hm.self j hj
  have hbind : ∀ t, s.table.pidOf t ≠ none →
      (s'.table.parent t).bind s'.table.pidOf = (s.table.parent t).bind s.table.pidOf := by
    intro t ht
    rw [(hpid t ht).2]
    cases hp : s.table.parent t with
    | none => rfl
    | some q => exact (hpid q (h.table.parent t q hp).2).1
  refine ⟨hT, fun t j hj => ?_, fun t q hq => ?_, ⟨fun r t => ?_, fun r => ?_, fun t ht => ?_⟩,
    fun t ht => ?_, fun t i q ht => ?_, fun p j b' hb hp => ?_, fun p j b' hb hp => ?_⟩
  · have := hself t j hj
    rw [(hpid t (by rw [this]; simp)).1, this]
  · obtain ⟨j, hj⟩ := PC.self_of_exitPar hq
    rw [hbind t (by rw [hself t j hj]; simp)]
    rcases hu t with ⟨e, -⟩ | hm
    · exact h.exitPar t q (e ▸ hq)
    · exact hm.exitPar q hq
  · rw [hsems, h.sync.mem]
    rcases hu t with ⟨e₁, e₂⟩ | hm
    · rw [e₂, State.waits, State.waits, e₁]
    · simp [hm.awake, hm.awake']
  · rw [hsems]; exact h.sync.nodup r
  · rcases hu t with ⟨e₁, e₂⟩ | hm
    · rw [State.waits, e₁]
      exact h.sync.asleep t (e₂ ▸ ht)
    · exact absurd ht hm.awake'
  · rcases hu t with ⟨e₁, e₂⟩ | hm
    · rw [State.ph, e₁]
      exact h.fresh t (e₂ ▸ ht)
    · exact hm.fresh ht
  · rw [hjv, hxv]
    rcases hu t with ⟨e₁, -⟩ | hm
    · exact h.newSems t i q (by rw [State.ph, ← e₁]; exact ht)
    · exact (hm.building i q ht).elim (h.newSems t i q) id
  · rcases hslot p j b' hb hp with ⟨b, hb₀, hp₀, e₁, e₂, e₃⟩ | ⟨e₁, -, e₂, -, e₃⟩
    · rcases hu p with ⟨g₁, g₂⟩ | hm
      · exact (h.join p j b hb₀ hp₀).frame g₁ (fun _ => g₂) (hjv j) e₁ e₂ hrel
          fun hw x hx => hchild p x hw hx
      · obtain ⟨g₁, g₂⟩ := (h.join p j b hb₀ hp₀).calm hm.calm
        exact .of_calm hm.plain (e₁.trans g₁) ((hjv j).trans g₂)
    · exact .of_calm e₃ e₁ ((hjv j).trans e₂)
  · rcases hslot p j b' hb hp with ⟨b, hb₀, hp₀, e₁, e₂, e₃⟩ | ⟨-, e₁, -, e₂, e₃⟩
    · rcases hu p with ⟨g₁, g₂⟩ | hm
      · exact (h.exit p j b hb₀ hp₀).frame g₁ (fun _ => g₂) (hxv j) e₃ (hundec p)
      · obtain ⟨g₁, g₂⟩ := (h.exit p j b hb₀ hp₀).calm hm.calm
        exact .of_calm hm.plain ((hxv j).trans g₁) fun he => hm.past (g₂ (e₃ ▸ he))
    · exact .of_calm e₃ ((hxv j).trans e₂) fun he => by rw [e₁] at he; cases he

/-- One thread goes to a place outside the handshakes. -/
theorem Inv.ofGoto {q : PC} (h : Inv s) (hpc : s'.pc = Function.update s.pc t q)
    (hsync : s'.sync = s.sync) (hs : s.sync.status t = .ready) (hT : TInv s'.table s'.ph)
    (hc : (s.pc t).waiting = false) (hq : q.handshake = false)
    (hself : ∀ j, q.self = some j → s.table.pidOf t = some j)
    (hpar : ∀ r, q.exitPar = some r → r = (s.table.parent t).bind s.table.pidOf)
    (hrel : (s.pc t).released = true → q.released = true ∧ q.exitCode = (s.pc t).exitCode)
    (hpast : (s.ph t).past = true → q.phase.past = true)
    (hbuild : ∀ i r, q.phase = .building i r →
      s.ph t = .building i r ∨ (s.joinValue i = 0 ∧ s.exitValue i = 0))
    (hpid : s'.table.pidOf = s.table.pidOf) (hparent : s'.table.parent = s.table.parent)
    (hslot : ∀ p j b', s'.table.pcb j = some b' → b'.thread = some p → KeepsSlot s s' p j b')
    (hundec : ∀ p ec k q, s.pc p = .exitWait ec k q → (s'.undec p = ∅ ↔ s.undec p = ∅)) :
    Inv s' := by
  have ht : s'.pc t = q := by rw [hpc, Function.update_self]
  have hst : s'.sync.status t = .ready := by rw [hsync, hs]
  refine h.of hT (by rw [hsync]) (fun u => ?_) hslot (fun u _ => by rw [hpid, hparent]; simp)
    (fun p x _ hx => by rw [hpid]; exact ⟨hparent ▸ hx, rfl⟩) hundec
  by_cases e : u = t
  · subst e
    refine .inr ⟨?_, ?_, hc, ?_, ?_, ?_, ?_, ?_, ?_, ?_⟩
    · rw [hs]; decide
    · rw [hst]; decide
    · rw [ht]; exact hq
    · rw [ht]; exact hself
    · rw [ht]; exact hpar
    · rw [ht]; exact hrel
    · rw [State.ph, State.ph, ht]; exact hpast
    · rw [State.ph, ht]; exact hbuild
    · intro hf; rw [hst] at hf; cases hf
  · exact .inl ⟨by rw [hpc, Function.update_of_ne e], by rw [hsync]⟩

/-- The phases after a thread went to `q`. -/
theorem ph_goto (s : State) (t : Tid) (q : PC) (u : Tid) :
    (s.goto t q).ph u = if u = t then q.phase else s.ph u := by
  by_cases e : u = t
  · subst e; simp [State.ph, State.goto]
  · simp [State.ph, State.goto, e]

theorem ph_goto_same {q : PC} (hq : q.phase = s.ph t) : (s.goto t q).ph = s.ph := by
  funext u
  rw [ph_goto]
  split
  · rename_i e; rw [e, hq]
  · rfl

theorem undec_goto {q : PC} (hq : q.phase.undec = (s.ph t).undec) :
    (s.goto t q).undec p = s.undec p :=
  TInv.undec_congr rfl rfl fun x _ => by
    rw [ph_goto]
    split
    · rename_i e; rw [e, hq]
    · rfl

/-- One thread goes to a place of the same phase. -/
theorem Inv.goto {q : PC} (h : Inv s) (hs : s.sync.status t = .ready)
    (hph : q.phase = s.ph t) (hc : (s.pc t).waiting = false)
    (hq : q.handshake = false) (hself : ∀ j, q.self = some j → s.table.pidOf t = some j)
    (hpar : ∀ r, q.exitPar = some r → r = (s.table.parent t).bind s.table.pidOf)
    (hrel : (s.pc t).released = true →
      q.released = true ∧ q.exitCode = (s.pc t).exitCode) : Inv (s.goto t q) :=
  h.ofGoto rfl rfl hs (ph_goto_same hph ▸ h.table) hc hq hself hpar hrel (fun hp => hph ▸ hp)
    (fun _ _ hb => .inl (hph ▸ hb)) rfl rfl (fun _ _ b hb hp => .inl ⟨b, hb, hp, rfl, rfl, rfl⟩)
    fun p _ _ _ _ => by rw [undec_goto (by rw [hph])]

/-- A change of the semaphores and queues that the handshakes do not see. -/
theorem Inv.ofSync {y : Sync SemRef} (h : Inv s) (hok : y.Ok s.waits)
    (hj : ∀ j, (y.sems (.joinsem j)).value = s.joinValue j)
    (hx : ∀ j, (y.sems (.exitsem j)).value = s.exitValue j)
    (hst : ∀ u, (s.pc u).waiting = true → y.status u = s.sync.status u)
    (hf : ∀ u, y.status u = .justCreated → s.sync.status u = .justCreated) :
    Inv { s with sync := y } := by
  refine ⟨h.table, h.self, h.exitPar, hok, fun t ht => h.fresh t (hf t ht),
    fun t i q ht => ?_, fun p j b hb hp => ?_, fun p j b hb hp => ?_⟩
  · obtain ⟨g₁, g₂⟩ := h.newSems t i q ht
    exact ⟨(hj i).trans g₁, (hx i).trans g₂⟩
  · exact (h.join p j b hb hp).frame rfl (hst p) (hj j) rfl rfl (fun _ hx => ⟨hx, rfl⟩)
      fun _ _ hx => ⟨hx, rfl⟩
  · exact (h.exit p j b hb hp).frame rfl (hst p) (hx j) rfl fun _ _ _ _ => Iff.rfl

/-- The semaphores of the handshakes. -/
def SemRef.ofHandshake : SemRef → Bool
  | .joinsem _ | .exitsem _ => true
  | _ => false

/-- `V` on a semaphore of no handshake. -/
theorem Inv.V {r : SemRef} (h : Inv s) (hr : r.ofHandshake = false) : Inv (s.V r) := by
  have hne : ∀ r', r'.ofHandshake = true → r' ≠ r := fun r' hr' e => by
    rw [e, hr] at hr'; cases hr'
  have hstat : ∀ u, (s.sync.V r).status u = s.sync.status u ∨
      (s.waits u = some r ∧ (s.sync.V r).status u = .ready) := fun u =>
    (s.sync.V_status r u).imp_right fun ⟨hm, e⟩ => ⟨((h.sync.mem r u).mp hm).2, e⟩
  refine h.ofSync (h.sync.V r) (fun j => ?_) (fun j => ?_) (fun u hu => ?_) (fun u hu => ?_)
  · rw [Sync.V_sems_ne _ (hne _ rfl)]; rfl
  · rw [Sync.V_sems_ne _ (hne _ rfl)]; rfl
  · refine (hstat u).resolve_right fun ⟨hw, _⟩ => ?_
    obtain ⟨j, hj⟩ := PC.sem_of_waiting hu
    rcases hj with hj | hj <;> rw [State.waits, hj] at hw <;> cases hw <;> cases hr
  · rcases hstat u with e | ⟨-, e⟩
    · exact e ▸ hu
    · rw [e] at hu; cases hu

/-! ### Steps of a handshake -/

/-- A step that touches the handshakes of the process `p` only keeps the invariant when it keeps
that of the table and of the queues, and leaves these handshakes in order. -/
theorem Inv.ofHand (h : Inv s) (hp : s.table.pidOf p = some j) (hd : s.ph p ≠ .dead)
    (hd' : s'.ph p ≠ .dead) (hT : TInv s'.table s'.ph) (hok : s'.sync.Ok s'.waits)
    (hu : ∀ u, u ≠ p → (s'.pc u = s.pc u ∧ s'.sync.status u = s.sync.status u) ∨ Moves s s' u)
    (hself : ∀ k, (s'.pc p).self = some k → k = j)
    (hpar : ∀ q, (s'.pc p).exitPar = some q → q = (s.table.parent p).bind s.table.pidOf)
    (hfresh : s'.sync.status p ≠ .justCreated)
    (hbuild : ∀ u i q, s'.ph u = .building i q → s.ph u = .building i q)
    (hjv : ∀ k, k ≠ j → s'.joinValue k = s.joinValue k)
    (hxv : ∀ k, k ≠ j → s'.exitValue k = s.exitValue k)
    (hpid : s'.table.pidOf = s.table.pidOf) (hparent : s'.table.parent = s.table.parent)
    (hslot : ∀ k, k ≠ j → s'.table.pcb k = s.table.pcb k) (hrel : Released s s')
    (hundec : ∀ u, u ≠ p → ∀ ec k q, s.pc u = .exitWait ec k q →
      (s'.undec u = ∅ ↔ s.undec u = ∅))
    (hhand : ∀ b, s'.table.pcb j = some b → b.thread = some p →
      JoinOk s' p j b ∧ ExitOk s' p j b) : Inv s' := by
  -- a slot under construction is not that of `p`
  have hj : ∀ t i q, s.ph t = .building i q → i ≠ j := by
    rintro t i q ht rfl
    cases h.table.pcb_of_pid hp hd (h.table.building t i q ht).1
  -- every other slot holds what it held
  have hslots : ∀ u k b, s'.table.pcb k = some b → b.thread = some u →
      (k = j ∧ u = p) ∨ (k ≠ j ∧ u ≠ p ∧ s.table.pcb k = some b) := by
    intro u k b hb hbu
    obtain ⟨g₁, g₂, -⟩ := hT.slot k b u hb hbu
    by_cases e : k = j
    · subst e
      exact .inl ⟨rfl, hT.slot_unique g₁ g₂ (hpid ▸ hp) hd'⟩
    · refine .inr ⟨e, fun eu => ?_, hslot k e ▸ hb⟩
      rw [eu, hpid, hp] at g₁
      exact e (Option.some.inj g₁).symm
  refine ⟨hT, fun u k hk => ?_, fun u q hq => ?_, hok, fun u hf => ?_, fun u i q hq => ?_,
    fun u k b hb hbu => ?_, fun u k b hb hbu => ?_⟩
  · rw [hpid]
    by_cases e : u = p
    · subst e; rw [hself k hk, hp]
    · rcases hu u e with ⟨e₁, -⟩ | hm
      · exact h.self u k (e₁ ▸ hk)
      · exact hm.self k hk
  · rw [hpid, hparent]
    by_cases e : u = p
    · subst e; exact hpar q hq
    · rcases hu u e with ⟨e₁, -⟩ | hm
      · exact h.exitPar u q (e₁ ▸ hq)
      · exact hm.exitPar q hq
  · have e : u ≠ p := fun e => hfresh (e ▸ hf)
    rcases hu u e with ⟨e₁, e₂⟩ | hm
    · rw [State.ph, e₁]
      exact h.fresh u (e₂ ▸ hf)
    · exact hm.fresh hf
  · have hq₀ := hbuild u i q hq
    rw [hjv i (hj u i q hq₀), hxv i (hj u i q hq₀)]
    exact h.newSems u i q hq₀
  · rcases hslots u k b hb hbu with ⟨rfl, rfl⟩ | ⟨hk, hne, hb₀⟩
    · exact (hhand b hb hbu).1
    · rcases hu u hne with ⟨e₁, e₂⟩ | hm
      · exact (h.join u k b hb₀ hbu).frame e₁ (fun _ => e₂) (hjv k hk) rfl rfl hrel
          fun _ x hx => ⟨hparent ▸ hx, by rw [hpid]⟩
      · obtain ⟨g₁, g₂⟩ := (h.join u k b hb₀ hbu).calm hm.calm
        exact .of_calm hm.plain g₁ ((hjv k hk).trans g₂)
  · rcases hslots u k b hb hbu with ⟨rfl, rfl⟩ | ⟨hk, hne, hb₀⟩
    · exact (hhand b hb hbu).2
    · rcases hu u hne with ⟨e₁, e₂⟩ | hm
      · exact (h.exit u k b hb₀ hbu).frame e₁ (fun _ => e₂) (hxv k hk) rfl (hundec u hne)
      · obtain ⟨g₁, g₂⟩ := (h.exit u k b hb₀ hbu).calm hm.calm
        exact .of_calm hm.plain ((hxv k hk).trans g₁) fun he => hm.past (g₂ he)

/-! ### `P` -/

theorem goto_pc_self (s : State) (t : Tid) (q : PC) : (s.goto t q).pc t = q := by
  simp [State.goto]

theorem goto_pc_ne (s : State) {t u : Tid} (q : PC) (h : u ≠ t) : (s.goto t q).pc u = s.pc u := by
  simp [State.goto, Function.update_of_ne h]

theorem P_none (h : (s.pc t).sem = none) : s.P t = s := by
  simp [State.P, h]

theorem P_block {r : SemRef} (h : (s.pc t).sem = some r) (hv : (s.sync.sems r).value = 0) :
    s.P t = { s with sync := (s.sync.P t r).1 } := by
  simp [State.P, h, Sync.P_zero hv]

theorem P_pass {r : SemRef} (h : (s.pc t).sem = some r) (hv : (s.sync.sems r).value ≠ 0) :
    s.P t = { s with sync := (s.sync.P t r).1 }.goto t (s.pc t).afterP := by
  simp [State.P, h, Sync.P_pos hv]

@[simp] theorem P_table (s : State) (t : Tid) : (s.P t).table = s.table := by
  unfold State.P; split <;> [rfl; split <;> rfl]
@[simp] theorem P_gPhysPageBitMap (s : State) (t : Tid) :
    (s.P t).gPhysPageBitMap = s.gPhysPageBitMap := by
  unfold State.P; split <;> [rfl; split <;> rfl]
@[simp] theorem P_spaces (s : State) (t : Tid) : (s.P t).spaces = s.spaces := by
  unfold State.P; split <;> [rfl; split <;> rfl]
@[simp] theorem P_calls (s : State) (t : Tid) : (s.P t).calls = s.calls := by
  unfold State.P; split <;> [rfl; split <;> rfl]
@[simp] theorem P_result (s : State) (t : Tid) : (s.P t).result = s.result := by
  unfold State.P; split <;> [rfl; split <;> rfl]

/-- A `P` that passes leads behind it, one that does not leads nowhere. -/
theorem P_pc (s : State) (t : Tid) :
    (s.P t).pc = s.pc ∨ (s.P t).pc = Function.update s.pc t (s.pc t).afterP := by
  unfold State.P
  split
  · exact .inl rfl
  split
  · exact .inr rfl
  · exact .inl rfl

/-- A place that knows its own slot is one of a live process. -/
theorem Inv.own (h : Inv s) (hj : (s.pc t).self = some j) :
    s.table.pidOf t = some j ∧ s.ph t ≠ .dead ∧
      ∃ b, s.table.pcb j = some b ∧ b.thread = some t := by
  have hp := h.self t j hj
  have hd : s.ph t ≠ .dead := by
    unfold State.ph
    revert hj
    cases s.pc t <;> simp [PC.self, PC.phase]
  exact ⟨hp, hd, h.table.owns t j hp hd⟩

/-- Nobody else waits in the `P` of a handshake. -/
theorem Inv.alone (h : Inv s) {r : SemRef} (hr : r.ofHandshake = true) (ht : s.waits t = some r)
    {u : Tid} (hu : s.waits u = some r) : u = t := by
  have hw : ∀ v, s.waits v = some r → ∃ j, (r = .joinsem j ∨ r = .exitsem j) ∧
      (s.pc v).self = some j := by
    intro v hv
    cases r with
    | joinsem j => exact ⟨j, .inl rfl, (PC.waiting_of_sem (.inl hv)).2⟩
    | exitsem j => exact ⟨j, .inr rfl, (PC.waiting_of_sem (.inr hv)).2⟩
    | _ => cases hr
  obtain ⟨j, hrj, hj⟩ := hw t ht
  obtain ⟨k, hrk, hk⟩ := hw u hu
  have : k = j := by rcases hrj with rfl | rfl <;> rcases hrk with e | e <;> cases e <;> rfl
  subst this
  obtain ⟨h₁, h₂, -⟩ := h.own hj
  obtain ⟨h₃, h₄, -⟩ := h.own hk
  exact h.table.slot_unique h₃ h₄ h₁ h₂

/-- So a thread that sleeps there is the whole queue. -/
theorem Inv.queue_alone (h : Inv s) {r : SemRef} (hr : r.ofHandshake = true)
    (hbl : s.sync.status t = .blocked) (hw : s.waits t = some r) : (s.sync.sems r).queue = [t] :=
  h.sync.queue_eq hbl hw fun _ hu => h.alone hr hw hu

/-- The pid a thread passes along is its own. -/
theorem Inv.self_eq (h : Inv s) {i : Pid} (hi : (s.pc t).self = some i)
    (hp : s.table.pidOf t = some j) : i = j :=
  Option.some.inj ((h.self t i hi).symm.trans hp)

/-- A process makes a step of one of its own handshakes, to the place `q`. -/
theorem Inv.ofOwn {q : PC} {b₀ : PCB} (h : Inv s) (hp : s.table.pidOf t = some j)
    (hd : s.ph t ≠ .dead) (hpc : s'.pc = Function.update s.pc t q)
    (htab : s'.table = s.table.setPcb j b₀) (hT : TInv s'.table s'.ph)
    (hok : s'.sync.Ok (Function.update s.waits t q.sem))
    (hst : ∀ u, u ≠ t → s'.sync.status u = s.sync.status u)
    (hfr : s'.sync.status t ≠ .justCreated)
    (hsems : ∀ r, r ≠ .joinsem j → r ≠ .exitsem j → s'.sync.sems r = s.sync.sems r)
    (hself : q.self = some j)
    (hpar : ∀ r, q.exitPar = some r → r = (s.table.parent t).bind s.table.pidOf)
    (hundec : q.phase.undec = (s.ph t).undec) (hrel : (s.pc t).released = false)
    (hhand : JoinOk s' t j b₀ ∧ ExitOk s' t j b₀) : Inv s' := by
  have ht : s'.pc t = q := by rw [hpc, Function.update_self]
  have hne : ∀ u, u ≠ t → s'.pc u = s.pc u := fun u hu => by
    rw [hpc, Function.update_of_ne hu]
  have hq : q.phase ≠ .dead ∧ ∀ i r, q.phase ≠ .building i r := by
    revert hself
    cases q <;> simp [PC.self, PC.phase]
  refine h.ofHand hp hd ?_ hT ?_ (fun u hu => .inl ⟨hne u hu, hst u hu⟩) ?_ ?_ hfr ?_ ?_ ?_ ?_ ?_
    ?_ ?_ ?_ ?_
  · rw [State.ph, ht]; exact hq.1
  · have : s'.waits = Function.update s.waits t q.sem := by
      funext u
      by_cases e : u = t
      · subst e; simp [State.waits, ht]
      · simp [State.waits, hne u e, e]
    rw [this]; exact hok
  · rw [ht, hself]
    rintro k ⟨⟩
    rfl
  · rw [ht]; exact hpar
  · intro u i r hb
    by_cases e : u = t
    · rw [e, State.ph, ht] at hb
      exact absurd hb (hq.2 i r)
    · rw [State.ph, ← hne u e]; exact hb
  · exact fun k hk => congrArg Semaphore.value (hsems _ (by simpa using hk) (by simp))
  · exact fun k hk => congrArg Semaphore.value (hsems _ (by simp) (by simpa using hk))
  · rw [htab]; rfl
  · rw [htab]; rfl
  · intro k hk
    rw [htab, Table.setPcb_pcb, Function.update_of_ne hk]
  · intro x hx
    have e : x ≠ t := fun e => by rw [e, hrel] at hx; cases hx
    rw [hne x e]
    exact ⟨hx, rfl⟩
  · intro u _ _ _ _ _
    have : s'.undec u = s.undec u := TInv.undec_congr (by rw [htab]; rfl) (by rw [htab]; rfl)
      fun x _ => by
        by_cases e : x = t
        · rw [e, State.ph, ht, hundec]
        · rw [State.ph, State.ph, hne x e]
    rw [this]
  · intro b hb _
    rw [htab, Table.setPcb_pcb, Function.update_self, Option.some.injEq] at hb
    exact hb ▸ hhand

theorem setPcb_self {T : Table} (hb : T.pcb j = some b) : T.setPcb j b = T := by
  cases T
  simp only [Table.setPcb, Table.mk.injEq, true_and, and_true]
  funext k
  by_cases e : k = j
  · subst e; simpa using hb.symm
  · rw [Function.update_of_ne e]

/-- A joiner that is awake has been released. -/
theorem Inv.joiner_awake {id : Pid} {joinee : Option Tid} (h : Inv s)
    (hs : s.sync.status t = .ready) (hpc : s.pc t = .joinWait j id joinee) :
    ∃ b, s.table.pcb j = some b ∧ b.thread = some t ∧ b.joinID = none ∧ s.joinValue j = 1 ∧
      Delivered s joinee b := by
  obtain ⟨-, -, b, hb, hbt⟩ := h.own (t := t) (j := j) (by rw [hpc]; rfl)
  have hj := h.join t j b hb hbt
  unfold JoinOk at hj
  rw [hpc] at hj
  rcases hj with ⟨-, -, hbl, -⟩ | ⟨h₁, h₂, -, h₃⟩
  · rw [hs] at hbl; cases hbl
  · exact ⟨b, hb, hbt, h₁, h₂, h₃⟩

/-- So it passes. -/
theorem Inv.P_join {id : Pid} {joinee : Option Tid} (h : Inv s)
    (hs : s.sync.status t = .ready) (hpc : s.pc t = .joinWait j id joinee) : Inv (s.P t) := by
  have hsem : (s.pc t).sem = some (.joinsem j) := by rw [hpc]; rfl
  obtain ⟨hp, hd, -⟩ := h.own (t := t) (j := j) (by rw [hpc]; rfl)
  obtain ⟨b, hb, hbt, hid, hv, hdel⟩ := h.joiner_awake hs hpc
  have hx : s.exitValue j = 0 ∧ (b.isExit = true → (s.pc t).phase.past = true) := by
    have hx := h.exit t j b hb hbt
    unfold ExitOk at hx
    rw [hpc] at hx ⊢
    exact hx
  have hv0 : (s.sync.sems (.joinsem j)).value ≠ 0 := by
    rw [show (s.sync.sems (.joinsem j)).value = 1 from hv]; decide
  have hnb : s.sync.status t ≠ .blocked := by rw [hs]; decide
  have hpc' : (s.pc t).afterP = .joinWoken j id joinee := by rw [hpc]; rfl
  have hph : PC.phase (.joinWoken j id joinee) = s.ph t := by rw [State.ph, hpc]; rfl
  rw [P_pass hsem hv0, hpc']
  refine h.ofOwn (q := .joinWoken j id joinee) hp hd rfl (setPcb_self hb).symm
    (ph_goto_same (s := { s with sync := _ }) hph ▸ h.table)
    ((h.sync.P hnb hsem).goto (by rw [Sync.P_status_pos hv0]; exact hnb) _)
    (fun u hu => Sync.P_status_ne _ _ hu) ?_ (fun r hr _ => Sync.P_sems_ne _ _ hr) rfl
    (fun r hr => by cases hr) (by rw [hph]) (by rw [hpc]; rfl) ⟨?_, ?_⟩
  · rw [State.goto, Sync.P_status_pos hv0, hs]; decide
  · unfold JoinOk
    rw [goto_pc_self]
    refine ⟨hid, (Sync.P_value_pos hv0 t).trans ?_, hdel.mono (fun x hx => ?_) rfl⟩
    · rw [show (s.sync.sems (.joinsem j)).value = 1 from hv]; rfl
    · have e : x ≠ t := fun e => by rw [e, hpc] at hx; cases hx
      rw [goto_pc_ne _ _ e]
      exact ⟨hx, rfl⟩
  · unfold ExitOk
    rw [goto_pc_self]
    refine ⟨(congrArg Semaphore.value (Sync.P_sems_ne _ _ (by simp))).trans hx.1, fun he => ?_⟩
    have := hx.2 he
    rw [hpc] at this
    cases this

/-- A process waiting for its children that is awake has none left, and passes. -/
theorem Inv.P_exit {ec : Int} {q : Option Pid} (h : Inv s)
    (hs : s.sync.status t = .ready) (hpc : s.pc t = .exitWait ec j q) : Inv (s.P t) := by
  have hsem : (s.pc t).sem = some (.exitsem j) := by rw [hpc]; rfl
  obtain ⟨hp, hd, b, hb, hbt⟩ := h.own (t := t) (j := j) (by rw [hpc]; rfl)
  obtain ⟨hv, hemp⟩ : s.exitValue j = 1 ∧ s.undec t = ∅ := by
    have hx := h.exit t j b hb hbt
    unfold ExitOk at hx
    rw [hpc] at hx
    rcases hx.2 with ⟨-, hbl, -⟩ | ⟨h₁, -, h₂⟩
    · rw [hs] at hbl; cases hbl
    · exact ⟨h₁, h₂⟩
  have hj : b.joinID = none ∧ s.joinValue j = 0 := by
    have hj := h.join t j b hb hbt
    unfold JoinOk at hj
    rw [hpc] at hj
    exact hj
  have hv0 : (s.sync.sems (.exitsem j)).value ≠ 0 := by
    rw [show (s.sync.sems (.exitsem j)).value = 1 from hv]; decide
  have hnb : s.sync.status t ≠ .blocked := by rw [hs]; decide
  have hpc' : (s.pc t).afterP = .exitWaited ec j q := by rw [hpc]; rfl
  have hrun : s.ph t = .running := by rw [State.ph, hpc]; rfl
  rw [P_pass hsem hv0, hpc']
  refine h.ofOwn (q := .exitWaited ec j q) hp hd rfl (setPcb_self hb).symm
    (h.table.pass hrun hemp fun u => ph_goto { s with sync := _ } t _ u)
    ((h.sync.P hnb hsem).goto (by rw [Sync.P_status_pos hv0]; exact hnb) _)
    (fun u hu => Sync.P_status_ne _ _ hu) ?_ (fun r _ hr => Sync.P_sems_ne _ _ hr) rfl
    (fun r hr => ?_) (by rw [hrun]; rfl) (by rw [hpc]; rfl) ⟨?_, ?_⟩
  · rw [State.goto, Sync.P_status_pos hv0, hs]; decide
  · cases hr
    exact h.exitPar t q (by rw [hpc]; rfl)
  · unfold JoinOk
    rw [goto_pc_self]
    exact ⟨hj.1, (congrArg Semaphore.value (Sync.P_sems_ne _ _ (by simp))).trans hj.2⟩
  · unfold ExitOk
    rw [goto_pc_self]
    refine ⟨(Sync.P_value_pos hv0 t).trans ?_, fun _ => rfl⟩
    rw [show (s.sync.sems (.exitsem j)).value = 1 from hv]; rfl

/-- A `P` outside the handshakes. -/
theorem Inv.P_plain {r : SemRef} (h : Inv s) (hs : s.sync.status t = .ready)
    (hsem : (s.pc t).sem = some r) (hr : r.ofHandshake = false) : Inv (s.P t) := by
  have hnb : s.sync.status t ≠ .blocked := by rw [hs]; decide
  have hne : ∀ r', r'.ofHandshake = true → r' ≠ r := fun r' hr' e => by
    rw [e, hr] at hr'; cases hr'
  have hcalm : (s.pc t).waiting = false ∧ (s.pc t).afterP.handshake = false ∧
      (s.pc t).afterP.phase = (s.pc t).phase ∧ (s.pc t).afterP.self = none ∧
      (s.pc t).afterP.exitPar = none ∧ (s.pc t).released = false := by
    revert hsem
    cases s.pc t <;> simp only [PC.sem] <;> rintro ⟨⟩ <;> first
      | exact ⟨rfl, rfl, rfl, rfl, rfl, rfl⟩
      | cases hr
  have hInv : Inv { s with sync := (s.sync.P t r).1 } := by
    refine h.ofSync (h.sync.P hnb hsem)
      (fun j => congrArg Semaphore.value (Sync.P_sems_ne _ _ (hne _ rfl)))
      (fun j => congrArg Semaphore.value (Sync.P_sems_ne _ _ (hne _ rfl)))
      (fun u hu => Sync.P_status_ne _ _ fun e => ?_) (fun u hu => ?_)
    · rw [e, hcalm.1] at hu; cases hu
    · by_cases e : u = t
      · subst e
        by_cases hv : (s.sync.sems r).value = 0
        · rw [Sync.P_status_zero hv] at hu; cases hu
        · rwa [Sync.P_status_pos hv] at hu
      · rwa [Sync.P_status_ne _ _ e] at hu
  by_cases hv : (s.sync.sems r).value = 0
  · rw [P_block hsem hv]; exact hInv
  · obtain ⟨h₁, h₂, h₃, h₄, h₅, h₆⟩ := hcalm
    rw [P_pass hsem hv]
    refine hInv.goto ?_ h₃ h₁ h₂ (fun j hj => ?_) (fun q hq => ?_) (fun hrel => ?_)
    · rw [Sync.P_status_pos hv]; exact hs
    · rw [h₄] at hj; cases hj
    · rw [h₅] at hq; cases hq
    · rw [show (s.pc t).released = true from hrel] at h₆; cases h₆

/-- The test of a `P` keeps the invariant. -/
theorem Inv.P (h : Inv s) (hs : s.sync.status t = .ready) : Inv (s.P t) := by
  cases hpc : s.pc t with
  | joinWait j id c => exact h.P_join hs hpc
  | exitWait ec j q => exact h.P_exit hs hpc
  | execBmsem f => exact h.P_plain (r := .bmsem) hs (by rw [hpc]; rfl) rfl
  | execMutex f pid q => exact h.P_plain (r := .mutex pid) hs (by rw [hpc]; rfl) rfl
  | execAddrLock pid q => exact h.P_plain (r := .addrLock) hs (by rw [hpc]; rfl) rfl
  | _ => rw [P_none (by rw [hpc]; rfl)]; exact h

/-- What the invariant does not read. -/
theorem Inv.congr (h : Inv s) (h₁ : s'.table = s.table) (h₂ : s'.pc = s.pc)
    (h₃ : s'.sync = s.sync) : Inv s' := by
  have hph : s'.ph = s.ph := by funext u; rw [State.ph, State.ph, h₂]
  refine h.of (h₁ ▸ hph ▸ h.table) (by rw [h₃]) (fun u => .inl ⟨by rw [h₂], by rw [h₃]⟩)
    (fun p j b hb hp => .inl ⟨b, h₁ ▸ hb, hp, rfl, rfl, rfl⟩)
    (fun u _ => by rw [h₁]; exact ⟨rfl, rfl⟩)
    (fun p x _ hx => by rw [h₁] at hx ⊢; exact ⟨hx, rfl⟩) (fun p _ _ _ _ => ?_)
  rw [State.undec, State.undec, h₁, hph]

/-! ### Places -/

/-- A thread at a place outside the handshakes returns `r` to user code. -/
theorem Inv.ret (h : Inv s) (hs : s.sync.status t = .ready) (hrun : s.ph t = .running)
    (hc : (s.pc t).waiting = false) (r : Int) : Inv (s.ret t r) := by
  have h₁ : Inv { s with result := Function.update s.result t r } := h.congr rfl rfl rfl
  have hrel : (s.pc t).released = false := by
    revert hrun
    unfold State.ph
    cases s.pc t <;> simp [PC.phase, PC.released]
  refine h₁.goto hs hrun.symm hc rfl (fun j hj => by cases hj) (fun q hq => by cases hq)
    fun hr => ?_
  rw [show (s.pc t).released = true from hr] at hrel
  cases hrel

/-- A thread goes to a place of `ExecUpdate` of the same phase. -/
theorem Inv.exec {q : PC} (h : Inv s) (hs : s.sync.status t = .ready) (hph : q.phase = s.ph t)
    (hc : (s.pc t).waiting = false) (hr : (s.pc t).released = false)
    (hq : q.handshake = false ∧ q.self = none ∧ q.exitPar = none) : Inv (s.goto t q) := by
  refine h.goto hs hph hc hq.1 (fun j hj => ?_) (fun r hr => ?_) (fun hr' => ?_)
  · rw [hq.2.1] at hj; cases hj
  · rw [hq.2.2] at hr; cases hr
  · rw [hr] at hr'; cases hr'

end

end Nachos.Proc
