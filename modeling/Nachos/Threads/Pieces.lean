import Nachos.Threads.Handshake

/-!
# Threads — the pieces of a step

A step is cut into pieces, each one change of the state: a move of the thread, a `P`, a `V`, a write
to a PCB with the move that goes with it.  `step_pieces` says that every step is a run of pieces of
its thread; so what each piece keeps, every step keeps (`step_keeps`).
-/

namespace Nachos.Proc
open Relation (ReflTransGen)

/-- The moves of `ExecUpdate` that change nothing but the place. -/
inductive PC.Leads (opened : Bool) : PC → PC → Prop where
  | boot {f : Name} : Leads opened .boot (.execBmsem (some f))
  | refuse {f : Option Name} : Leads opened (.execEntered f) (.execRet (-1))
  | noOpen {f : Name} {i : Pid} {par : Option Pid} : opened = false →
      Leads opened (.execLocked f i par) (.execFailed i par)
  | unlock {i : Pid} {par : Option Pid} :
      Leads opened (.execForked i par) (.execUnlocked i par)
  | start : Leads opened .bootRet .user

theorem PC.Leads.same {opened : Bool} {pc q : PC} (h : PC.Leads opened pc q) :
    q.phase = pc.phase ∧ pc.waiting = false ∧ pc.released = false ∧
      q.handshake = false ∧ q.self = none ∧ q.exitPar = none := by
  cases h <;> exact ⟨rfl, rfl, rfl, rfl, rfl, rfl⟩

/-- What a step knows from outside: the answer of the host to the `Open` of `PCB::Exec`, if it makes
this call, and whether it is a call of `JoinUpdate`. -/
structure Input where
  opened : Bool
  joins : Bool

/-- A piece of a step of the thread `t`; `o` is what the step knows from outside. -/
inductive Piece (t : Tid) (o : Input) (s : State) : State → Prop where
  | halt : Piece t o s { s with halted := true }
  | touch {sp : AddrSpace} {pageTable : List TranslationEntry}
      {h : pageTable.map TranslationEntry.mapping = sp.pageTable.map TranslationEntry.mapping} :
      s.spaces t = some sp → Piece t o s (s.touch t sp pageTable h)
  | call {f : Option Name} : s.InUser t → Piece t o s ((s.called t).goto t (.execBmsem f))
  | refused {r : Int} : s.InUser t → Piece t o s ((s.called t).ret t r)
  | ret {r : Int} : s.pc t = .execRet r → t ≠ 0 → Piece t o s (s.ret t r)
  | joinRet {j id : Pid} {joinee : Option Tid} {b : PCB} : s.pc t = .joinWoken j id joinee →
      s.table.pcb j = some b → Piece t o s (s.ret t b.joinExitcode)
  | exec {q : PC} : PC.Leads o.opened (s.pc t) q → Piece t o s (s.goto t q)
  | P : Piece t o s (s.P t)
  | V {r : SemRef} : r.ofHandshake = false → Piece t o s (s.V r)
  | newPCB {f : Name} {i : Pid} {par : Option Pid} : s.pc t = .execEntered (some f) →
      s.table.bm.test i = false → par = s.table.pidOf t → (par = none → i = 0) →
      Piece t o s (s.newPCB t f (s.table.bm.mark i) i par)
  | newThread {f : Name} {i : Pid} {par : Option Pid} {b : PCB} :
      s.pc t = .execLocked f i par → b.thread = some s.table.nextTid → b.parentID = par →
      b.numwait = 0 → b.joinID = none → b.isExit = false →
      Piece t o s (((s.newThread t f i par).setPcb i b).goto t (.execAddrLock i par))
  | fail {i : Pid} {par : Option Pid} : s.pc t = .execFailed i par →
      Piece t o s ({ s with table := { s.table with bm := s.table.bm.clear i } }.goto t
        (.execRet (-1)))
  | space {i : Pid} {par : Option Pid} {c : Tid} {b : PCB} {exe : Executable} {sp : AddrSpace}
      {phys : BitMap NumPhysPages} : s.pc t = .execSpace i par → s.table.pcb i = some b →
      b.thread = some c → AddrSpace.build exe s.gPhysPageBitMap = .ok (sp, phys) →
      Piece t o s ({ s with
        gPhysPageBitMap := phys
        spaces := Function.update s.spaces c (some sp) }.goto t (.execBuilt i par))
  | fork {i j : Pid} {c : Tid} {b : PCB} : s.pc t = .execBuilt i (some j) →
      s.table.pcb i = some b → b.thread = some c →
      Piece t o s (((s.wake c).goto c .user).goto t (.execForked i (some j)))
  | takeOver {i : Pid} {c : Tid} {b : PCB} : s.pc t = .execBuilt i none →
      s.table.pcb i = some b → b.thread = some c →
      Piece t o s (((s.wake c).goto t .gone).goto c (.execUnlocked i none))
  | bootInc {i : Pid} : s.pc t = .execUnlocked i none → Piece t o s (s.goto t .bootRet)
  | inc {i j : Pid} {b : PCB} : s.pc t = .execUnlocked i (some j) → s.table.pcb j = some b →
      Piece t o s ((s.setPcb j { b with numwait := b.numwait + 1 }).goto t (.execRet i.val))
  | joinWait {i j : Pid} {b d : PCB} : o.joins = true → s.InUser t → s.table.pidOf t = some j →
      s.table.pcb j = some b → s.table.pcb i = some d → d.parentID = some j →
      Piece t o s
        ((((s.called t).setPcb j { b with joinID := some i }).goto t
          (.joinWait j i d.thread)).P t)
  | exitWait {ec : Int} {j : Pid} {b : PCB} : s.InUser t → s.table.pidOf t = some j →
      s.table.pcb j = some b → 0 < b.numwait →
      Piece t o s
        ((((s.called t).setPcb j { b with isExit := true }).goto t
          (.exitWait ec j b.parentID)).P t)
  | pass {ec : Int} {j : Pid} {b : PCB} : s.InUser t → s.table.pidOf t = some j →
      s.table.pcb j = some b → ¬ 0 < b.numwait →
      Piece t o s ((s.called t).goto t (.exitWaited ec j b.parentID))
  | joinRelease {ec : Int} {i j : Pid} {b : PCB} : s.pc t = .exitWaited ec i (some j) →
      s.table.pcb j = some b → b.joinID = some i →
      Piece t o s (((s.setPcb j { b with joinID := none, joinExitcode := ec }).goto t
        (.exitJoinReleased ec i j)).V (.joinsem j))
  | skip {ec : Int} {i j : Pid} {b : PCB} : s.pc t = .exitWaited ec i (some j) →
      s.table.pcb j = some b → b.joinID ≠ some i →
      Piece t o s (s.goto t (.exitJoinReleased ec i j))
  | exitRelease {ec : Int} {i j : Pid} {b : PCB} : s.pc t = .exitJoinReleased ec i j →
      s.table.pcb j = some b → b.numwait - 1 = 0 → b.isExit = true →
      Piece t o s (((s.setPcb j { b with numwait := b.numwait - 1 }).goto t
        (.exitReleased ec i)).V (.exitsem j))
  | dec {ec : Int} {i j : Pid} {b : PCB} : s.pc t = .exitJoinReleased ec i j →
      s.table.pcb j = some b → ¬ (b.numwait - 1 = 0 ∧ b.isExit = true) →
      Piece t o s ((s.setPcb j { b with numwait := b.numwait - 1 }).goto t
        (.exitReleased ec i))
  | finish {ec : Int} {i : Pid} : s.pc t = .exitReleased ec i →
      Piece t o s (s.exitReleased t ec i)

/-- A piece of a thread that has the CPU. -/
def Runs (t : Tid) (o : Input) (s s' : State) : Prop :=
  s.sync.status t = .ready ∧ Piece t o s s'

def Action.input (s : State) : Action → Input
  | .resume t host =>
      match s.pc t with
      | .execLocked _ _ _ => ⟨host.opened, false⟩
      | _ => ⟨true, false⟩
  | .join _ _ => ⟨true, true⟩
  | _ => ⟨true, false⟩

section
variable {s s' : State} {t : Tid} {o : Input}

theorem Runs.one (hs : s.sync.status t = .ready) (h : Piece t o s s') :
    ReflTransGen (Runs t o) s s' := .single ⟨hs, h⟩

/-- A move and the `V` behind it. -/
theorem Runs.gotoV {q : PC} {r : SemRef} (hs : s.sync.status t = .ready)
    (h : Piece t o s (s.goto t q)) (hr : r.ofHandshake = false) :
    ReflTransGen (Runs t o) s ((s.V r).goto t q) :=
  (Runs.one hs h).tail ⟨hs, .V hr⟩

theorem execEntered_pieces {f : Option Name} {host : Host} (h : Inv s)
    (hs : s.sync.status t = .ready) (hpc : s.pc t = .execEntered f) :
    ReflTransGen (Runs t o) s (s.execEntered t f host) := by
  have hd : s.ph t ≠ .dead := by rw [State.ph, hpc]; simp [PC.phase]
  have hrefuse : ReflTransGen (Runs t o) s (s.refuse t) :=
    Runs.gotoV (r := .bmsem) hs (.exec (hpc ▸ .refuse)) rfl
  unfold State.execEntered
  split
  · exact hrefuse
  split
  · exact hrefuse
  split
  · -- no bit is set, so the caller is the main thread
    rename_i hn
    rw [BitMap.numClear_eq_all_iff] at hn
    refine (Runs.one hs (.newPCB hpc (hn 0) ?_ fun _ => rfl)).tail ⟨hs, .P⟩
    cases hp : s.table.pidOf t with
    | none => rfl
    | some k =>
        have := (h.table.bit k).mpr (.inl ⟨t, hp, hd⟩)
        rw [hn k] at this
        cases this
  split
  · exact hrefuse
  split
  · exact hrefuse
  rename_i parentid hf
  split
  · exact hrefuse
  rename_i pid bm hfind
  obtain ⟨rfl, hbit⟩ := BitMap.find_some hfind
  refine (Runs.one hs (.newPCB hpc hbit ?_ fun e => by cases e)).tail ⟨hs, .P⟩
  rw [← hf, h.table.find_eq hd]

theorem execLocked_pieces {f : Name} {i : Pid} {par : Option Pid} {host : Host} (h : Inv s)
    (hs : s.sync.status t = .ready) (hpc : s.pc t = .execLocked f i par)
    (hok : s.execLocked t f i par host = .ok s') :
    ReflTransGen (Runs t ⟨host.opened, false⟩) s s' := by
  have hb : s.ph t = .building i par := by rw [State.ph, hpc]; rfl
  have hne : t ≠ s.table.nextTid := fun e => by
    rw [e, (h.table.unborn _).mpr (le_refl _)] at hb
    cases hb
  unfold State.execLocked at hok
  rw [(h.table.building t i par hb).1] at hok
  dsimp only at hok
  split at hok
  · rename_i ho
    cases hok
    have ho' : host.opened = false := ho.resolve_left fun hn => hn rfl
    exact Runs.gotoV (r := .mutex i) hs (.exec (hpc ▸ .noOpen ho')) rfl
  · cases hok
    exact (Runs.one hs (.newThread hpc rfl rfl rfl rfl rfl)).tail
      ⟨(Function.update_of_ne hne _ _).trans hs, .P⟩

theorem execSpace_pieces {i : Pid} {par : Option Pid} {host : Host}
    (hs : s.sync.status t = .ready) (hpc : s.pc t = .execSpace i par)
    (hok : s.execSpace t i par host = .ok s') : ReflTransGen (Runs t o) s s' := by
  unfold State.execSpace at hok
  split at hok
  · cases hok
  rename_i c hc
  obtain ⟨b, hb, hbc⟩ := Option.bind_eq_some_iff.mp hc
  split at hok
  · cases hok
  rename_i sp phys hbuild
  cases hok
  exact (Runs.one hs (.space hpc hb hbc hbuild)).tail ⟨hs, .V (r := .addrLock) rfl⟩

/-- The PCB whose thread is about to be forked has the parent `PCB::Exec` was called with. -/
theorem Inv.hatching_parentID {i : Pid} {c : Tid} {b : PCB} {par : Option Pid} (h : Inv s)
    (ht : s.ph t = .hatching i par) (hb : s.table.pcb i = some b) (hc : b.thread = some c) :
    b.parentID = par := by
  obtain ⟨-, -, h₃⟩ := h.table.hatching_thread ht hb hc
  have hpar := (h.table.hatching t i par ht).1
  rw [(h.table.slot i b c hb hc).2.2, h₃]
  cases par with
  | none => rfl
  | some j => exact hpar.symm

theorem execBuilt_pieces {i : Pid} {par : Option Pid} (h : Inv s)
    (hs : s.sync.status t = .ready) (hpc : s.pc t = .execBuilt i par)
    (hok : s.execBuilt t i par = .ok s') : ReflTransGen (Runs t o) s s' := by
  have ht : s.ph t = .hatching i par := by rw [State.ph, hpc]; rfl
  unfold State.execBuilt at hok
  split at hok
  · cases hok
  rename_i b hb
  split at hok
  · cases hok
  rename_i c hc
  have hpar := h.hatching_parentID ht hb hc
  have hne : t ≠ c := fun e => by
    have := (h.table.hatching_thread ht hb hc).1
    rw [← e, ht] at this
    cases this
  dsimp only at hok
  split at hok
  · rename_i hnone
    obtain rfl : par = none := hpar.symm.trans hnone
    cases hok
    refine (Runs.one hs (.takeOver hpc hb hc)).tail ⟨?_, .V (r := .mutex i) rfl⟩
    exact (Function.update_of_ne hne _ _).trans hs
  · rename_i hsome
    obtain ⟨j, rfl⟩ : ∃ j, par = some j := Option.ne_none_iff_exists'.mp (hpar ▸ hsome)
    cases hok
    exact Runs.one hs (.fork hpc hb hc)

theorem execUnlocked_pieces {i : Pid} {par : Option Pid} (hs : s.sync.status t = .ready)
    (hpc : s.pc t = .execUnlocked i par) (hok : s.execUnlocked t i par = .ok s') :
    ReflTransGen (Runs t o) s s' := by
  unfold State.execUnlocked at hok
  split at hok
  · cases hok
    exact Runs.gotoV (r := .bmsem) hs (.bootInc hpc) rfl
  · split at hok
    · cases hok
    rename_i b hb
    cases hok
    exact (Runs.one hs (.inc hpc hb)).tail ⟨hs, .V (r := .bmsem) rfl⟩

theorem joinUpdate_pieces {id : Int} (ho : o.joins = true) (h : Inv s) (hu : s.InUser t)
    (hok : (s.called t).joinUpdate t id = .ok s') : ReflTransGen (Runs t o) s s' := by
  have hret : ∀ r, ReflTransGen (Runs t o) s ((s.called t).ret t r) := fun r =>
    Runs.one hu.1 (.refused hu)
  unfold State.joinUpdate at hok
  split at hok
  · dsimp only at hok
    split at hok
    · cases hok; exact hret _
    split at hok
    · cases hok; exact hret _
    rename_i pid hf
    have hj : s.table.pidOf t = some pid := by
      rw [← h.table.find_eq (by rw [State.ph, hu.2]; decide)]
      exact hf
    split at hok
    · cases hok
    rename_i d hd
    split at hok
    · cases hok; exact hret _
    rename_i hdp
    split at hok
    · cases hok
    rename_i b hb
    split at hok
    · cases hok; exact hret _
    · cases hok
      exact Runs.one hu.1 (.joinWait ho hu hj hb hd (not_not.mp hdp))
  · cases hok; exact hret _

theorem exitJoinReleased_pieces {ec : Int} {i j : Pid} (hs : s.sync.status t = .ready)
    (hpc : s.pc t = .exitJoinReleased ec i j) (hok : s.exitJoinReleased t ec i j = .ok s') :
    ReflTransGen (Runs t o) s s' := by
  unfold State.exitJoinReleased at hok
  split at hok
  · cases hok
  rename_i b hb
  dsimp only at hok
  split at hok
  · rename_i hn
    cases hok
    exact Runs.one hs (.exitRelease hpc hb hn.1 hn.2)
  · rename_i hn
    cases hok
    exact (Runs.one hs (.dec hpc hb hn)).tail ⟨hs, .finish (goto_pc_self ..)⟩

theorem exitWaited_pieces {ec : Int} {i : Pid} {par : Option Pid} (hs : s.sync.status t = .ready)
    (hpc : s.pc t = .exitWaited ec i par) (hok : s.exitWaited t ec i par = .ok s') :
    ReflTransGen (Runs t o) s s' := by
  unfold State.exitWaited at hok
  split at hok
  · cases hok; exact Runs.one hs .halt
  split at hok
  · cases hok
  rename_i b hb
  split at hok
  · rename_i hid
    cases hok
    exact Runs.one hs (.joinRelease hpc hb hid)
  · rename_i hid
    exact (Runs.one hs (.skip hpc hb hid)).trans
      (exitJoinReleased_pieces hs (goto_pc_self ..) hok)

theorem exitUpdate_pieces {ec : Int} (h : Inv s) (hu : s.InUser t)
    (hok : (s.called t).exitUpdate t ec = .ok s') : ReflTransGen (Runs t o) s s' := by
  unfold State.exitUpdate at hok
  split at hok
  · cases hok; exact Runs.one hu.1 (.refused hu)
  rename_i pid hf
  have hj : s.table.pidOf t = some pid := by
    rw [← h.table.find_eq (by rw [State.ph, hu.2]; decide)]
    exact hf
  split at hok
  · cases hok
  rename_i b hb
  split at hok
  · rename_i hn
    cases hok
    exact Runs.one hu.1 (.exitWait hu hj hb hn)
  · rename_i hn
    exact (Runs.one hu.1 (.pass hu hj hb hn)).trans
      (exitWaited_pieces hu.1 (goto_pc_self ..) hok)

theorem resume_pieces {host : Host} (h : Inv s) (hs : s.sync.status t = .ready)
    (hok : s.resume t host = .ok s') :
    ReflTransGen (Runs t (Action.input s (.resume t host))) s s' := by
  unfold State.resume at hok
  cases hpc : s.pc t with
  | execBmsem f | execMutex f i q | execAddrLock i q | joinWait j i c | exitWait ec j q =>
      rw [hpc] at hok; cases hok; exact Runs.one hs .P
  | execEntered f => rw [hpc] at hok; cases hok; exact execEntered_pieces h hs hpc
  | execLocked f i q =>
      rw [hpc] at hok
      have ho : Action.input s (.resume t host) = ⟨host.opened, false⟩ := by rw [Action.input, hpc]
      exact ho ▸ execLocked_pieces h hs hpc hok
  | execFailed i q =>
      rw [hpc] at hok
      cases hok
      exact (Runs.one hs (.fail hpc)).tail ⟨hs, .V (r := .bmsem) rfl⟩
  | execSpace i q => rw [hpc] at hok; exact execSpace_pieces hs hpc hok
  | execBuilt i q => rw [hpc] at hok; exact execBuilt_pieces h hs hpc hok
  | execForked i q =>
      rw [hpc] at hok
      cases hok
      exact Runs.gotoV (r := .mutex i) hs (.exec (hpc ▸ .unlock)) rfl
  | execUnlocked i q => rw [hpc] at hok; exact execUnlocked_pieces hs hpc hok
  | execRet r =>
      rw [hpc] at hok
      dsimp only at hok
      split at hok
      · cases hok
      · rename_i h0; cases hok; exact Runs.one hs (.ret hpc h0)
  | bootRet => rw [hpc] at hok; cases hok; exact Runs.one hs (.exec (hpc ▸ .start))
  | joinWoken j i c =>
      rw [hpc] at hok
      dsimp only [State.joinWoken] at hok
      split at hok
      · cases hok
      · rename_i b hb; cases hok; exact Runs.one hs (.joinRet hpc hb)
  | exitWaited ec i q => rw [hpc] at hok; exact exitWaited_pieces hs hpc hok
  | exitJoinReleased ec i j => rw [hpc] at hok; exact exitJoinReleased_pieces hs hpc hok
  | exitReleased ec i => rw [hpc] at hok; cases hok; exact Runs.one hs (.finish hpc)
  | unborn | created | boot | user | done _ | gone => rw [hpc] at hok; cases hok

/-! ### What a piece leaves alone -/

theorem P_pc_ne {u : Tid} (hu : u ≠ t) : (s.P t).pc u = s.pc u := by
  rcases P_pc s t with e | e <;> rw [e]
  exact Function.update_of_ne hu _ _

theorem P_status_ne {u : Tid} (hu : u ≠ t) : (s.P t).sync.status u = s.sync.status u := by
  cases hsem : (s.pc t).sem with
  | none => rw [P_none hsem]
  | some r =>
      by_cases hv : (s.sync.sems r).value = 0
      · rw [P_block hsem hv]; exact Sync.P_status_ne _ _ hu
      · rw [P_pass hsem hv]; exact Sync.P_status_ne _ _ hu

theorem Inv.pc_unborn (h : Inv s) {u : Tid} (hu : u = s.table.nextTid) : s.pc u = .unborn := by
  have hph := (h.table.unborn u).mpr (le_of_eq hu.symm)
  revert hph
  unfold State.ph
  cases s.pc u <;> simp [PC.phase]

/-- The thread in a slot, before it has been forked. -/
theorem Inv.pc_created {i : Pid} {par : Option Pid} {b : PCB} {c : Tid} (h : Inv s)
    (hpc : s.pc t = .execBuilt i par) (hb : s.table.pcb i = some b) (hc : b.thread = some c) :
    s.pc c = .created := by
  have hph := (h.table.hatching_thread (by rw [State.ph, hpc]; rfl) hb hc).1
  revert hph
  unfold State.ph
  cases s.pc c <;> simp [PC.phase]

/-- A piece moves its own thread, a thread it makes and a thread it forks. -/
theorem piece_pc {u : Tid} (h : Inv s) (hp : Piece t o s s') (hu : u ≠ t) :
    s'.pc u = s.pc u ∨ (s.pc u = .unborn ∧ s'.pc u = .created) ∨
      (s.pc u = .created ∧ (s'.pc u = .user ∨ ∃ i, s'.pc u = .execUnlocked i none)) := by
  have hgoto : ∀ (x : State) q, x.pc = s.pc → (x.goto t q).pc u = s.pc u := fun x q e => by
    rw [goto_pc_ne _ _ hu, e]
  cases hp with
  | halt | touch | V => exact .inl rfl
  | P => exact .inl (P_pc_ne hu)
  | call | refused | ret | joinRet | exec | newPCB | fail | space | bootInc | inc | pass
  | joinRelease | skip | exitRelease | dec | finish => exact .inl (hgoto _ _ rfl)
  | newThread =>
      by_cases e : u = s.table.nextTid
      · refine .inr (.inl ⟨h.pc_unborn e, ?_⟩)
        rw [goto_pc_ne _ _ hu, e]
        exact goto_pc_self ..
      · exact .inl ((goto_pc_ne _ _ hu).trans (goto_pc_ne _ _ e))
  | @fork i j c b hpc hb hc =>
      by_cases e : u = c
      · refine .inr (.inr ⟨e ▸ h.pc_created hpc hb hc, .inl ?_⟩)
        rw [goto_pc_ne _ _ hu, e, goto_pc_self]
      · exact .inl ((goto_pc_ne _ _ hu).trans (goto_pc_ne _ _ e))
  | @takeOver i c b hpc hb hc =>
      by_cases e : u = c
      · exact .inr (.inr ⟨e ▸ h.pc_created hpc hb hc, .inr ⟨i, e ▸ goto_pc_self ..⟩⟩)
      · exact .inl ((goto_pc_ne _ _ e).trans (goto_pc_ne _ _ hu))
  | joinWait | exitWait => exact .inl ((P_pc_ne hu).trans (hgoto _ _ rfl))

/-- What a piece of `t` does when it makes a `V` on a semaphore of a handshake. -/
def Releases (t : Tid) (s s' : State) : SemRef → Prop
  | .joinsem j => ∃ ec i b, s.pc t = .exitWaited ec i (some j) ∧ s.table.pcb j = some b ∧
      b.joinID = some i ∧ s'.pc t = .exitJoinReleased ec i j
  | .exitsem j => ∃ ec i b, s.pc t = .exitJoinReleased ec i j ∧ s.table.pcb j = some b ∧
      b.numwait - 1 = 0 ∧ b.isExit = true ∧ s'.pc t = .exitReleased ec i
  | _ => True

/-- A piece wakes another thread only by a `V` on the semaphore in whose `P` it is, and puts none
to sleep. -/
theorem piece_status {u : Tid} (h : Inv s) (hp : Piece t o s s') (hu : u ≠ t) :
    s'.sync.status u = s.sync.status u ∨
      (s'.sync.status u ≠ .blocked ∧ ∀ r, s.waits u = some r → Releases t s s' r) := by
  have hV : ∀ r, Releases t s s' r → (s.sync.V r).status u = s.sync.status u ∨
      ((s.sync.V r).status u ≠ .blocked ∧ ∀ r, s.waits u = some r → Releases t s s' r) := by
    intro r hr
    refine (s.sync.V_status r u).imp_right fun ⟨hm, e⟩ => ⟨by rw [e]; decide, fun r' hr' => ?_⟩
    have := ((h.sync.mem r u).mp hm).2
    rw [hr'] at this
    cases this
    exact hr
  have hfresh : ∀ {q : PC} {x : ThreadStatus}, s.pc u = q → q.sem = none → x ≠ .blocked →
      x ≠ .blocked ∧ ∀ r, s.waits u = some r → Releases t s s' r := by
    intro q x e hq hx
    refine ⟨hx, fun r hr => ?_⟩
    rw [State.waits, e, hq] at hr
    cases hr
  cases hp with
  | P => exact .inl (P_status_ne hu)
  | joinWait | exitWait => exact .inl (P_status_ne hu)
  | @V r hr => exact hV r (by cases r <;> trivial)
  | @joinRelease ec i j b hpc hb hid =>
      exact hV _ ⟨ec, i, b, hpc, hb, hid, goto_pc_self ..⟩
  | @exitRelease ec i j b hpc hb hn he =>
      exact hV _ ⟨ec, i, b, hpc, hb, hn, he, goto_pc_self ..⟩
  | newThread =>
      by_cases e : u = s.table.nextTid
      · refine .inr (hfresh (h.pc_unborn e) rfl ?_)
        rw [e]
        show Function.update s.sync.status s.table.nextTid .justCreated _ ≠ _
        rw [Function.update_self]
        decide
      · exact .inl (Function.update_of_ne e _ _)
  | @fork _ _ c _ hpc hb hc | @takeOver _ c _ hpc hb hc =>
      by_cases e : u = c
      · refine .inr (hfresh (e ▸ h.pc_created hpc hb hc) rfl ?_)
        rw [e]
        show Function.update s.sync.status c .ready _ ≠ _
        rw [Function.update_self]
        decide
      · exact .inl (Function.update_of_ne e _ _)
  | _ => exact .inl rfl

/-- A piece changes neither the calls nor the results of another thread. -/
theorem piece_calls {u : Tid} (hp : Piece t o s s') (hu : u ≠ t) :
    s'.calls u = s.calls u ∧ s'.result u = s.result u := by
  have hupdate : ∀ {α : Type} (f : Tid → α) (x : α), Function.update f t x u = f u := fun f x =>
    Function.update_of_ne hu x f
  cases hp with
  | call | pass => exact ⟨hupdate _ _, rfl⟩
  | refused => exact ⟨hupdate _ _, hupdate _ _⟩
  | ret | joinRet => exact ⟨rfl, hupdate _ _⟩
  | P => rw [P_calls, P_result]; exact ⟨rfl, rfl⟩
  | joinWait | exitWait => rw [P_calls, P_result]; exact ⟨hupdate _ _, rfl⟩
  | _ => exact ⟨rfl, rfl⟩

/-- A process keeps its pid and its parent. -/
theorem piece_kin {u : Tid} (h : Inv s) (hp : Piece t o s s') (hu : s.table.pidOf u ≠ none) :
    s'.table.pidOf u = s.table.pidOf u ∧ s'.table.parent u = s.table.parent u := by
  cases hp with
  | newThread =>
      have e : u ≠ s.table.nextTid := by
        rintro rfl
        exact hu ((h.table.noPid _).mpr (.inr (le_refl _)))
      exact ⟨Function.update_of_ne e _ _, Function.update_of_ne e _ _⟩
  | P => rw [P_table]; exact ⟨rfl, rfl⟩
  | joinWait | exitWait => rw [P_table]; exact ⟨rfl, rfl⟩
  | _ => exact ⟨rfl, rfl⟩

/-- What a process has released stays released. -/
theorem piece_released (h : Inv s) (hp : Piece t o s s') : Released s s' := by
  intro x hx
  have hn : s.pc x ≠ .unborn ∧ s.pc x ≠ .created := by
    constructor <;> (intro e; rw [e] at hx; cases hx)
  by_cases e : x = t
  · subst e
    have hno : ∀ {q}, s.pc x = q → q.released = false → False := fun e hq => by
      rw [e, hq] at hx; cases hx
    have hto : ∀ {y : State} {q : PC}, y.pc = Function.update s.pc x q → q.released = true →
        q.exitCode = (s.pc x).exitCode →
        (y.pc x).released = true ∧ (y.pc x).exitCode = (s.pc x).exitCode := fun e h₁ h₂ => by
      rw [e, Function.update_self]; exact ⟨h₁, h₂⟩
    cases hp with
    | halt | touch | V => exact ⟨hx, rfl⟩
    | ret hpc | joinRet hpc | newPCB hpc | newThread hpc | fail hpc | space hpc | fork hpc
    | takeOver hpc | bootInc hpc | inc hpc | joinRelease hpc | skip hpc => exact (hno hpc rfl).elim
    | exec hq => exact (hno rfl hq.same.2.2.1).elim
    | P =>
        have hsem : (s.pc x).sem = none := by
          revert hx
          cases s.pc x <;> simp [PC.released, PC.sem]
        rw [P_none hsem]
        exact ⟨hx, rfl⟩
    | call hu | refused hu | joinWait _ hu | exitWait hu | pass hu => exact (hno hu.2 rfl).elim
    | exitRelease hpc | dec hpc | finish hpc =>
        exact hto rfl rfl (by rw [hpc]; rfl)
  · rcases piece_pc h hp e with e' | ⟨e', -⟩ | ⟨e', -⟩
    · rw [e']; exact ⟨hx, rfl⟩
    · exact absurd e' hn.1
    · exact absurd e' hn.2

end

end Nachos.Proc
