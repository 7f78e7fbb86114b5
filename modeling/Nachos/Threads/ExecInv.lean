import Nachos.Threads.Pieces

/-!
# Threads — `ExecUpdate` keeps the invariant

The pieces of `ExecUpdate`: a slot is taken, its thread is made, and maker and thread go their
ways.
-/

namespace Nachos.Proc

section
variable {s s' : State} {t p c : Tid} {i j : Pid} {b b' : PCB}

/-- The semaphores of a slot that holds no process and is not under construction are made anew. -/
theorem Inv.renew (h : Inv s) (hi : s.table.bm.test i = false) :
    Inv { s with sync :=
      ((s.sync.renew (.joinsem i) 0).renew (.exitsem i) 0).renew (.mutex i) 1 } := by
  have hno : ∀ c, s.table.pidOf c = some i → s.ph c = .dead := fun c hc => by
    by_contra hd
    rw [(h.table.bit i).mpr (.inl ⟨c, hc, hd⟩)] at hi
    cases hi
  have hnb : ∀ u q, s.ph u ≠ .building i q := fun u q hu => by
    rw [(h.table.bit i).mpr (.inr ⟨u, q, hu⟩)] at hi
    cases hi
  -- nobody waits on a semaphore of a free slot, so a new one takes no queue away
  have hwait : ∀ u r, s.waits u = some r → r = .joinsem i ∨ r = .exitsem i ∨ r = .mutex i →
      False := by
    rintro u r hu (rfl | rfl | rfl)
    · obtain ⟨h₁, h₂, -⟩ := h.own (PC.waiting_of_sem (.inl hu)).2
      exact h₂ (hno u h₁)
    · obtain ⟨h₁, h₂, -⟩ := h.own (PC.waiting_of_sem (.inr hu)).2
      exact h₂ (hno u h₁)
    · have : ∃ q, s.ph u = .building i q := by
        unfold State.waits at hu
        unfold State.ph
        revert hu
        cases s.pc u <;> simp [PC.sem, PC.phase]
      obtain ⟨q, hq⟩ := this
      exact hnb u q hq
  have hq : ∀ r, r = .joinsem i ∨ r = .exitsem i ∨ r = .mutex i → (s.sync.sems r).queue = [] := by
    intro r hr
    rw [List.eq_nil_iff_forall_not_mem]
    exact fun u hu => hwait u r ((h.sync.mem r u).mp hu).2 hr
  have hsems : ∀ r, r ≠ .joinsem i → r ≠ .exitsem i → r ≠ .mutex i →
      (((s.sync.renew (.joinsem i) 0).renew (.exitsem i) 0).renew (.mutex i) 1).sems r =
        s.sync.sems r := fun r h₁ h₂ h₃ => by
    rw [Sync.renew_ne _ _ h₃, Sync.renew_ne _ _ h₂, Sync.renew_ne _ _ h₁]
  have hjv : ∀ j, j ≠ i → State.joinValue { s with sync :=
      ((s.sync.renew (.joinsem i) 0).renew (.exitsem i) 0).renew (.mutex i) 1 } j =
        s.joinValue j := fun j hj =>
    congrArg Semaphore.value (hsems _ (by simpa using hj) (by simp) (by simp))
  have hxv : ∀ j, j ≠ i → State.exitValue { s with sync :=
      ((s.sync.renew (.joinsem i) 0).renew (.exitsem i) 0).renew (.mutex i) 1 } j =
        s.exitValue j := fun j hj =>
    congrArg Semaphore.value (hsems _ (by simp) (by simpa using hj) (by simp))
  have hok : (((s.sync.renew (.joinsem i) 0).renew (.exitsem i) 0).renew (.mutex i) 1).Ok
      s.waits := by
    refine ((h.sync.renew (hq _ (.inl rfl)) 0).renew ?_ 0).renew ?_ 1
    · rw [Sync.renew_ne _ _ (by simp)]; exact hq _ (.inr (.inl rfl))
    · rw [Sync.renew_ne _ _ (by simp), Sync.renew_ne _ _ (by simp)]
      exact hq _ (.inr (.inr rfl))
  have hslot : ∀ p j b, s.table.pcb j = some b → b.thread = some p → j ≠ i := by
    rintro p j b hb hp rfl
    obtain ⟨h₁, h₂, -⟩ := h.table.slot j b p hb hp
    exact h₂ (hno p h₁)
  refine ⟨h.table, h.self, h.exitPar, hok, h.fresh, fun t k q ht => ?_, fun p j b hb hp => ?_,
    fun p j b hb hp => ?_⟩
  · have hk : k ≠ i := fun e => hnb t q (e ▸ ht)
    rw [hjv k hk, hxv k hk]
    exact h.newSems t k q ht
  · exact (h.join p j b hb hp).frame rfl (fun _ => rfl) (hjv j (hslot p j b hb hp)) rfl rfl
      (fun _ hx => ⟨hx, rfl⟩) fun _ _ hx => ⟨hx, rfl⟩
  · exact (h.exit p j b hb hp).frame rfl (fun _ => rfl) (hxv j (hslot p j b hb hp)) rfl
      fun _ _ _ _ => Iff.rfl

/-- `pcb[pid] = new PCB();` -/
theorem Inv.newPCB {f : Name} {bm : BitMap MAX_PROCESS} {par : Option Pid} (h : Inv s)
    (hs : s.sync.status t = .ready) (hrun : s.ph t = .running) (hc : (s.pc t).waiting = false)
    (hr : (s.pc t).released = false) (hi : s.table.bm.test i = false)
    (hbm : ∀ k, bm.test k = (decide (k = i) || s.table.bm.test k))
    (hpar : par = s.table.pidOf t) (h0 : par = none → i = 0) :
    Inv (s.newPCB t f bm i par) := by
  have h₁ := h.renew hi
  have hne : ∀ p j b, s.table.pcb j = some b → b.thread = some p → j ≠ i := by
    rintro p j b hb hp rfl
    obtain ⟨h₁, h₂, -⟩ := h.table.slot j b p hb hp
    rw [(h.table.bit j).mpr (.inl ⟨p, h₁, h₂⟩)] at hi
    cases hi
  have hT := h.table.start hrun hi hpar h0 hbm (Function.update_apply s.table.pcb i (some PCB.new))
    (fun u => ph_goto s t (.execMutex f i par) u)
  refine h₁.ofGoto rfl rfl hs hT hc rfl (fun j hj => by cases hj)
    (fun q hq => by cases hq) (fun hrel => ?_) (fun hp => ?_) (fun k q hk => .inr ?_) rfl rfl
    (fun p j b hb hp => ?_) (fun p _ _ _ _ => ?_)
  · rw [show (s.pc t).released = true from hrel] at hr; cases hr
  · replace hp : (s.ph t).past = true := hp
    rw [hrun] at hp
    cases hp
  · cases hk
    simp [State.joinValue, State.exitValue, Sync.renew_ne]
  · rcases Table.setPcb_cases hb with ⟨rfl, rfl⟩ | ⟨-, hb⟩
    · cases hp
    · exact .inl ⟨b, hb, hp, rfl, rfl, rfl⟩
  · exact iff_of_eq (congrArg (· = ∅) (undec_goto (s := s) (by rw [hrun]; rfl)))

/-- A thread that has not been made does not sleep. -/
theorem Inv.awake_of_sem (h : Inv s) (hp : (s.pc t).sem = none) : s.sync.status t ≠ .blocked := by
  intro hb
  obtain ⟨r, hr⟩ := h.sync.asleep t hb
  rw [State.waits, hp] at hr
  cases hr

/-- `new Thread(fileName)`, in a slot under construction. -/
theorem Inv.newThread {f : Name} {par : Option Pid} (h : Inv s) (hs : s.sync.status t = .ready)
    (hpc : s.pc t = .execLocked f i par) (hth : b.thread = some s.table.nextTid)
    (hparent : b.parentID = par) (hnum : b.numwait = 0) (hid : b.joinID = none)
    (hex : b.isExit = false) :
    Inv (((s.newThread t f i par).setPcb i b).goto t (.execAddrLock i par)) := by
  have hb : s.ph t = .building i par := by rw [State.ph, hpc]; rfl
  have hunborn : s.ph s.table.nextTid = .unborn := (h.table.unborn _).mpr (le_refl _)
  have hun : s.pc s.table.nextTid = .unborn := h.pc_unborn rfl
  have hne : t ≠ s.table.nextTid := fun e => by rw [e, hunborn] at hb; cases hb
  have hnopid : s.table.pidOf s.table.nextTid = none := (h.table.noPid _).mpr (.inr (le_refl _))
  -- two threads change: the caller, and the one that did not exist
  have hph : ∀ u, (((s.newThread t f i par).setPcb i b).goto t (.execAddrLock i par)).ph u =
      if u = t then .hatching i par else if u = s.table.nextTid then .created else s.ph u :=
    fun u => by
      rw [ph_goto]
      split
      · rfl
      · exact ph_goto _ s.table.nextTid .created u
  have hT := h.table.create (b := b) hb hth
    (Function.update_apply s.table.pcb i (some b))
    (Function.update_apply s.table.pidOf s.table.nextTid (some i))
    (Function.update_apply s.table.parent s.table.nextTid (par.map fun _ => t)) hph hparent hnum
  have hpct : (((s.newThread t f i par).setPcb i b).goto t (.execAddrLock i par)).pc t =
      .execAddrLock i par := goto_pc_self ..
  have hpcc : (((s.newThread t f i par).setPcb i b).goto t (.execAddrLock i par)).pc
      s.table.nextTid = .created := by
    rw [goto_pc_ne _ _ hne.symm]
    exact goto_pc_self ..
  refine h.of hT rfl (fun u => ?_) (fun p j d hd hp => ?_) (fun u hu => ?_)
    (fun p x hw hx => ?_) (fun p _ _ _ hw => ?_)
  · by_cases e : u = t
    · subst e
      have hst : (((s.newThread u f i par).setPcb i b).goto u
          (.execAddrLock i par)).sync.status u = .ready :=
        (Function.update_of_ne hne _ _).trans hs
      refine .inr ⟨?_, ?_, ?_, ?_, ?_, ?_, ?_, ?_, ?_, ?_⟩
      · rw [hs]; decide
      · rw [hst]; decide
      · rw [hpc]; rfl
      · rw [hpct]; rfl
      · rw [hpct]; rintro k ⟨⟩
      · rw [hpct]; rintro k ⟨⟩
      · rw [hpc]; rintro ⟨⟩
      · rw [hb]; rintro ⟨⟩
      · rw [hph, if_pos rfl]; rintro k q ⟨⟩
      · rw [hst]; rintro ⟨⟩
    · by_cases ec : u = s.table.nextTid
      · subst ec
        have hst : (((s.newThread t f i par).setPcb i b).goto t
            (.execAddrLock i par)).sync.status s.table.nextTid = .justCreated :=
          Function.update_self ..
        refine .inr ⟨h.awake_of_sem (by rw [hun]; rfl), ?_, ?_, ?_, ?_, ?_, ?_, ?_, ?_, ?_⟩
        · rw [hst]; decide
        · rw [hun]; rfl
        · rw [hpcc]; rfl
        · rw [hpcc]; rintro k ⟨⟩
        · rw [hpcc]; rintro k ⟨⟩
        · rw [hun]; rintro ⟨⟩
        · rw [hunborn]; rintro ⟨⟩
        · rw [hph, if_neg e, if_pos rfl]; rintro k q ⟨⟩
        · rw [hph, if_neg e, if_pos rfl]; exact fun _ => .inr rfl
      · refine .inl ⟨?_, Function.update_of_ne ec _ _⟩
        rw [goto_pc_ne _ _ e]
        exact goto_pc_ne _ _ ec
  · rcases Table.setPcb_cases hd with ⟨rfl, rfl⟩ | ⟨-, hd⟩
    · obtain ⟨h₁, h₂⟩ := h.newSems t j par hb
      rw [hth] at hp
      cases hp
      exact .inr ⟨hid, hex, h₁, h₂, by rw [hpcc]; rfl⟩
    · exact .inl ⟨d, hd, hp, rfl, rfl, rfl⟩
  · have e : u ≠ s.table.nextTid := fun e => hu (e ▸ hnopid)
    exact ⟨Function.update_of_ne e _ _, Function.update_of_ne e _ _⟩
  · -- a joiner is not the caller, so the new thread is none of its children
    have hpt : p ≠ t := fun e => by rw [e, hpc] at hw; cases hw
    have e : x ≠ s.table.nextTid := by
      rintro rfl
      replace hx : Function.update s.table.parent s.table.nextTid (par.map fun _ => t)
        s.table.nextTid = some p := hx
      rw [Function.update_self] at hx
      cases par with
      | none => cases hx
      | some k => exact hpt (Option.some.inj hx).symm
    replace hx : Function.update s.table.parent s.table.nextTid (par.map fun _ => t) x =
      some p := hx
    rw [Function.update_of_ne e] at hx
    exact ⟨hx, Function.update_of_ne e _ _⟩
  · have hpt : p ≠ t := fun e => by rw [e, hpc] at hw; cases hw
    have := h.table.undec_create (U := ((s.newThread t f i par).setPcb i b).table) (p := p) rfl hb
      (Function.update_apply s.table.parent s.table.nextTid _) hph
    rw [if_neg fun e => hpt e.2] at this
    exact iff_of_eq (congrArg (· = ∅) this)

/-- The slot of a `PCB::Exec` that returned `-1` is given up. -/
theorem Inv.fail {par : Option Pid} (h : Inv s) (hs : s.sync.status t = .ready)
    (hpc : s.pc t = .execFailed i par) :
    Inv ({ s with table := { s.table with bm := s.table.bm.clear i } }.goto t (.execRet (-1))) := by
  have hb : s.ph t = .building i par := by rw [State.ph, hpc]; rfl
  refine h.ofGoto rfl rfl hs ?_ (by rw [hpc]; rfl) rfl (fun j hj => by cases hj)
    (fun q hq => by cases hq) (fun hr => ?_) (fun hp => ?_) (fun k q hk => by cases hk) rfl rfl
    (fun p j d hd hp => .inl ⟨d, hd, hp, rfl, rfl, rfl⟩) (fun p _ _ _ _ => ?_)
  · exact h.table.fail hb (fun k => BitMap.test_clear _ _ _) fun u => ph_goto _ _ _ _
  · rw [hpc] at hr; cases hr
  · rw [hb] at hp; cases hp
  · exact iff_of_eq (congrArg (· = ∅) (undec_goto (s := s) (by rw [hb]; rfl)))

/-- The maker `t` of a thread `c` and `c` itself go on, `c` awake for the first time. -/
theorem Inv.hatch {par : Option Pid} {q w : PC} (h : Inv s) (hs : s.sync.status t = .ready)
    (hpc : s.pc t = .execBuilt i par) (hb : s.table.pcb i = some b) (hc : b.thread = some c)
    (hpcs : s'.pc = Function.update (Function.update s.pc c q) t w) (htab : s'.table = s.table)
    (hsync : s'.sync = { s.sync with status := Function.update s.sync.status c .ready })
    (hT : TInv s'.table s'.ph)
    (hq : ∀ r, r = q ∨ r = w → r.handshake = false ∧ r.self = none ∧ r.exitPar = none ∧
      ∀ i x, r.phase ≠ .building i x)
    (hqc : q.phase.undec = true)
    (hundec : ∀ p, s.table.parent t = some p → w.phase.undec = true) : Inv s' := by
  have ht : s.ph t = .hatching i par := by rw [State.ph, hpc]; rfl
  have h₁ := (h.table.hatching_thread ht hb hc).1
  have hcreated : s.pc c = .created := h.pc_created hpc hb hc
  have hne : c ≠ t := fun e => by rw [e, ht] at h₁; cases h₁
  have hpct : s'.pc t = w := by rw [hpcs, Function.update_self]
  have hpcc : s'.pc c = q := by rw [hpcs, Function.update_of_ne hne, Function.update_self]
  have hpcu : ∀ u, u ≠ t → u ≠ c → s'.pc u = s.pc u := fun u hu hu' => by
    rw [hpcs, Function.update_of_ne hu, Function.update_of_ne hu']
  have hst : s'.sync.status t = .ready := by
    rw [hsync]
    exact (Function.update_of_ne hne.symm _ _).trans hs
  have hsc : s'.sync.status c = .ready := by rw [hsync]; exact Function.update_self ..
  refine h.of hT (by rw [hsync]) (fun u => ?_) (fun p j d hd hp => ?_) (fun u _ => ?_)
    (fun p x _ hx => ?_) (fun p _ _ _ _ => ?_)
  · by_cases e : u = t
    · subst e
      obtain ⟨g₁, g₂, g₃, g₄⟩ := hq w (.inr rfl)
      refine .inr ⟨?_, ?_, ?_, ?_, ?_, ?_, ?_, ?_, ?_, ?_⟩
      · rw [hs]; decide
      · rw [hst]; decide
      · rw [hpc]; rfl
      · rw [hpct]; exact g₁
      · rw [hpct, g₂]; rintro k ⟨⟩
      · rw [hpct, g₃]; rintro k ⟨⟩
      · rw [hpc]; rintro ⟨⟩
      · rw [ht]; rintro ⟨⟩
      · rw [State.ph, hpct]; exact fun k r hk => absurd hk (g₄ k r)
      · rw [hst]; rintro ⟨⟩
    · by_cases ec : u = c
      · subst ec
        obtain ⟨g₁, g₂, g₃, g₄⟩ := hq q (.inl rfl)
        refine .inr ⟨h.awake_of_sem (by rw [hcreated]; rfl), ?_, ?_, ?_, ?_, ?_, ?_, ?_, ?_, ?_⟩
        · rw [hsc]; decide
        · rw [hcreated]; rfl
        · rw [hpcc]; exact g₁
        · rw [hpcc, g₂]; rintro k ⟨⟩
        · rw [hpcc, g₃]; rintro k ⟨⟩
        · rw [hcreated]; rintro ⟨⟩
        · rw [h₁]; rintro ⟨⟩
        · rw [State.ph, hpcc]; exact fun k r hk => absurd hk (g₄ k r)
        · rw [hsc]; rintro ⟨⟩
      · refine .inl ⟨hpcu u e ec, ?_⟩
        rw [hsync]
        exact Function.update_of_ne ec _ _
  · exact .inl ⟨d, htab ▸ hd, hp, rfl, rfl, rfl⟩
  · rw [htab]; exact ⟨rfl, rfl⟩
  · rw [htab] at hx ⊢; exact ⟨hx, rfl⟩
  · -- both were counted before, and still are
    have : s'.undec p = s.undec p := TInv.undec_congr (by rw [htab]) (by rw [htab])
      fun x hx => by
        by_cases e : x = t
        · rw [e] at hx ⊢
          rw [State.ph, hpct, hundec p hx, ht]
          rfl
        · by_cases ec : x = c
          · rw [ec, State.ph, hpcc, hqc, h₁]; rfl
          · rw [State.ph, State.ph, hpcu x e ec]
    rw [this]

/-- `Fork`. -/
theorem Inv.fork (h : Inv s) (hs : s.sync.status t = .ready)
    (hpc : s.pc t = .execBuilt i (some j)) (hb : s.table.pcb i = some b) (hc : b.thread = some c) :
    Inv (((s.wake c).goto c .user).goto t (.execForked i (some j))) := by
  have ht : s.ph t = .hatching i (some j) := by rw [State.ph, hpc]; rfl
  refine h.hatch (q := .user) (w := .execForked i (some j)) hs hpc hb hc rfl rfl rfl ?_ ?_ rfl
    fun _ _ => rfl
  · refine h.table.fork ht hb hc fun u => ?_
    rw [ph_goto]
    split
    · rfl
    · exact ph_goto _ c .user u
  · rintro r (rfl | rfl) <;> exact ⟨rfl, rfl, rfl, fun _ _ e => by cases e⟩

/-- The root takes the place of the main thread. -/
theorem Inv.takeOver (h : Inv s) (hs : s.sync.status t = .ready)
    (hpc : s.pc t = .execBuilt i none) (hb : s.table.pcb i = some b) (hc : b.thread = some c) :
    Inv (((s.wake c).goto t .gone).goto c (.execUnlocked i none)) := by
  have ht : s.ph t = .hatching i none := by rw [State.ph, hpc]; rfl
  have hne : c ≠ t := fun e => by
    have := (h.table.hatching_thread ht hb hc).1
    rw [e, ht] at this
    cases this
  refine h.hatch (q := .execUnlocked i none) (w := .gone) hs hpc hb hc
    (Function.update_comm hne.symm _ _ _) rfl rfl ?_ ?_ rfl ?_
  · refine h.table.takeOver ht hb hc fun u => ?_
    rw [ph_goto]
    split
    · rfl
    · exact ph_goto _ t .gone u
  · rintro r (rfl | rfl) <;> exact ⟨rfl, rfl, rfl, fun _ _ e => by cases e⟩
  · intro p hp
    exact absurd (h.table.hatching t i none ht).1.symm (h.table.parent t p hp).1

/-- The root's `ExecUpdate` ends. -/
theorem Inv.bootInc (h : Inv s) (hs : s.sync.status t = .ready)
    (hpc : s.pc t = .execUnlocked i none) : Inv (s.goto t .bootRet) := by
  have ht : s.ph t = .hatched none := by rw [State.ph, hpc]; rfl
  refine h.ofGoto rfl rfl hs (h.table.bootRet ht fun u => ph_goto _ _ _ _) (by rw [hpc]; rfl) rfl
    (fun j hj => by cases hj) (fun q hq => by cases hq) (fun hr => ?_) (fun hp => ?_)
    (fun k q hk => by cases hk) rfl rfl
    (fun p j d hd hp => .inl ⟨d, hd, hp, rfl, rfl, rfl⟩) (fun p _ _ _ _ => ?_)
  · rw [hpc] at hr; cases hr
  · rw [ht] at hp; cases hp
  · rw [undec_goto (by rw [ht]; rfl)]

/-- `IncNumWait`. -/
theorem Inv.inc (h : Inv s) (hs : s.sync.status t = .ready)
    (hpc : s.pc t = .execUnlocked i (some j)) (hb : s.table.pcb j = some b) :
    Inv ((s.setPcb j { b with numwait := b.numwait + 1 }).goto t (.execRet i.val)) := by
  have ht : s.ph t = .hatched (some j) := by rw [State.ph, hpc]; rfl
  refine h.ofGoto rfl rfl hs (h.table.inc ht hb fun u => ph_goto _ _ _ _) (by rw [hpc]; rfl) rfl
    (fun j hj => by cases hj) (fun q hq => by cases hq) (fun hr => ?_) (fun hp => ?_)
    (fun k q hk => by cases hk) rfl rfl (fun p k d hd hp => ?_)
    (fun p _ _ _ _ => iff_of_eq (congrArg (· = ∅) (undec_goto (s := s) (by rw [ht]; rfl))))
  · rw [hpc] at hr; cases hr
  · rw [ht] at hp; cases hp
  · rcases Table.setPcb_cases hd with ⟨rfl, rfl⟩ | ⟨-, hd⟩
    · exact .inl ⟨b, hb, hp, rfl, rfl, rfl⟩
    · exact .inl ⟨d, hd, hp, rfl, rfl, rfl⟩

end

end Nachos.Proc
