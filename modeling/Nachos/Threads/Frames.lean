import Nachos.Lib.Owned
import Nachos.Threads.ProcessTable

/-!
# Threads — the frames of the processes

`gPhysPageBitMap` and the page tables of the live address spaces: every frame that is marked is in
one page table, once.  Frames are taken in the constructor of `AddrSpace`, for a thread that has
none yet, and given back in its destructor, at the end of `ExitUpdate`; a call of `ExecUpdate` that
fails has not come to the constructor.
-/

namespace Nachos.Proc
open Lib

namespace PC

/-- The slot whose thread a `PCB::Exec` has made and not given its address space. -/
def making : PC → Option Pid
  | execAddrLock pid _ | execSpace pid _ => some pid
  | _ => none

/-- The slot whose thread a `PCB::Exec` has given its address space and not forked. -/
def made : PC → Option Pid
  | execBuilt pid _ => some pid
  | _ => none

theorem phase_of_making {pc : PC} {i : Pid} (h : pc.making = some i) :
    ∃ q, pc.phase = .hatching i q := by
  cases pc <;> simp_all [making, phase]

theorem phase_of_made {pc : PC} {i : Pid} (h : pc.made = some i) :
    ∃ q, pc.phase = .hatching i q := by
  cases pc <;> simp_all [made, phase]

/-- A `P` that passes leads from one place of a live thread to another. -/
theorem afterP_live {pc : PC} {r : SemRef} (h : pc.sem = some r) :
    (∀ i, pc.afterP.making = some i → pc.making = some i) ∧ pc.afterP.made = none ∧
      (pc.phase ≠ .created ∧ pc.phase ≠ .dead) ∧ pc.afterP.phase ≠ .dead := by
  cases pc <;> simp_all [sem, making, made, afterP, phase]

end PC

/-- Which threads have an address space, and the frames of these. -/
structure FrameInv (s : State) : Prop where
  owned : Owned (Marked s.gPhysPageBitMap) s.frames
  noPid : ∀ t, s.table.pidOf t = none → s.spaces t = none
  dead : ∀ t, s.ph t = .dead → s.spaces t = none
  making : ∀ t i c, (s.pc t).making = some i → s.holder i = some c → s.spaces c = none
  made : ∀ t i c, (s.pc t).made = some i → s.holder i = some c → s.spaces c ≠ none
  live : ∀ t, s.table.pidOf t ≠ none → s.ph t ≠ .created → s.ph t ≠ .dead → s.spaces t ≠ none

section
variable {s s' : State} {t p c : Tid} {i j : Pid} {b b' : PCB} {o : Input}

/-- A piece that moves its thread, and no other, between places of a live thread. -/
theorem FrameInv.goto {q : PC} (h : FrameInv s) (hpc : s'.pc = Function.update s.pc t q)
    (hphys : s'.gPhysPageBitMap = s.gPhysPageBitMap) (hsp : s'.spaces = s.spaces)
    (hpid : s'.table.pidOf = s.table.pidOf)
    (hhold : ∀ i c, s'.holder i = some c → s.holder i = some c)
    (hmaking : ∀ i, q.making = some i → (s.pc t).making = some i) (hmade : q.made = none)
    (ht : s.ph t ≠ .created ∧ s.ph t ≠ .dead) (hq : q.phase ≠ .dead) : FrameInv s' := by
  have hpct : s'.pc t = q := by rw [hpc, Function.update_self]
  have hpcu : ∀ u, u ≠ t → s'.pc u = s.pc u := fun u hu => by rw [hpc, Function.update_of_ne hu]
  have hframes : s'.frames = s.frames := by funext u; rw [State.frames, State.frames, hsp]
  refine ⟨by rw [hphys, hframes]; exact h.owned, fun u hu => ?_, fun u hu => ?_,
    fun u i c hu hc => ?_, fun u i c hu hc => ?_, fun u hu h₁ h₂ => ?_⟩ <;> rw [hsp]
  · exact h.noPid u (hpid ▸ hu)
  · have e : u ≠ t := by rintro rfl; rw [State.ph, hpct] at hu; exact hq hu
    exact h.dead u (by rw [State.ph, ← hpcu u e]; exact hu)
  · by_cases e : u = t
    · subst e
      exact h.making u i c (hmaking i (hpct ▸ hu)) (hhold i c hc)
    · exact h.making u i c (hpcu u e ▸ hu) (hhold i c hc)
  · have e : u ≠ t := by rintro rfl; rw [hpct, hmade] at hu; cases hu
    exact h.made u i c (hpcu u e ▸ hu) (hhold i c hc)
  · rw [hpid] at hu
    by_cases e : u = t
    · subst e; exact h.live u hu ht.1 ht.2
    · rw [State.ph, hpcu u e] at h₁ h₂
      exact h.live u hu h₁ h₂

/-- What the invariant does not read. -/
theorem FrameInv.congr (h : FrameInv s) (hpc : s'.pc = s.pc) (htab : s'.table = s.table)
    (hphys : s'.gPhysPageBitMap = s.gPhysPageBitMap)
    (hframes : s'.frames = s.frames) : FrameInv s' := by
  have hsp : ∀ u, s'.spaces u = none ↔ s.spaces u = none := fun u => by
    have := congrFun hframes u
    unfold State.frames at this
    rw [← Option.map_eq_none_iff (f := AddrSpace.frames), this, Option.map_eq_none_iff]
  have hhold : ∀ i, s'.holder i = s.holder i := fun i => by rw [State.holder, htab]; rfl
  have hph : ∀ u, s'.ph u = s.ph u := fun u => by rw [State.ph, hpc]; rfl
  refine ⟨by rw [hphys, hframes]; exact h.owned, fun u hu => ?_, fun u hu => ?_,
    fun u i c hu hc => ?_, fun u i c hu hc => ?_, fun u hu h₁ h₂ => ?_⟩ <;>
    first | rw [hsp] | rw [ne_eq, hsp]
  · exact h.noPid u (htab ▸ hu)
  · exact h.dead u (hph u ▸ hu)
  · exact h.making u i c (hpc ▸ hu) (hhold i ▸ hc)
  · exact h.made u i c (hpc ▸ hu) (hhold i ▸ hc)
  · rw [hph] at h₁ h₂
    exact h.live u (htab ▸ hu) h₁ h₂

theorem FrameInv.P (h : FrameInv s) : FrameInv (s.P t) := by
  rcases P_pc s t with e | e
  · exact h.congr e (P_table s t) (P_gPhysPageBitMap s t) (by
      funext u; rw [State.frames, State.frames, P_spaces])
  · cases hsem : (s.pc t).sem with
    | none => rw [P_none hsem]; exact h
    | some r =>
        obtain ⟨h₁, h₂, h₃, h₄⟩ := PC.afterP_live hsem
        exact h.goto e (P_gPhysPageBitMap s t) (P_spaces s t) (by rw [P_table])
          (fun i c hc => by rwa [State.holder, P_table] at hc) h₁ h₂ h₃ h₄

/-- A write to a PCB that keeps its thread does not change who is where. -/
theorem holder_setPcb {x : State} (hx : x.table = s.table.setPcb j b') (hb : s.table.pcb j = some b)
    (hth : b'.thread = b.thread) : ∀ i c, x.holder i = some c → s.holder i = some c := by
  intro i c hc
  rw [State.holder, hx] at hc
  by_cases e : i = j
  · subst e
    rw [State.holder, hb]
    simpa [← hth] using hc
  · rw [State.holder]
    simpa [Function.update_of_ne e] using hc

/-- `new Thread(fileName)`: the thread has no address space yet. -/
theorem FrameInv.newThread {f : Name} {par : Option Pid} (h : FrameInv s) (hI : Inv s)
    (hpc : s.pc t = .execLocked f i par) (hth : b.thread = some s.table.nextTid) :
    FrameInv (((s.newThread t f i par).setPcb i b).goto t (.execAddrLock i par)) := by
  have hun := hI.pc_unborn (u := s.table.nextTid) rfl
  have hnew : s.spaces s.table.nextTid = none :=
    h.noPid _ ((hI.table.noPid _).mpr (.inr (le_refl _)))
  have hb := (hI.table.building t i par (by rw [State.ph, hpc]; rfl)).1
  have hne : t ≠ s.table.nextTid := fun e => by rw [e, hun] at hpc; cases hpc
  generalize hs' : State.goto _ t _ = s'
  have hpcs : ∀ u, s'.pc u = if u = t then .execAddrLock i par else
      if u = s.table.nextTid then .created else s.pc u := fun u => by
    rw [← hs']
    by_cases e : u = t
    · rw [if_pos e, e, goto_pc_self]
    · rw [if_neg e, goto_pc_ne _ _ e]
      exact Function.update_apply ..
  have hpid : s'.table.pidOf = Function.update s.table.pidOf s.table.nextTid (some i) := by
    rw [← hs']; rfl
  have hhold : ∀ k, s'.holder k = if k = i then some s.table.nextTid else s.holder k := fun k => by
    rw [← hs']
    show (Function.update s.table.pcb i (some b) k).bind PCB.thread = _
    by_cases e : k = i
    · rw [if_pos e, e, Function.update_self]; exact hth
    · rw [if_neg e, Function.update_of_ne e]; rfl
  have hsp : s'.spaces = s.spaces := by rw [← hs']; rfl
  have hown : Owned (Marked s'.gPhysPageBitMap) s'.frames := by rw [← hs']; exact h.owned
  clear hs'
  refine ⟨hown, fun u hu => ?_, fun u hu => ?_, fun u k c hu hc => ?_, fun u k c hu hc => ?_,
    fun u hu h₁ h₂ => ?_⟩ <;> rw [hsp]
  -- only the new thread and its slot differ, and the new thread has no space
  · by_cases e : u = s.table.nextTid
    · rw [e, hnew]
    · rw [hpid, Function.update_of_ne e] at hu
      exact h.noPid u hu
  · rw [State.ph, hpcs] at hu
    split at hu
    · cases hu
    split at hu
    · cases hu
    · exact h.dead u hu
  · rw [hhold] at hc
    split at hc
    · cases hc; exact hnew
    · rename_i hk
      rw [hpcs] at hu
      split at hu
      · cases hu; exact absurd rfl hk
      split at hu
      · cases hu
      · exact h.making u k c hu hc
  · rw [hpcs] at hu
    split at hu
    · cases hu
    split at hu
    · cases hu
    rw [hhold] at hc
    split at hc
    · -- a slot under construction is not the one of a thread that waits to be forked
      rename_i hk
      subst hk
      obtain ⟨q, hq⟩ := PC.phase_of_made hu
      obtain ⟨d, x, hd, hx⟩ := hI.hatching_slot hq
      rw [hb] at hd
      cases hd
      cases hx
    · exact h.made u k c hu hc
  · rw [State.ph, hpcs] at h₁ h₂
    have hu' : u ≠ s.table.nextTid := by
      rintro rfl
      rw [if_neg hne.symm, if_pos rfl] at h₁
      exact h₁ rfl
    rw [hpid, Function.update_of_ne hu'] at hu
    by_cases e : u = t
    · subst e
      refine h.live u hu ?_ ?_ <;> rw [State.ph, hpc] <;> simp [PC.phase]
    · rw [if_neg e, if_neg hu'] at h₁ h₂
      exact h.live u hu h₁ h₂

/-- `new AddrSpace(executable)`: the thread of the slot takes frames that nobody has. -/
theorem FrameInv.space {par : Option Pid} {exe : Executable} {sp : AddrSpace}
    {phys : BitMap NumPhysPages} (h : FrameInv s) (hI : Inv s) (hpc : s.pc t = .execSpace i par)
    (hb : s.table.pcb i = some b) (hc : b.thread = some c)
    (hbuild : AddrSpace.build exe s.gPhysPageBitMap = .ok (sp, phys)) :
    FrameInv ({ s with
      gPhysPageBitMap := phys
      spaces := Function.update s.spaces c (some sp) }.goto t (.execBuilt i par)) := by
  have ht : s.ph t = .hatching i par := by rw [State.ph, hpc]; rfl
  have hhold : s.holder i = some c := by rw [State.holder, hb]; exact hc
  have hnone : s.spaces c = none := h.making t i c (by rw [hpc]; rfl) hhold
  obtain ⟨hcr, hpidc, hparc⟩ := hI.table.hatching_thread ht hb hc
  obtain ⟨-, hnd, hfree, hmark⟩ := build_spec hbuild
  generalize hs' : State.goto _ t _ = s'
  have hpcs : s'.pc = Function.update s.pc t (.execBuilt i par) := by rw [← hs']; rfl
  have htab : s'.table = s.table := by rw [← hs']; rfl
  have hsp : s'.spaces = Function.update s.spaces c (some sp) := by rw [← hs']; rfl
  have hphys : s'.gPhysPageBitMap = phys := by rw [← hs']; rfl
  clear hs'
  have hframes : s'.frames = Function.update s.frames c (some sp.frames) := by
    funext u
    rw [State.frames, hsp]
    by_cases e : u = c
    · rw [e, Function.update_self, Function.update_self]; rfl
    · rw [Function.update_of_ne e, Function.update_of_ne e]; rfl
  have hhold' : ∀ k, s'.holder k = s.holder k := fun k => by rw [State.holder, htab]; rfl
  -- the thread that waits to be forked is in no other slot
  have hone : ∀ u k, s'.holder k = some u → u = c → k = i := by
    rintro u k hk rfl
    rw [hhold'] at hk
    have := (hI.pid_of_holder hk).1
    rw [hpidc] at this
    exact (Option.some.inj this).symm
  have huniq : ∀ u q, s.ph u = .hatching i q → u = t := fun u q hq =>
    (hI.table.hatching_unique ht hq hparc (hI.table.hatching_thread hq hb hc).2.2).symm
  refine ⟨?_, fun u hu => ?_, fun u hu => ?_, fun u k d hu hd => ?_, fun u k d hu hd => ?_,
    fun u hu h₁ h₂ => ?_⟩
  · rw [hphys, hframes]
    exact h.owned.take (by rw [State.frames, hnone]; rfl) hnd hfree hmark
  all_goals rw [hsp]
  · have e : u ≠ c := by rintro rfl; rw [htab, hpidc] at hu; cases hu
    rw [Function.update_of_ne e]
    exact h.noPid u (htab ▸ hu)
  · have et : u ≠ t := by
      rintro rfl
      rw [State.ph, hpcs, Function.update_self] at hu
      cases hu
    rw [State.ph, hpcs, Function.update_of_ne et] at hu
    have e : u ≠ c := by
      rintro rfl
      rw [show s.ph u = .dead from hu] at hcr
      cases hcr
    rw [Function.update_of_ne e]
    exact h.dead u hu
  · have et : u ≠ t := by
      rintro rfl
      rw [hpcs, Function.update_self] at hu
      cases hu
    rw [hpcs, Function.update_of_ne et] at hu
    have e : d ≠ c := fun e => by
      obtain rfl := hone d k hd e
      refine et ?_
      obtain ⟨q, hq⟩ := PC.phase_of_making hu
      exact huniq u q hq
    rw [Function.update_of_ne e]
    exact h.making u k d hu (hhold' k ▸ hd)
  · by_cases e : d = c
    · rw [e, Function.update_self]; simp
    · rw [Function.update_of_ne e]
      have et : u ≠ t := by
        rintro rfl
        rw [hpcs, Function.update_self] at hu
        cases hu
        rw [hhold', hhold] at hd
        exact e (Option.some.inj hd).symm
      rw [hpcs, Function.update_of_ne et] at hu
      exact h.made u k d hu (hhold' k ▸ hd)
  · by_cases e : u = c
    · rw [e, Function.update_self]; simp
    · rw [Function.update_of_ne e]
      rw [htab] at hu
      by_cases et : u = t
      · subst et
        refine h.live u hu ?_ ?_ <;> rw [ht] <;> simp
      · rw [State.ph, hpcs, Function.update_of_ne et] at h₁ h₂
        exact h.live u hu h₁ h₂

/-- The maker of a thread and the thread go their ways. -/
theorem FrameInv.hatch {par : Option Pid} {q w : PC} (h : FrameInv s)
    (hpc : s.pc t = .execBuilt i par) (hb : s.table.pcb i = some b)
    (hc : b.thread = some c) (hpcs : s'.pc = Function.update (Function.update s.pc c q) t w)
    (htab : s'.table = s.table) (hsp : s'.spaces = s.spaces)
    (hphys : s'.gPhysPageBitMap = s.gPhysPageBitMap)
    (hq : ∀ r, r = q ∨ r = w → r.making = none ∧ r.made = none) (hdead : q.phase ≠ .dead)
    (hdead' : w.phase = .dead → s.table.pidOf t = none) : FrameInv s' := by
  have hpcu : ∀ u, s'.pc u = if u = t then w else if u = c then q else s.pc u := fun u => by
    rw [hpcs, Function.update_apply, Function.update_apply]
  have hhold : ∀ k, s'.holder k = s.holder k := fun k => by rw [State.holder, htab]; rfl
  have hframes : s'.frames = s.frames := by funext u; rw [State.frames, State.frames, hsp]
  refine ⟨by rw [hphys, hframes]; exact h.owned, fun u hu => ?_, fun u hu => ?_,
    fun u k d hu hd => ?_, fun u k d hu hd => ?_, fun u hu h₁ h₂ => ?_⟩ <;> rw [hsp]
  · exact h.noPid u (htab ▸ hu)
  · rw [State.ph, hpcu] at hu
    split at hu
    · rename_i e; exact e ▸ h.noPid t (hdead' hu)
    split at hu
    · exact absurd hu hdead
    · exact h.dead u hu
  · rw [hpcu] at hu
    split at hu
    · rw [(hq w (.inr rfl)).1] at hu; cases hu
    split at hu
    · rw [(hq q (.inl rfl)).1] at hu; cases hu
    · exact h.making u k d hu (hhold k ▸ hd)
  · rw [hpcu] at hu
    split at hu
    · rw [(hq w (.inr rfl)).2] at hu; cases hu
    split at hu
    · rw [(hq q (.inl rfl)).2] at hu; cases hu
    · exact h.made u k d hu (hhold k ▸ hd)
  · rw [htab] at hu
    by_cases et : u = t
    · subst et
      refine h.live u hu ?_ ?_ <;> rw [State.ph, hpc] <;> simp [PC.phase]
    · by_cases ec : u = c
      · -- the thread was given its space before it was forked
        subst ec
        exact h.made t i u (by rw [hpc]; rfl) (by rw [State.holder, hb]; exact hc)
      · rw [State.ph, hpcu, if_neg et, if_neg ec] at h₁ h₂
        exact h.live u hu h₁ h₂

/-- `delete currentThread->space`: the frames are given back. -/
theorem FrameInv.exitReleased {ec : Int} (h : FrameInv s) (hI : Inv s)
    (hpc : s.pc t = .exitReleased ec j) : FrameInv (s.exitReleased t ec j) := by
  obtain ⟨hpid, hd, -⟩ := hI.own (t := t) (j := j) (by rw [hpc]; rfl)
  have hne : s.table.pidOf t ≠ none := by rw [hpid]; simp
  obtain ⟨sp, hsp⟩ := Option.ne_none_iff_exists'.mp
    (h.live t hne (by rw [State.ph, hpc]; simp [PC.phase]) hd)
  have hholdt : s.holder j = some t := hI.holder_eq hpid hd
  generalize hs' : State.exitReleased s t ec j = s'
  have hpcs : s'.pc = Function.update s.pc t (.done ec) := by rw [← hs']; rfl
  have hpidOf : s'.table.pidOf = s.table.pidOf := by rw [← hs']; rfl
  have hspaces : s'.spaces = Function.update s.spaces t none := by rw [← hs']; rfl
  have hphys : s'.gPhysPageBitMap = sp.free s.gPhysPageBitMap := by
    rw [← hs']
    show (s.spaces t).elim _ _ = _
    rw [hsp]
    rfl
  -- the slot of `t` is empty, and `t` is in no other
  have hhold : ∀ k d, s'.holder k = some d → s.holder k = some d ∧ d ≠ t := by
    intro k d hk
    rw [← hs'] at hk
    replace hk : (Function.update s.table.pcb j none k).bind PCB.thread = some d := hk
    by_cases e : k = j
    · rw [e, Function.update_self] at hk; cases hk
    · rw [Function.update_of_ne e] at hk
      refine ⟨hk, fun ed => e ?_⟩
      have := (hI.pid_of_holder hk).1
      rw [ed, hpid] at this
      exact (Option.some.inj this).symm
  clear hs'
  have hframes : s'.frames = Function.update s.frames t none := by
    funext u
    rw [State.frames, hspaces]
    by_cases e : u = t
    · rw [e, Function.update_self, Function.update_self]; rfl
    · rw [Function.update_of_ne e, Function.update_of_ne e]; rfl
  refine ⟨?_, fun u hu => ?_, fun u hu => ?_, fun u k d hu hd => ?_, fun u k d hu hd => ?_,
    fun u hu h₁ h₂ => ?_⟩
  · rw [hphys, hframes]
    exact h.owned.give (by rw [State.frames, hsp]; rfl) (marked_free sp _)
  all_goals rw [hspaces]
  · by_cases e : u = t
    · rw [e, Function.update_self]
    · rw [Function.update_of_ne e]; exact h.noPid u (hpidOf ▸ hu)
  · by_cases e : u = t
    · rw [e, Function.update_self]
    · rw [Function.update_of_ne e]
      rw [State.ph, hpcs, Function.update_of_ne e] at hu
      exact h.dead u hu
  · obtain ⟨hd', hdt⟩ := hhold k d hd
    rw [Function.update_of_ne hdt]
    have e : u ≠ t := by rintro rfl; rw [hpcs, Function.update_self] at hu; cases hu
    rw [hpcs, Function.update_of_ne e] at hu
    exact h.making u k d hu hd'
  · obtain ⟨hd', hdt⟩ := hhold k d hd
    rw [Function.update_of_ne hdt]
    have e : u ≠ t := by rintro rfl; rw [hpcs, Function.update_self] at hu; cases hu
    rw [hpcs, Function.update_of_ne e] at hu
    exact h.made u k d hu hd'
  · have e : u ≠ t := by
      rintro rfl
      rw [State.ph, hpcs, Function.update_self] at h₂
      exact h₂ rfl
    rw [Function.update_of_ne e]
    rw [State.ph, hpcs, Function.update_of_ne e] at h₁ h₂
    exact h.live u (hpidOf ▸ hu) h₁ h₂

/-! ### Every run -/

theorem piece_frames (hI : Inv s) (hp : Piece t o s s') (h : FrameInv s) : FrameInv s' := by
  have hat : ∀ {q}, s.pc t = q → q.phase ≠ .created → q.phase ≠ .dead →
      s.ph t ≠ .created ∧ s.ph t ≠ .dead := by
    rintro q rfl h₁ h₂; exact ⟨h₁, h₂⟩
  have hmove : ∀ {q q' : PC} {x : State}, s.pc t = q → q.phase ≠ .created → q.phase ≠ .dead →
      x.pc = Function.update s.pc t q' → x.gPhysPageBitMap = s.gPhysPageBitMap →
      x.spaces = s.spaces → x.table.pidOf = s.table.pidOf →
      (∀ i c, x.holder i = some c → s.holder i = some c) → q'.making = none → q'.made = none →
      q'.phase ≠ .dead → FrameInv x := fun hpc h₁ h₂ e₁ e₂ e₃ e₄ e₅ h₃ h₄ h₅ =>
    h.goto e₁ e₂ e₃ e₄ e₅ (fun i hi => by rw [h₃] at hi; cases hi) h₄ (hat hpc h₁ h₂) h₅
  cases hp with
  | halt | V => exact h.congr rfl rfl rfl rfl
  | @touch sp pageTable hmap hsp =>
      refine h.congr rfl rfl rfl ?_
      funext u
      by_cases e : u = t
      · subst e
        simp [State.frames, State.touch, hsp, frames_touch]
      · simp [State.frames, State.touch, e]
  | P => exact h.P
  | call hu | refused hu | pass hu =>
      exact hmove hu.2 (by simp [PC.phase]) (by simp [PC.phase]) rfl rfl rfl rfl (fun _ _ hc => hc)
        rfl rfl (by simp [PC.phase])
  | ret hpc | joinRet hpc | bootInc hpc | skip hpc | fail hpc =>
      exact hmove hpc (by simp [PC.phase]) (by simp [PC.phase]) rfl rfl rfl rfl (fun _ _ hc => hc)
        rfl rfl (by simp [PC.phase])
  | exec hq =>
      generalize hpc : s.pc t = pc at hq
      cases hq <;>
        exact hmove hpc (by simp [PC.phase]) (by simp [PC.phase]) rfl rfl rfl rfl
          (fun _ _ hc => hc) rfl rfl (by simp [PC.phase])
  | @newPCB f k par hpc =>
      refine hmove hpc (by simp [PC.phase]) (by simp [PC.phase]) rfl rfl rfl rfl (fun i c hc => ?_)
        rfl rfl (by simp [PC.phase])
      replace hc : (Function.update s.table.pcb k (some PCB.new) i).bind PCB.thread = some c := hc
      by_cases e : i = k
      · rw [e, Function.update_self] at hc; cases hc
      · rwa [Function.update_of_ne e] at hc
  | newThread hpc hth => exact h.newThread hI hpc hth
  | space hpc hb hc hbuild => exact h.space hI hpc hb hc hbuild
  | @fork i j c b hpc hb hc =>
      refine h.hatch (q := .user) (w := .execForked i (some j)) hpc hb hc rfl rfl rfl rfl ?_
        (by simp [PC.phase]) (by simp [PC.phase])
      rintro r (rfl | rfl) <;> exact ⟨rfl, rfl⟩
  | @takeOver i c b hpc hb hc =>
      have hne : c ≠ t := by
        rintro rfl
        rw [hI.pc_created hpc hb hc] at hpc
        cases hpc
      refine h.hatch (q := .execUnlocked i none) (w := .gone) hpc hb hc
        (Function.update_comm hne.symm _ _ _) rfl rfl rfl ?_ (by simp [PC.phase]) fun _ => ?_
      · rintro r (rfl | rfl) <;> exact ⟨rfl, rfl⟩
      · exact (hI.table.hatching t i none (by rw [State.ph, hpc]; rfl)).1.symm
  | inc hpc hb | joinRelease hpc hb | exitRelease hpc hb | dec hpc hb =>
      exact hmove hpc (by simp [PC.phase]) (by simp [PC.phase]) rfl rfl rfl rfl
        (holder_setPcb rfl hb rfl) rfl rfl (by simp [PC.phase])
  | joinWait _ hu hj hb | exitWait hu hj hb =>
      exact FrameInv.P (hmove hu.2 (by simp [PC.phase]) (by simp [PC.phase]) rfl rfl rfl rfl
        (holder_setPcb rfl hb rfl) rfl rfl (by simp [PC.phase]))
  | finish hpc => exact h.exitReleased hI hpc

theorem reachable_frames (h : Reachable s) : FrameInv s := by
  refine reachable_keeps h (fun heap => ?_) fun hy hr => piece_frames hy hr.2
  refine ⟨.empty ?_ fun _ => rfl, fun _ _ => rfl, fun _ _ => rfl, fun _ _ _ _ _ => rfl,
    fun _ _ _ _ hc => (by cases hc), fun _ ht => absurd rfl ht⟩
  rintro f ⟨hf, ht⟩
  rw [show (init heap).gPhysPageBitMap.test ⟨f, hf⟩ = false from BitMap.test_new _ _] at ht
  cases ht

/-- The frames that are marked, as numbers. -/
def markedFrames (b : BitMap NumPhysPages) : Finset Nat :=
  (Finset.univ.filter fun f => b.test f = true).map Fin.valEmbedding

theorem mem_markedFrames {b : BitMap NumPhysPages} {f : Nat} : f ∈ markedFrames b ↔ Marked b f := by
  simp only [markedFrames, Finset.mem_map, Finset.mem_filter, Finset.mem_univ, true_and]
  constructor
  · rintro ⟨g, hg, rfl⟩; exact ⟨g.isLt, hg⟩
  · rintro ⟨hf, ht⟩; exact ⟨⟨f, hf⟩, ht, rfl⟩

theorem numClear_add_card (b : BitMap NumPhysPages) :
    b.numClear + (markedFrames b).card = NumPhysPages := by
  rw [BitMap.numClear_eq, markedFrames, Finset.card_map]
  have hcompl : BitMap.clears b = Finset.univ.filter fun f => ¬ b.test f = true := by
    simp [BitMap.clears]
  rw [hcompl, Nat.add_comm, Finset.card_filter_add_card_filter_not]
  exact Finset.card_fin _

/-- **Every frame has one owner.**  In every reachable state: a bit of `gPhysPageBitMap` is set iff
its frame is in the page table of one live address space, and there once; the page tables of two
threads have no frame in common; a thread that has finished has no address space; and the clear bits
and the pages of the live address spaces are together `NumPhysPages`. -/
theorem frames_owned (h : Reachable s) :
    (∀ f : Fin NumPhysPages, s.gPhysPageBitMap.test f = true ↔
      ∃ t sp, s.spaces t = some sp ∧ sp.frames.count f.val = 1 ∧
        ∀ u sp', u ≠ t → s.spaces u = some sp' → f.val ∉ sp'.frames) ∧
    (∀ t u sp sp', t ≠ u → s.spaces t = some sp → s.spaces u = some sp' →
      sp.frames.Disjoint sp'.frames) ∧
    (∀ t ec, s.pc t = .done ec → s.spaces t = none) ∧
    s.gPhysPageBitMap.numClear +
      ∑ t ∈ Finset.range s.table.nextTid, (s.spaces t).elim 0 AddrSpace.numPages =
        NumPhysPages := by
  have hI := reachable_inv h
  have hF := reachable_frames h
  have hmap : ∀ {t sp}, s.spaces t = some sp → s.frames t = some sp.frames := fun e => by
    rw [State.frames, e]; rfl
  refine ⟨fun f => ⟨fun hf => ?_, ?_⟩, fun t u sp sp' htu ht hu => ?_, fun t ec ht => ?_, ?_⟩
  · obtain ⟨t, l, hl, hm⟩ := (hF.owned.taken_iff f.val).mp ⟨f.isLt, hf⟩
    obtain ⟨sp, hsp, rfl⟩ := Option.map_eq_some_iff.mp hl
    refine ⟨t, sp, hsp, List.count_eq_one_of_mem (hF.owned.nodup t _ hl) hm,
      fun u sp' hu hsp' hm' => ?_⟩
    exact hF.owned.disjoint u t _ _ hu (hmap hsp') hl hm' hm
  · rintro ⟨t, sp, hsp, hcount, -⟩
    have hm : f.val ∈ sp.frames := List.count_pos_iff.mp (by rw [hcount]; exact Nat.one_pos)
    obtain ⟨_, ht⟩ := (hF.owned.taken_iff f.val).mpr ⟨t, _, hmap hsp, hm⟩
    exact ht
  · exact hF.owned.disjoint t u _ _ htu (hmap ht) (hmap hu)
  · exact hF.dead t (by rw [State.ph, ht]; rfl)
  · have hcard := hF.owned.card_taken (S := Finset.range s.table.nextTid)
      (T := markedFrames s.gPhysPageBitMap) (fun t ht => ?_) fun f => mem_markedFrames
    · have hsum : ∀ t, (s.spaces t).elim 0 AddrSpace.numPages = ((s.frames t).getD []).length := by
        intro t
        rw [State.frames]
        cases s.spaces t with
        | none => rfl
        | some sp => exact (List.length_map _).symm
      simp only [hsum, ← hcard]
      exact numClear_add_card _
    · rw [Finset.mem_range]
      by_contra hn
      refine ht ?_
      rw [State.frames, hF.noPid t ((hI.table.noPid t).mpr (.inr (not_lt.mp hn)))]
      rfl

end

/-- The root and its child have eight frames each; when the child has exited, its frames are
clear. -/
theorem frames_owned_startChild : ∃ s s',
    run step always (init fun _ => 0) startChild = some s ∧
      (s.spaces 2).map AddrSpace.numPages = some 8 ∧ s.gPhysPageBitMap.numClear + (8 + 8) = 128 ∧
      step s (.exit 2 7) = .ok s' ∧ s'.spaces 2 = none ∧ s'.gPhysPageBitMap.numClear = 120 := by
  obtain ⟨s, hs, hp⟩ := (Option.any_eq_true ..).mp (show (run step always (init fun _ => 0)
    startChild).any (fun s => (s.spaces 2).map AddrSpace.numPages = some 8 ∧
      ∑ t ∈ Finset.range s.table.nextTid, (s.spaces t).elim 0 AddrSpace.numPages = 8 + 8 ∧
      (step s (.exit 2 7)).toOption.any fun s' => s'.pc 2 = .done 7 ∧
        ∑ t ∈ Finset.range s'.table.nextTid, (s'.spaces t).elim 0 AddrSpace.numPages = 8) = true
    by decide +kernel)
  obtain ⟨hpages, hsum, hany⟩ := of_decide_eq_true hp
  obtain ⟨s', hs', hp⟩ := (Option.any_eq_true ..).mp hany
  obtain ⟨hdone, hsum'⟩ := of_decide_eq_true hp
  have hrun := Steps.of_run hs
  have hok := toOption_some hs'
  obtain ⟨-, -, -, hclear⟩ := frames_owned ⟨_, hrun⟩
  obtain ⟨-, -, hgone, hclear'⟩ := frames_owned ⟨_, hrun.tail trivial hok⟩
  rw [hsum] at hclear
  rw [hsum'] at hclear'
  exact ⟨s, s', hs, hpages, hclear, hok, hgone 2 7 hdone, Nat.add_right_cancel hclear'⟩

end Nachos.Proc
