import Nachos.Threads.Frames
import Nachos.Userprog.FlatMemory

/-!
# Threads — the address spaces of the processes

What a step does to the address spaces that are there: those of other threads stay as they are, and
that of the thread itself keeps its pages until the thread has exited.  And a thread that runs user
code has one: the main thread, which has none, never comes that far.  A thread gets its address
space before it runs, and none after that (`step_settled`); each is as the constructor has built it
(`reachable_linear`).
-/

namespace Nachos.Proc
open Lib

/-- The places of the main thread: `StartProcess` up to the moment when the root takes over, and the
return of an `ExecUpdate` that failed. -/
def PC.ofMain : PC → Bool
  | boot | execBmsem _ | execEntered _ | execMutex _ _ none | execLocked _ _ none
  | execFailed _ none | execAddrLock _ none | execSpace _ none | execBuilt _ none | execRet _
  | gone => true
  | _ => false

section
variable {s s' : State} {t u : Tid} {o : Input} {sp : AddrSpace}

/-- A piece leaves the address spaces of other threads as they are. -/
theorem piece_spaces (h : FrameInv s) (hp : Piece t o s s') (hu : u ≠ t)
    (hsp : s.spaces u = some sp) : s'.spaces u = some sp := by
  cases hp with
  | touch => exact (Function.update_of_ne hu _ _).trans hsp
  | finish => exact (Function.update_of_ne hu _ _).trans hsp
  | @space i par c b exe sp' phys hpc hb hc hbuild =>
      -- the thread that gets the new space has none
      have hc' : s.spaces c = none :=
        h.making t i c (by rw [hpc]; rfl) (by rw [State.holder, hb]; exact hc)
      have e : u ≠ c := by
        rintro rfl
        rw [hc'] at hsp
        cases hsp
      exact (Function.update_of_ne e _ _).trans hsp
  | P => rw [P_spaces]; exact hsp
  | joinWait | exitWait => rw [P_spaces]; exact hsp
  | _ => exact hsp

/-- An address space `y` in the place of `x`: it has been there, with as many pages. -/
def KeepsPages (x y : Option AddrSpace) : Prop :=
  ∀ sp', y = some sp' → ∃ sp, x = some sp ∧ sp'.numPages = sp.numPages

theorem KeepsPages.refl (x : Option AddrSpace) : KeepsPages x x := fun sp h => ⟨sp, h, rfl⟩

theorem KeepsPages.trans {x y z : Option AddrSpace} (h₁ : KeepsPages x y) (h₂ : KeepsPages y z) :
    KeepsPages x z := by
  intro sp'' h
  obtain ⟨sp', hy, e'⟩ := h₂ sp'' h
  obtain ⟨sp, hx, e⟩ := h₁ sp' hy
  exact ⟨sp, hx, e'.trans e⟩

/-- A piece gives its own thread no address space. -/
theorem piece_own (hI : Inv s) (hp : Piece t o s s') : KeepsPages (s.spaces t) (s'.spaces t) := by
  cases hp with
  | @touch sp pageTable hmap hsp =>
      intro sp' hsp'
      replace hsp' : Function.update s.spaces t (some (sp.touch pageTable hmap)) t =
        some sp' := hsp'
      rw [Function.update_self] at hsp'
      cases hsp'
      refine ⟨sp, hsp, ?_⟩
      have := congrArg List.length hmap
      rwa [List.length_map, List.length_map] at this
  | @finish ec i hpc =>
      intro sp' hsp'
      replace hsp' : Function.update s.spaces t none t = some sp' := hsp'
      rw [Function.update_self] at hsp'
      cases hsp'
  | @space i par c b exe sp' phys hpc hb hc hbuild =>
      have e : t ≠ c := by
        rintro rfl
        have hph : s.ph t = .hatching i par := by rw [State.ph, hpc]; rfl
        have := (hI.table.hatching_thread hph hb hc).1
        rw [hph] at this
        cases this
      show KeepsPages _ (Function.update s.spaces c _ t)
      rw [Function.update_of_ne e]
      exact .refl _
  | P => rw [P_spaces]; exact .refl _
  | joinWait | exitWait => rw [P_spaces]; exact .refl _
  | _ => exact .refl _

theorem step_spaces {a : Action} (hR : Reachable s) (hok : step s a = .ok s') (hu : u ≠ a.thread)
    (hsp : s.spaces u = some sp) : s'.spaces u = some sp :=
  (step_keeps (I := fun x => FrameInv x ∧ x.spaces u = some sp) (reachable_inv hR) hok
    (fun _ _ hI _ hp h => ⟨piece_frames hI hp h.1, piece_spaces h.1 hp hu h.2⟩)
    ⟨reachable_frames hR, hsp⟩).2

theorem step_own {a : Action} (hR : Reachable s) (hok : step s a = .ok s') :
    KeepsPages (s.spaces a.thread) (s'.spaces a.thread) :=
  step_keeps (I := fun x => KeepsPages (s.spaces a.thread) (x.spaces a.thread)) (reachable_inv hR)
    hok (fun _ _ hI _ hp h => h.trans (piece_own hI hp)) (.refl _)

/-! ### The main thread -/

theorem piece_main (hI : Inv s) (hp : Piece t o s s') (h : (s.pc 0).ofMain = true) :
    (s'.pc 0).ofMain = true := by
  have hpid : s.table.pidOf 0 = none := (hI.table.noPid 0).mpr (.inl rfl)
  by_cases e : 0 = t
  · subst e
    have hno : ∀ {q}, s.pc 0 = q → q.ofMain = false → False := fun e hq => by
      rw [e, hq] at h; cases h
    have hto : ∀ {y : State} {q : PC}, y.pc = Function.update s.pc 0 q → q.ofMain = true →
        (y.pc 0).ofMain = true := fun e hq => by rw [e, Function.update_self]; exact hq
    cases hp with
    | halt | touch | V => exact h
    | call hu | refused hu | joinWait _ hu | exitWait hu | pass hu => exact (hno hu.2 rfl).elim
    | joinRet hpc | fork hpc | bootInc hpc | inc hpc | joinRelease hpc | skip hpc
    | exitRelease hpc | dec hpc | finish hpc => exact (hno hpc rfl).elim
    | ret _ h0 => exact absurd rfl h0
    | exec hq =>
        generalize hpc : s.pc 0 = pc at hq
        cases hq with
        | boot | refuse => exact hto rfl rfl
        | @noOpen f i par =>
            cases par with
            | none => exact hto rfl rfl
            | some j => exact (hno hpc rfl).elim
        | unlock | start => exact (hno hpc rfl).elim
    | P =>
        rcases P_pc s 0 with e | e <;> rw [e]
        · exact h
        · rw [Function.update_self]
          revert h
          cases s.pc 0 with
          | execMutex f i par => cases par <;> simp [PC.ofMain, PC.afterP]
          | execAddrLock i par => cases par <;> simp [PC.ofMain, PC.afterP]
          | _ => simp [PC.ofMain, PC.afterP]
    | newPCB hpc _ hpar =>
        rw [hpid] at hpar
        subst hpar
        exact hto rfl rfl
    | @newThread f i par b hpc =>
        cases par with
        | none => exact (goto_pc_self ..) ▸ rfl
        | some j => exact (hno hpc rfl).elim
    | fail => exact hto rfl rfl
    | @space i par c b exe sp phys hpc =>
        cases par with
        | none => exact hto rfl rfl
        | some j => exact (hno hpc rfl).elim
    | @takeOver i c b hpc hb hc =>
        have hne : 0 ≠ c := by
          rintro rfl
          rw [hI.pc_created hpc hb hc] at hpc
          cases hpc
        rw [goto_pc_ne _ _ hne, goto_pc_self]
        rfl
  · rcases piece_pc hI hp e with e' | ⟨e', -⟩ | ⟨e', -⟩
    · rw [e']; exact h
    · rw [e'] at h; cases h
    · rw [e'] at h; cases h

theorem reachable_main (h : Reachable s) : (s.pc 0).ofMain = true :=
  reachable_keeps (I := fun s => (s.pc 0).ofMain = true) h (fun _ => rfl)
    fun hI hr hm => piece_main hI hr.2 hm

/-- **A thread in user code has an address space.** -/
theorem space_of_user (h : Reachable s) (ht : s.pc t = .user) : ∃ sp, s.spaces t = some sp := by
  have hI := reachable_inv h
  have hph : s.ph t = .running := by rw [State.ph, ht]; rfl
  refine Option.ne_none_iff_exists'.mp ((reachable_frames h).live t (fun hn => ?_)
    (by rw [hph]; decide) (by rw [hph]; decide))
  rcases (hI.table.noPid t).mp hn with rfl | hle
  · have := reachable_main h
    rw [ht] at this
    cases this
  · rw [(hI.table.unborn t).mpr hle] at hph
    cases hph

/-! ### Who gets an address space -/

/-- The thread has got its address space, or never needs one again. -/
def State.Settled (s : State) (t : Tid) : Prop :=
  t = 0 ∨ s.spaces t ≠ none ∨ (s.pc t).released = true

/-- Only a thread that has not been forked gets an address space. -/
theorem piece_gains (hI : Inv s) (hp : Piece t o s s') (hu : s'.spaces u ≠ none) :
    s.spaces u ≠ none ∨ s.ph u = .created := by
  cases hp with
  | @touch sp pageTable hmap hsp =>
      replace hu : Function.update s.spaces t (some (sp.touch pageTable hmap)) u ≠ none := hu
      by_cases e : u = t
      · rw [e, hsp]; exact .inl (by simp)
      · rw [Function.update_of_ne e] at hu; exact .inl hu
  | @space i par c b exe sp' phys hpc hb hc hbuild =>
      replace hu : Function.update s.spaces c (some sp') u ≠ none := hu
      by_cases e : u = c
      · subst e
        exact .inr (hI.table.hatching_thread (by rw [State.ph, hpc]; rfl) hb hc).1
      · rw [Function.update_of_ne e] at hu; exact .inl hu
  | @finish ec i hpc =>
      replace hu : Function.update s.spaces t none u ≠ none := hu
      by_cases e : u = t
      · rw [e, Function.update_self] at hu; exact absurd rfl hu
      · rw [Function.update_of_ne e] at hu; exact .inl hu
  | P => rw [P_spaces] at hu; exact .inl hu
  | joinWait | exitWait => rw [P_spaces] at hu; exact .inl hu
  | _ => exact .inl hu

/-- A thread loses its address space only at the very end. -/
theorem piece_loses (hF : FrameInv s) (hp : Piece t o s s') (hu : s.spaces u ≠ none) :
    s'.spaces u ≠ none ∨ (s'.pc u).released = true := by
  obtain ⟨sp, hsp⟩ := Option.ne_none_iff_exists'.mp hu
  by_cases e : u = t
  · subst e
    cases hp with
    | touch =>
        refine .inl ?_
        show Function.update s.spaces u _ u ≠ none
        rw [Function.update_self]
        simp
    | @finish ec i hpc =>
        refine .inr ?_
        show (Function.update s.pc u (.done ec) u).released = true
        rw [Function.update_self]
        rfl
    | @space i par c b exe sp' phys hpc hb hc hbuild =>
        refine .inl ?_
        show Function.update s.spaces c _ u ≠ none
        by_cases e : u = c
        · rw [e, Function.update_self]; simp
        · rwa [Function.update_of_ne e]
    | P => rw [P_spaces]; exact .inl hu
    | joinWait | exitWait => rw [P_spaces]; exact .inl hu
    | _ => exact .inl hu
  · rw [piece_spaces hF hp e hsp]
    exact .inl (by simp)

theorem piece_settled (hI : Inv s) (hF : FrameInv s) (hp : Piece t o s s') (hs : s.Settled u) :
    s'.Settled u := by
  rcases hs with h | h | h
  · exact .inl h
  · exact .inr (piece_loses hF hp h)
  · exact .inr (.inr (piece_released hI hp u h).1)

/-- **A settled thread gets no address space.** -/
theorem step_settled {a : Action} (hR : Reachable s) (hok : step s a = .ok s')
    (hs : s.Settled u) : s'.Settled u ∧ (s'.spaces u ≠ none → s.spaces u ≠ none) := by
  refine (step_keeps (I := fun x => FrameInv x ∧ (x.pc 0).ofMain = true ∧ x.Settled u ∧
    (x.spaces u ≠ none → s.spaces u ≠ none)) (reachable_inv hR) hok ?_
    ⟨reachable_frames hR, reachable_main hR, hs, id⟩).2.2
  rintro x y hI - hp ⟨hF, hm, hx, hsp⟩
  refine ⟨piece_frames hI hp hF, piece_main hI hp hm, piece_settled hI hF hp hx, fun hy => ?_⟩
  rcases piece_gains hI hp hy with h | h
  · exact hsp h
  · -- a thread that has not been forked is not settled yet
    rcases hx with rfl | hx | hx
    · exfalso
      revert hm h
      unfold State.ph
      cases x.pc 0 <;> simp [PC.ofMain, PC.phase]
    · exact hsp hx
    · exfalso
      revert hx h
      unfold State.ph
      cases x.pc u <;> simp [PC.released, PC.phase]

/-- **Every address space is as the constructor has built it.** -/
theorem reachable_linear (h : Reachable s) : ∀ t sp, s.spaces t = some sp → Linear sp.pageTable := by
  refine reachable_keeps (I := fun s => ∀ t sp, s.spaces t = some sp → Linear sp.pageTable) h
    (fun _ _ _ hsp => by cases hsp) ?_
  intro t o x y hI hr hx u sp hsp
  cases hr.2 with
  | @touch sp' pageTable hmap hsp' =>
      replace hsp : Function.update x.spaces t (some (sp'.touch pageTable hmap)) u = some sp := hsp
      by_cases e : u = t
      · rw [e, Function.update_self] at hsp
        cases hsp
        exact (hx t sp' hsp').congr hmap
      · rw [Function.update_of_ne e] at hsp; exact hx u sp hsp
  | @space i par c b exe sp' phys hpc hb hc hbuild =>
      replace hsp : Function.update x.spaces c (some sp') u = some sp := hsp
      by_cases e : u = c
      · rw [e, Function.update_self] at hsp
        cases hsp
        exact build_linear hbuild
      · rw [Function.update_of_ne e] at hsp; exact hx u sp hsp
  | @finish ec i hpc =>
      replace hsp : Function.update x.spaces t none u = some sp := hsp
      by_cases e : u = t
      · rw [e, Function.update_self] at hsp; cases hsp
      · rw [Function.update_of_ne e] at hsp; exact hx u sp hsp
  | P => rw [P_spaces] at hsp; exact hx u sp hsp
  | joinWait | exitWait => rw [P_spaces] at hsp; exact hx u sp hsp
  | _ => exact hx u sp hsp

/-! ### Threads that have been forked -/

/-- The thread has been forked, or has taken over as the root. -/
def PC.forked : PC → Bool
  | unborn | created => false
  | _ => true

theorem piece_forked (hI : Inv s) (hp : Piece t o s s') (h : (s.pc u).forked = true) :
    (s'.pc u).forked = true := by
  by_cases e : u = t
  · subst e
    have hto : ∀ {y : State} {q : PC}, y.pc = Function.update s.pc u q → q.forked = true →
        (y.pc u).forked = true := fun e hq => by rw [e, Function.update_self]; exact hq
    have hP : ∀ x : State, (x.pc u).forked = true → ((x.P u).pc u).forked = true := by
      intro x hx
      rcases P_pc x u with e | e <;> rw [e]
      · exact hx
      · rw [Function.update_self]
        revert hx
        cases x.pc u <;> simp [PC.forked, PC.afterP]
    cases hp with
    | halt | touch | V => exact h
    | P => exact hP s h
    | joinWait | exitWait => exact hP _ (goto_pc_self .. ▸ rfl)
    | exec hq =>
        generalize s.pc u = pc at hq h
        refine hto rfl ?_
        cases hq <;> rfl
    | @takeOver i c b hpc hb hc =>
        by_cases e : u = c
        · exact e ▸ goto_pc_self .. ▸ rfl
        · rw [goto_pc_ne _ _ e, goto_pc_self]; rfl
    | newThread | fork => exact (goto_pc_self ..) ▸ rfl
    | _ => exact hto rfl rfl
  · rcases piece_pc hI hp e with e' | ⟨e', -⟩ | ⟨e', -⟩
    · rw [e']; exact h
    · rw [e'] at h; cases h
    · rw [e'] at h; cases h

/-- **A thread that has been forked stays so.** -/
theorem step_forked {a : Action} (hR : Reachable s) (hok : step s a = .ok s')
    (h : (s.pc u).forked = true) : (s'.pc u).forked = true :=
  step_keeps (I := fun x => (x.pc u).forked = true) (reachable_inv hR) hok
    (fun _ _ hI _ hp hx => piece_forked hI hp hx) h

end

end Nachos.Proc
