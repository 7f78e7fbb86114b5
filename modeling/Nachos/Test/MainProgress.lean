import Nachos.Test.MainRuns

/-!
# Test — how far main gets

With up to three lines of input the table of open files has room for all that is opened, and when
nothing else is refused either, one of the three programs can always go on.
-/

namespace Nachos.Taps
open Lib

section
variable {inp : List Byte} {s s' : MainState} {r : Nat}

/-! ### When nothing is refused -/

/-- The host and the kernel do what is asked, and `main` calls `Join` in time. -/
def OnTime (s : MainState) : MainAction → Prop
  | .main ok => ok = true ∧ (s.pc = .joinSv → s.taps.svPc ≠ .finished) ∧
      (s.pc = .joinVo → s.taps.voPc ≠ .finished)
  | .sinhvien ok | .voinuoc ok => ok = true

instance (s : MainState) : (a : MainAction) → Decidable (OnTime s a)
  | .main ok => inferInstanceAs (Decidable (ok = true ∧ _ ∧ _))
  | .sinhvien ok | .voinuoc ok => inferInstanceAs (Decidable (ok = true))

def MainPC.opens : MainPC → Bool
  | openIn | openOut | openSv | openTmp => true
  | _ => false

theorem SvPC.held_le (pc : SvPC) : pc.held + pc.opens.toNat ≤ 2 := by
  cases pc <;> exact Nat.le_of_ble_eq_true rfl

theorem VoPC.held_le (pc : VoPC) : pc.held + pc.opens.toNat ≤ 2 := by
  cases pc <;> exact Nat.le_of_ble_eq_true rfl

/-- What is open where `main` opens a file. -/
theorem MainOk.opens {pc : MainPC} (h : MainOk inp s r pc) (hpc : s.pc = pc) (ho : pc.opens = true)
    (hN : (header inp).1.toNat ≤ 3) : pc.held ≤ 2 ∧ s.held ≤ 1 ∧ r ≤ 2 := by
  have hnone : pc.started = false → s.held ≤ 1 := by
    intro hst
    rw [MainState.held, hpc, hst]
    exact Nat.zero_le _
  cases pc with
  | openIn => exact ⟨Nat.zero_le _, hnone rfl, h.1 ▸ Nat.zero_le _⟩
  | openOut => exact ⟨Nat.le_succ _, hnone rfl, h.1 ▸ Nat.zero_le _⟩
  | openSv =>
      have := h.1.left
      exact ⟨Nat.le_refl _, hnone rfl, by omega⟩
  | openTmp =>
      have := h.1.left
      refine ⟨Nat.le_refl _, ?_, by omega⟩
      rw [MainState.held, hpc, h.1.sv, h.1.vo]
      exact Nat.le_refl _
  | _ => cases ho

/-- In the first three rounds the table has room for all that is opened. -/
theorem MainInv.room (h : MainInv inp s r) (hN : (header inp).1.toNat ≤ 3) (hf : s.pc ≠ .failed)
    (hsound : s.Sound) (ho : s.pc.opens = true) : s.free = true := by
  have hexact := h.exact hf hsound
  have hopens := h.ok.opens rfl ho hN
  have hcons : consoleSlots = 2 := rfl
  exact decide_eq_true (show s.used < 10 by omega)

/-- Also for the two programs. -/
theorem MainInv.room_child (h : MainInv inp s r) (hN : (header inp).1.toNat ≤ 3)
    (hf : s.pc ≠ .failed) (hsound : s.Sound) (hpc : s.pc.svRuns = true ∨ s.pc.voRuns = true)
    (hopen : s.taps.svPc.opens = true ∨ s.taps.voPc.opens = true) : s.free = true := by
  obtain ⟨hrun, hst, hheld⟩ := h.ok.running hpc
  have hexact := h.exact hf hsound
  have hleft := hrun.left
  have hsv := s.taps.svPc.held_le
  have hvo := s.taps.voPc.held_le
  have hcons : consoleSlots = 2 := rfl
  unfold MainState.held at hexact
  rw [if_pos hst, hheld] at hexact
  refine decide_eq_true (show s.used < 10 from ?_)
  rcases hopen with ho | ho
  · rw [ho, Bool.toNat_true] at hsv
    omega
  · rw [ho, Bool.toNat_true] at hvo
    omega

theorem round_sound (s : MainState) : s.round.pc ≠ .failed ∧ s.round.Sound := by
  obtain ⟨-, -, hst, -⟩ := round_quiet s
  refine ⟨fun he => ?_, fun he => ?_⟩
  · rcases round_pc s with e | e <;> rw [e] at he <;> cases he
  · rw [hst] at he
    cases he

theorem opened_sound (hfree : s.free = true) {pc : MainPC} (hf : pc ≠ .failed)
    (hst : pc.started = true → s.taps.svPc ≠ .failed ∧ s.taps.voPc ≠ .failed) :
    (s.opened true pc).pc ≠ .failed ∧ (s.opened true pc).Sound := by
  unfold MainState.opened
  rw [hfree]
  exact ⟨hf, hst⟩

/-- `main` goes on. -/
theorem main_sound (hs : s.main inp true = .ok s') (hsound : s.Sound)
    (hroom : s.pc.opens = true → s.free = true) (hsv : s.pc = .joinSv → s.taps.svPc ≠ .finished)
    (hvo : s.pc = .joinVo → s.taps.voPc ≠ .finished) : s'.pc ≠ .failed ∧ s'.Sound := by
  have hold := hsound
  unfold MainState.Sound at hold
  cases hpc : s.pc <;> rw [hpc] at hold hroom hsv hvo <;> simp only [MainState.main, hpc] at hs
  case openIn => cases hs; exact opened_sound (hroom rfl) MainPC.noConfusion Bool.noConfusion
  case openOut => cases hs; exact opened_sound (hroom rfl) MainPC.noConfusion Bool.noConfusion
  case openSv => cases hs; exact opened_sound (hroom rfl) MainPC.noConfusion Bool.noConfusion
  case openTmp =>
    cases hs
    exact opened_sound (s := { s with tmpOff := 0, pc := .openTmp }) (hroom rfl) MainPC.noConfusion
      fun _ => hold rfl
  case skip =>
    split at hs <;> cases hs
    · split <;> exact ⟨MainPC.noConfusion, Bool.noConfusion⟩
    · exact round_sound _
  case digits =>
    split at hs <;> cases hs
    · split
      · exact ⟨MainPC.noConfusion, Bool.noConfusion⟩
      · exact round_sound _
    · exact round_sound _
  case read => split at hs <;> cases hs <;> exact ⟨MainPC.noConfusion, Bool.noConfusion⟩
  case write c => cases hs; split <;> exact ⟨MainPC.noConfusion, Bool.noConfusion⟩
  case execSv => cases hs; exact ⟨MainPC.noConfusion, fun _ => ⟨SvPC.noConfusion, VoPC.noConfusion⟩⟩
  case execVo => cases hs; exact ⟨MainPC.noConfusion, fun _ => hold rfl⟩
  case joinSv =>
    cases hs
    rw [if_neg (not_or.mpr ⟨hsv rfl, (hold rfl).1⟩)]
    exact ⟨MainPC.noConfusion, fun _ => hold rfl⟩
  case joinVo =>
    cases hs
    rw [if_neg (not_or.mpr ⟨hvo rfl, (hold rfl).2⟩)]
    exact ⟨MainPC.noConfusion, fun _ => hold rfl⟩
  case waitSv =>
    rw [if_neg (hold rfl).1] at hs
    split at hs <;> cases hs
    exact ⟨MainPC.noConfusion, fun _ => hold rfl⟩
  case waitVo =>
    rw [if_neg (hold rfl).2] at hs
    split at hs <;> cases hs
    exact ⟨MainPC.noConfusion, fun _ => hold rfl⟩
  case readTmp => split at hs <;> cases hs <;> exact ⟨MainPC.noConfusion, fun _ => hold rfl⟩
  case writeTmp c => cases hs; exact ⟨MainPC.noConfusion, fun _ => hold rfl⟩
  case closeTmp => cases hs; exact round_sound _
  case finished => cases hs
  case failed => cases hs
  all_goals
    cases hs
    exact ⟨MainPC.noConfusion, Bool.noConfusion⟩

/-- What the first three rounds keep. -/
structure Good (inp : List Byte) (s : MainState) : Prop where
  inv : ∃ r, MainInv inp s r
  pc : s.pc ≠ .failed
  sound : s.Sound

theorem Good.sinhvien (h : Good inp s) (hN : (header inp).1.toNat ≤ 3)
    (hs : s.sinhvien true = .ok s') : Good inp s' := by
  obtain ⟨r, hinv⟩ := h.inv
  obtain ⟨hinv', hpc⟩ := hinv.sinhvien hs
  refine ⟨⟨r, hinv'⟩, hpc ▸ h.pc, fun hst => ?_⟩
  rw [hpc] at hst
  obtain ⟨-, hvo⟩ := h.sound hst
  unfold MainState.sinhvien at hs
  split at hs
  swap
  · cases hs
  rename_i hsv
  obtain ⟨t, ht, rfl⟩ := map_ok hs
  obtain ⟨hvo', hcases⟩ := sinhvien_held ht
  refine ⟨?_, hvo' ▸ hvo⟩
  rcases hcases with ⟨-, hno⟩ | ⟨-, -, hne⟩
  · exfalso
    obtain ⟨hruns, -⟩ := hinv.runs h.pc
    cases ho : s.taps.svPc.opens with
    | true =>
        rw [hinv.room_child hN h.pc h.sound (.inl (hruns.symm.trans hsv)) (.inl ho), ho] at hno
        cases hno
    | false =>
        rw [ho] at hno
        cases hno
  · exact hne

theorem Good.voinuoc (h : Good inp s) (hN : (header inp).1.toNat ≤ 3)
    (hsum : ∀ line ∈ lines (header inp).2 (header inp).1.toNat,
      ((numbers line).map decimal).sum < 2 ^ 31) (hs : s.voinuoc true = .ok s') : Good inp s' := by
  obtain ⟨r, hinv⟩ := h.inv
  obtain ⟨hinv', hpc⟩ := hinv.voinuoc hsum hs
  refine ⟨⟨r, hinv'⟩, hpc ▸ h.pc, fun hst => ?_⟩
  rw [hpc] at hst
  obtain ⟨hsv, -⟩ := h.sound hst
  unfold MainState.voinuoc at hs
  split at hs
  swap
  · cases hs
  rename_i hvo
  obtain ⟨t, ht, rfl⟩ := map_ok hs
  obtain ⟨hsv', hcases⟩ := voinuoc_held ht
  refine ⟨hsv' ▸ hsv, ?_⟩
  rcases hcases with ⟨-, hno⟩ | ⟨-, -, hne⟩
  · exfalso
    obtain ⟨-, hruns⟩ := hinv.runs h.pc
    cases ho : s.taps.voPc.opens with
    | true =>
        rw [hinv.room_child hN h.pc h.sound (.inr (hruns.symm.trans hvo)) (.inr ho), ho] at hno
        cases hno
    | false =>
        rw [ho] at hno
        cases hno
  · exact hne

theorem Good.step (h : Good inp s) (hN : (header inp).1.toNat ≤ 3)
    (hsum : ∀ line ∈ lines (header inp).2 (header inp).1.toNat,
      ((numbers line).map decimal).sum < 2 ^ 31) {a : MainAction} (hc : OnTime s a)
    (hs : mainStep inp s a = .ok s') : Good inp s' := by
  cases a with
  | main ok =>
      obtain ⟨rfl, hsv, hvo⟩ := hc
      obtain ⟨r, hinv⟩ := h.inv
      obtain ⟨hf, hsound⟩ := main_sound hs h.sound (hinv.room hN h.pc h.sound) hsv hvo
      exact ⟨hinv.step hsum hs, hf, hsound⟩
  | sinhvien ok =>
      obtain rfl : ok = true := hc
      exact h.sinhvien hN hs
  | voinuoc ok =>
      obtain rfl : ok = true := hc
      exact h.voinuoc hN hsum hs

/-! ### Nothing waits for ever -/

theorem sinhvien_enabled (inp : List Byte) {t : State} (h : t.svPc ≠ .finished ∧ t.svPc ≠ .failed) (ok : Bool)
    (hl : t.svPc.inside = true ∨ t.lock ≠ 0) : ∃ t', t.sinhvien inp ok = .ok t' := by
  have hwait : ∀ {f : State → State}, t.svPc.inside = false → ∃ t', t.wait.map f = .ok t' := by
    intro f hin
    rw [hin] at hl
    unfold State.wait
    rw [if_neg (hl.resolve_left Bool.noConfusion)]
    exact ⟨_, rfl⟩
  unfold State.sinhvien
  cases hpc : t.svPc with
  | wait c => exact hwait (by rw [hpc]; rfl)
  | waitEnd => exact hwait (by rw [hpc]; rfl)
  | read => dsimp only; split <;> exact ⟨_, rfl⟩
  | readNext => dsimp only; split <;> exact ⟨_, rfl⟩
  | finished => exact absurd hpc h.1
  | failed => exact absurd hpc h.2
  | _ => exact ⟨_, rfl⟩

theorem voinuoc_enabled {t : State} (h : t.voPc ≠ .finished ∧ t.voPc ≠ .failed) (ok : Bool)
    (hl : t.voPc.inside = true ∨ t.lock ≠ 0) : ∃ t', t.voinuoc ok = .ok t' := by
  unfold State.voinuoc
  cases hpc : t.voPc with
  | wait =>
      rw [hpc] at hl
      unfold State.wait
      rw [if_neg (hl.resolve_left Bool.noConfusion)]
      exact ⟨_, rfl⟩
  | skip => dsimp only; split <;> exact ⟨_, rfl⟩
  | digits res => dsimp only; split <;> exact ⟨_, rfl⟩
  | finished => exact absurd hpc h.1
  | failed => exact absurd hpc h.2
  | _ => exact ⟨_, rfl⟩

/-- `main` only waits in `Join`. -/
theorem main_enabled (inp : List Byte) (hsv : s.pc = .waitSv → s.taps.svPc = .finished)
    (hvo : s.pc = .waitVo → s.taps.voPc = .finished) (hfin : s.pc ≠ .finished)
    (hf : s.pc ≠ .failed) : ∃ s', s.main inp true = .ok s' := by
  unfold MainState.main
  cases hpc : s.pc with
  | skip => dsimp only; split <;> exact ⟨_, rfl⟩
  | digits => dsimp only; split <;> exact ⟨_, rfl⟩
  | read => dsimp only; split <;> exact ⟨_, rfl⟩
  | readTmp => dsimp only; split <;> exact ⟨_, rfl⟩
  | waitSv => dsimp only; rw [if_pos (hsv hpc)]; exact ⟨_, rfl⟩
  | waitVo => dsimp only; rw [if_pos (hvo hpc)]; exact ⟨_, rfl⟩
  | finished => exact absurd hpc hfin
  | failed => exact absurd hpc hf
  | _ => exact ⟨_, rfl⟩

/-- Who is not inside the lock can go on, or the other is inside. -/
theorem Running.lock (h : Running inp s r) (hsum : ((numbers s.line).map decimal).sum < 2 ^ 31)
    (hl : s.taps.lock = 0) : s.taps.svPc.inside = true ∨ s.taps.voPc.inside = true := by
  obtain ⟨tmp, hsteps⟩ := h.taps
  obtain ⟨done, cur, fin, seen, hinv⟩ := run_inv hsum hsteps
  have hlock := hinv.lock
  rw [hl] at hlock
  cases hlock with
  | held t hin =>
      cases t with
      | sinhvien => exact .inl hin
      | voinuoc => exact .inr hin

theorem MainState.sinhvien_goes (hsv : s.sv = true)
    (h : s.taps.svPc ≠ .finished ∧ s.taps.svPc ≠ .failed)
    (hl : s.taps.svPc.inside = true ∨ s.taps.lock ≠ 0) : ∃ s', s.sinhvien true = .ok s' := by
  obtain ⟨t', ht⟩ := sinhvien_enabled s.line h (true && (!s.taps.svPc.opens || s.free)) hl
  unfold MainState.sinhvien
  rw [if_pos hsv]
  dsimp only
  rw [ht]
  exact ⟨_, rfl⟩

theorem MainState.voinuoc_goes (hvo : s.vo = true)
    (h : s.taps.voPc ≠ .finished ∧ s.taps.voPc ≠ .failed)
    (hl : s.taps.voPc.inside = true ∨ s.taps.lock ≠ 0) : ∃ s', s.voinuoc true = .ok s' := by
  obtain ⟨t', ht⟩ := voinuoc_enabled h (true && (!s.taps.voPc.opens || s.free)) hl
  unfold MainState.voinuoc
  rw [if_pos hvo]
  dsimp only
  rw [ht]
  exact ⟨_, rfl⟩

/-- One of the three can go on. -/
theorem Good.progress (h : Good inp s)
    (hsum : ∀ line ∈ lines (header inp).2 (header inp).1.toNat,
      ((numbers line).map decimal).sum < 2 ^ 31) (hfin : s.pc ≠ .finished) :
    ∃ a s', a.ok = true ∧ mainStep inp s a = .ok s' := by
  obtain ⟨r, hinv⟩ := h.inv
  have hok := hinv.ok
  obtain ⟨hsv, hvo⟩ := hinv.runs h.pc
  have hsound := h.sound
  unfold MainState.Sound at hsound
  have hinside : ∀ pc : VoPC, pc.inside = true → pc ≠ .finished := by
    rintro pc hin rfl
    cases hin
  by_cases hwait : (s.pc = .waitSv → s.taps.svPc = .finished) ∧
      (s.pc = .waitVo → s.taps.voPc = .finished)
  · obtain ⟨s', hs⟩ := main_enabled inp hwait.1 hwait.2 hfin h.pc
    exact ⟨.main true, s', rfl, hs⟩
  have hpc : s.pc = .waitSv ∧ s.taps.svPc ≠ .finished ∨ s.pc = .waitVo ∧ s.taps.voPc ≠ .finished := by
    by_contra hn
    rw [not_or, not_and, not_and] at hn
    exact hwait ⟨fun e => not_not.mp (hn.1 e), fun e => not_not.mp (hn.2 e)⟩
  rcases hpc with ⟨hpc, hne⟩ | ⟨hpc, hne⟩ <;> rw [hpc] at hok hsv hvo hsound
  · obtain ⟨hsf, hvf⟩ := hsound rfl
    by_cases hl : s.taps.svPc.inside = true ∨ s.taps.lock ≠ 0
    · obtain ⟨s', hs⟩ := MainState.sinhvien_goes hsv ⟨hne, hsf⟩ hl
      exact ⟨.sinhvien true, s', rfl, hs⟩
    · rw [not_or, not_not] at hl
      have hin := (hok.lock (hsum _ hok.line_mem) hl.2).resolve_left hl.1
      obtain ⟨s', hs⟩ := MainState.voinuoc_goes hvo ⟨hinside _ hin, hvf⟩ (.inl hin)
      exact ⟨.voinuoc true, s', rfl, hs⟩
  · obtain ⟨-, hvf⟩ := hsound rfl
    obtain ⟨hrun, hsvfin⟩ := hok
    have hl : s.taps.voPc.inside = true ∨ s.taps.lock ≠ 0 := by
      by_cases hl : s.taps.lock = 0
      · refine .inl ((hrun.lock (hsum _ hrun.line_mem) hl).resolve_left ?_)
        rw [hsvfin]
        exact Bool.noConfusion
      · exact .inr hl
    obtain ⟨s', hs⟩ := MainState.voinuoc_goes hvo ⟨hne, hvf⟩ hl
    exact ⟨.voinuoc true, s', rfl, hs⟩

/-- **With at most three lines nothing goes wrong**, when the numbers of each come to less than
`2 ^ 31`, the host refuses no file and the kernel no `Exec` and no semaphore, and `main` is in `Join`
before the program it waits for has exited: there is always room in the table of open files, so that
none of the three calls `Exit(-1)`, and one of them can always go on until `main` has finished. -/
theorem main_succeeds {line vn tmp out : List Byte} (hN : (header inp).1.toNat ≤ 3)
    (hsum : ∀ line ∈ lines (header inp).2 (header inp).1.toNat,
      ((numbers line).map decimal).sum < 2 ^ 31)
    (h : Steps (mainStep inp) OnTime (mainInit line vn tmp out) s) :
    s.pc ≠ .failed ∧ s.Sound ∧
      (s.pc ≠ .finished → ∃ a s', a.ok = true ∧ mainStep inp s a = .ok s') := by
  have hgood : Good inp s := by
    refine h.inv (I := Good inp) ⟨⟨0, mainInit_inv ..⟩, MainPC.noConfusion, Bool.noConfusion⟩ ?_
    intro s a s' hs hc hstep
    exact hs.step hN hsum hc hstep
  exact ⟨hgood.pc, hgood.sound, hgood.progress hsum⟩

/-- `main` is in `Join`, and `voinuoc` at the lock that `sinhvien` has. -/
theorem main_succeeds_line : ∃ s,
    run (mainStep [0x31, newline, 0x34, newline]) OnTime (mainInit [] [] [] [])
      (List.replicate 17 (.main true) ++ List.replicate 4 (.sinhvien true) ++
        List.replicate 3 (.voinuoc true)) = some s ∧
    s.pc = .waitSv ∧ s.taps.voPc = .wait ∧ s.taps.lock = 0 ∧
    ∃ a s', a.ok = true ∧ mainStep [0x31, newline, 0x34, newline] s a = .ok s' := by
  obtain ⟨s, hs, hpc, hvo, hl⟩ : ∃ s,
      run (mainStep [0x31, newline, 0x34, newline]) OnTime (mainInit [] [] [] [])
        (List.replicate 17 (.main true) ++ List.replicate 4 (.sinhvien true) ++
          List.replicate 3 (.voinuoc true)) = some s ∧
      s.pc = .waitSv ∧ s.taps.voPc = .wait ∧ s.taps.lock = 0 := ⟨_, rfl, rfl, rfl, rfl⟩
  refine ⟨s, hs, hpc, hvo, hl, (main_succeeds (by decide) sums_four (.of_run hs)).2.2 ?_⟩
  rw [hpc]
  exact MainPC.noConfusion

end

end Nachos.Taps
