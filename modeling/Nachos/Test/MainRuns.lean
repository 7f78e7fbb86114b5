import Nachos.Test.Main
import Nachos.Test.TapsRuns

/-!
# Test — what main writes, and how far it gets

The runs of the three programs together.  `MainOk` says, place by place, what `main` has done of its
`r` rounds; while the other two run on a line, they are a run of `Taps.step` on it, so that
`Taps.run_inv` applies to each round.

The table of open files is the resource they share: `sinhvien` does not close its input, so that every
round costs a slot.  `held` counts the slots by place.
-/

namespace Nachos.Taps
open Lib
open Syscall (isDigit digit writeFile)

/-! ### The table of open files -/

/-- The files `sinhvien` has open at its place. -/
def SvPC.held : SvPC → Nat
  | openSv | failed => 0
  | openVn | exit | finished => 1
  | _ => 2

def VoPC.held : VoPC → Nat
  | openVn | failed | finished => 0
  | createTmp | openTmp | closeTmp => 1
  | _ => 2

/-- The files `main` has open. -/
def MainPC.held : MainPC → Nat
  | createOut | createSem | openIn | exit | finished | failed => 0
  | openOut | closeOut => 1
  | createVn | read | write _ | closeSv | readTmp | writeTmp _ | closeTmp => 3
  | _ => 2

/-- `sinhvien` has been started in this round. -/
def MainPC.started : MainPC → Bool
  | execVo | joinSv | waitSv | joinVo | waitVo | openTmp | readTmp | writeTmp _ | closeTmp => true
  | _ => false

/-- It may be running. -/
def MainPC.svRuns : MainPC → Bool
  | execVo | joinSv | waitSv => true
  | _ => false

def MainPC.voRuns : MainPC → Bool
  | joinSv | waitSv | joinVo | waitVo => true
  | _ => false

/-- Neither place is between an `Exec` and its `Join`, and both are before the first or behind it. -/
def MainPC.near (pc pc' : MainPC) : Bool :=
  pc != .failed && !pc.svRuns && !pc'.svRuns && !pc.voRuns && !pc'.voRuns && pc'.started == pc.started

/-- `voinuoc` has read the end mark and written the last line. -/
def VoPC.past : VoPC → Bool
  | closeVn | closeTmp | finished => true
  | _ => false

/-- The slots that the two programs have taken in this round. -/
def MainState.held (s : MainState) : Nat :=
  if s.pc.started then s.taps.svPc.held + s.taps.voPc.held else 0

/-! ### What main has done -/

/-- What is written for a line. -/
def answer (line : List Byte) : List Byte := (greedy (positives (numbers line))).out ++ [newline]

/-- What `output.txt` holds. -/
def MainState.Wrote (s : MainState) (bytes : List Byte) : Prop :=
  s.out = bytes ∧ s.outOff = bytes.length

/-- For the first `r` lines. -/
def answers (inp : List Byte) (r : Nat) : List Byte := (lines (header inp).2 r).flatMap answer

/-- The round `r`, from 0 on, before its line is written. -/
structure Round (inp : List Byte) (s : MainState) (r : Nat) : Prop where
  left : s.n.toNat + r + 1 = (header inp).1.toNat
  wrote : s.Wrote (answers inp r)

/-- The line of the round has been copied. -/
structure Lined (inp : List Byte) (s : MainState) (r : Nat) : Prop where
  line : s.line = firstLine (behind (header inp).2 r)
  rest : inp.drop s.inOff = behind (header inp).2 (r + 1)

/-- The programs run on it. -/
structure Running (inp : List Byte) (s : MainState) (r : Nat) : Prop extends Round inp s r,
    Lined inp s r where
  taps : ∃ tmp, Steps (step s.line) always (init tmp) s.taps

/-- Both have finished. -/
structure Answered (inp : List Byte) (s : MainState) (r : Nat) : Prop extends Lined inp s r where
  left : s.n.toNat + r + 1 = (header inp).1.toNat
  lock : s.taps.lock = 1
  sv : s.taps.svPc = .finished
  vo : s.taps.voPc = .finished
  tmp : s.taps.tmp = answer s.line

/-- What `main` has done at its place, when it has been through `r` rounds. -/
def MainOk (inp : List Byte) (s : MainState) (r : Nat) : MainPC → Prop
  | .createOut => r = 0 ∧ s.inOff = 0 ∧ s.n = 0 ∧ s.taps.lock = 1
  | .createSem | .openIn | .openOut =>
      r = 0 ∧ s.inOff = 0 ∧ s.n = 0 ∧ s.taps.lock = 1 ∧ s.Wrote []
  | .skip => r = 0 ∧ s.n = 0 ∧ s.taps.lock = 1 ∧ s.Wrote [] ∧
      header inp = header (inp.drop s.inOff)
  | .digits => r = 0 ∧ s.taps.lock = 1 ∧ s.Wrote [] ∧
      header inp = headerDigits s.n (inp.drop s.inOff)
  | .createSv => Round inp s r ∧ s.taps.lock = 1 ∧ inp.drop s.inOff = behind (header inp).2 r
  | .openSv | .createVn => Round inp s r ∧ s.taps.lock = 1 ∧
      inp.drop s.inOff = behind (header inp).2 r ∧ s.line = [] ∧ s.lineOff = 0
  | .read => Round inp s r ∧ s.taps.lock = 1 ∧ s.taps.vn = [] ∧ s.lineOff = s.line.length ∧
      newline ∉ s.line ∧ behind (header inp).2 r = s.line ++ inp.drop s.inOff
  | .write c => Round inp s r ∧ s.taps.lock = 1 ∧ s.taps.vn = [] ∧ s.lineOff = s.line.length ∧
      newline ∉ s.line ∧ behind (header inp).2 r = s.line ++ c :: inp.drop s.inOff
  | .closeSv | .execSv => Round inp s r ∧ Lined inp s r ∧ s.taps.lock = 1 ∧ s.taps.vn = []
  | .execVo | .joinSv | .waitSv => Running inp s r
  | .joinVo | .waitVo => Running inp s r ∧ s.taps.svPc = .finished
  | .openTmp => Answered inp s r ∧ s.Wrote (answers inp r)
  | .readTmp => Answered inp s r ∧ s.Wrote (answers inp r ++ s.taps.tmp.take s.tmpOff)
  | .writeTmp c => Answered inp s r ∧ ∃ k, s.tmpOff = k + 1 ∧ s.taps.tmp[k]? = some c ∧
      s.Wrote (answers inp r ++ s.taps.tmp.take k)
  | .closeTmp => Answered inp s r ∧ s.Wrote (answers inp (r + 1))
  | .closeIn | .closeOut | .exit | .finished => r = (header inp).1.toNat ∧ s.Wrote (answers inp r)
  | .failed => True

/-- Neither program has called `Exit(-1)`. -/
def MainState.Sound (s : MainState) : Prop :=
  s.pc.started = true → s.taps.svPc ≠ .failed ∧ s.taps.voPc ≠ .failed

/-- The invariant.  The table has a slot for each open file, and one for each round; a program that
fails leaves more behind.  A round is only finished when it has found room in the table. -/
structure MainInv (inp : List Byte) (s : MainState) (r : Nat) : Prop where
  ok : MainOk inp s r s.pc
  runs : s.pc ≠ .failed → s.sv = s.pc.svRuns ∧ s.vo = s.pc.voRuns
  used : s.used ≤ tableSize
  slots : s.pc ≠ .failed → consoleSlots + s.pc.held + r + s.held ≤ s.used
  exact : s.pc ≠ .failed → s.Sound → s.used ≤ consoleSlots + s.pc.held + r + s.held
  rounds : r ≤ 4
  past : s.pc.started = true → s.taps.voPc.past = true → r ≤ 3

section
variable {inp : List Byte} {t t' : State} {ok : Bool}

/-- A call of `sinhvien` fails to open a file, or its slots change as the table says. -/
theorem sinhvien_held (hs : t.sinhvien inp ok = .ok t') :
    t'.voPc = t.voPc ∧ ((t'.svPc = .failed ∧ ok = false) ∨
      t'.svPc.held + t.svPc.closes.toNat = t.svPc.held + t.svPc.opens.toNat ∧
        (t.svPc.opens = true → ok = true) ∧ t'.svPc ≠ .failed) := by
  cases hpc : t.svPc <;> simp only [State.sinhvien, hpc] at hs
  case openSv => cases hs; cases ok <;> simp [State.gotoSv, SvPC.held, SvPC.closes, SvPC.opens]
  case openVn => cases hs; cases ok <;> simp [State.gotoSv, SvPC.held, SvPC.closes, SvPC.opens]
  case read =>
    split at hs <;> cases hs
    · split <;> simp [State.readSv, SvPC.held, SvPC.closes, SvPC.opens]
    · simp [State.gotoSv, SvPC.held, SvPC.closes, SvPC.opens]
  case readNext =>
    split at hs <;> cases hs
    · split <;> simp [State.readSv, SvPC.held, SvPC.closes, SvPC.opens]
    · simp [State.gotoSv, SvPC.held, SvPC.closes, SvPC.opens]
  case wait c =>
    obtain ⟨-, rfl⟩ := wait_ok hs
    simp [State.gotoSv, SvPC.held, SvPC.closes, SvPC.opens]
  case waitEnd =>
    obtain ⟨-, rfl⟩ := wait_ok hs
    simp [State.gotoSv, SvPC.held, SvPC.closes, SvPC.opens]
  case signal more =>
    cases hs
    cases more <;> simp [State.gotoSv, State.signal, SvPC.held, SvPC.closes, SvPC.opens]
  case finished => cases hs
  case failed => cases hs
  all_goals
    cases hs
    simp [State.gotoSv, State.writeVn, State.signal, SvPC.held, SvPC.closes, SvPC.opens]

theorem voinuoc_held (hs : t.voinuoc ok = .ok t') :
    t'.svPc = t.svPc ∧ ((t'.voPc = .failed ∧ ok = false) ∨
      t'.voPc.held + t.voPc.closes.toNat = t.voPc.held + t.voPc.opens.toNat ∧
        (t.voPc.opens = true → ok = true) ∧ t'.voPc ≠ .failed) := by
  cases hpc : t.voPc <;> simp only [State.voinuoc, hpc] at hs
  case openVn => cases hs; cases ok <;> simp [State.gotoVo, VoPC.held, VoPC.closes, VoPC.opens]
  case createTmp => cases hs; cases ok <;> simp [State.gotoVo, VoPC.held, VoPC.closes, VoPC.opens]
  case openTmp => cases hs; cases ok <;> simp [State.gotoVo, VoPC.held, VoPC.closes, VoPC.opens]
  case wait =>
    obtain ⟨-, rfl⟩ := wait_ok hs
    simp [State.gotoVo, VoPC.held, VoPC.closes, VoPC.opens]
  case skip =>
    split at hs <;> cases hs
    · split
      · simp [State.readVo, VoPC.held, VoPC.closes, VoPC.opens]
      · split <;> simp [State.readVo, VoPC.held, VoPC.closes, VoPC.opens]
    · simp [State.returns, VoPC.held, VoPC.closes, VoPC.opens]
  case digits res =>
    split at hs <;> cases hs
    · split <;> simp [State.readVo, State.returns, VoPC.held, VoPC.closes, VoPC.opens]
    · simp [State.returns, VoPC.held, VoPC.closes, VoPC.opens]
  case signal n =>
    cases hs
    split
    · simp [State.gotoVo, State.signal, VoPC.held, VoPC.closes, VoPC.opens]
    · unfold State.assign
      split <;> split <;> simp [State.signal, VoPC.held, VoPC.closes, VoPC.opens]
  case finished => cases hs
  case failed => cases hs
  all_goals
    cases hs
    simp [State.gotoVo, State.writeTmp, VoPC.held, VoPC.closes, VoPC.opens]

theorem SvOk.held_pos {rest : List Byte} {done : List (List Byte)} {cur fin : List Byte} {pc : SvPC}
    (h : SvOk inp rest done cur fin pc) (hf : fin ≠ []) : 1 ≤ pc.held := by
  cases pc with
  | signalEnd | close | exit | finished => simp [SvPC.held]
  | openSv | openVn => exact absurd h.2.2.2 hf
  | write | readNext => exact absurd h.2 hf
  | signal => exact absurd h.2.2.2 hf
  | _ => exact absurd h.2.2 hf

/-- When `voinuoc` has found the end mark, three files are open. -/
theorem past_held {done seen : List (List Byte)} {cur fin : List Byte}
    (h : Inv inp t done cur fin seen) (hs : t.voinuoc ok = .ok t') (hp : t'.voPc.past = true) :
    t.voPc.past = true ∨ 1 ≤ t.svPc.held ∧ t.voPc.held = 2 := by
  cases hpc : t.voPc
  case writeEnd =>
    have hvo := h.vo
    rw [hpc] at hvo
    exact .inr ⟨h.sv.held_pos hvo.2, rfl⟩
  case closeVn => exact .inl rfl
  case closeTmp => exact .inl rfl
  case finished => exact .inl rfl
  all_goals simp only [State.voinuoc, hpc] at hs
  case wait =>
    obtain ⟨-, rfl⟩ := wait_ok hs
    cases hp
  case skip =>
    split at hs <;> cases hs
    · split at hp
      · cases hp
      · simp only [State.readVo] at hp
        split at hp <;> cases hp
    · cases hp
  case digits res => split at hs <;> cases hs <;> [(split at hp <;> cases hp); cases hp]
  case signal n =>
    cases hs
    split at hp
    · cases hp
    · unfold State.assign at hp
      split at hp <;> simp only at hp <;> split at hp <;> cases hp
  case failed => cases hs
  all_goals
    cases hs
    cases ok <;> cases hp

theorem SvPC.closes_le_held (pc : SvPC) : pc.closes.toNat ≤ pc.held := by
  cases pc <;> first | exact Nat.zero_le _ | exact Nat.le_succ 1

theorem VoPC.closes_le_held (pc : VoPC) : pc.closes.toNat ≤ pc.held := by
  cases pc <;> first | exact Nat.zero_le _ | exact Nat.le_succ 1 | exact Nat.le_refl 1

end

section
variable {inp : List Byte} {s s' : MainState} {ok : Bool} {r x : Nat}

/-- What a call that opens or closes a file does to the table. -/
theorem slots_add {opens closes : Bool} (hle : closes.toNat ≤ s.used) (hoc : (opens && closes) = false)
    (hok : opens = true → ok = true) :
    s.slots opens closes ok + closes.toNat = s.used + opens.toNat := by
  unfold MainState.slots
  cases opens with
  | true =>
      cases closes with
      | true => cases hoc
      | false =>
          rw [hok rfl]
          rfl
  | false =>
      cases closes with
      | true => exact Nat.sub_add_cancel hle
      | false => rfl

theorem slots_fail {opens closes : Bool} {held : Nat} (hle : closes.toNat ≤ held)
    (hx : held + x ≤ s.used) : x ≤ s.slots opens closes false := by
  unfold MainState.slots
  rw [Bool.and_false, if_neg Bool.noConfusion]
  cases closes with
  | true =>
      rw [if_pos rfl]
      have : 1 ≤ held := hle
      omega
  | false => exact Nat.le_of_add_left_le hx

/-- A slot is only taken when one is free. -/
theorem slots_le (h : s.used ≤ tableSize) (opens closes ok : Bool) :
    s.slots opens closes (ok && (!opens || s.free)) ≤ tableSize := by
  unfold MainState.slots
  split
  · rename_i hc
    cases opens
    · cases hc
    · simp [MainState.free] at hc
      omega
  · split <;> omega

/-! ### The two programs -/

/-- The line of a round is one of the input. -/
theorem Running.line_mem (h : Running inp s r) :
    s.line ∈ lines (header inp).2 (header inp).1.toNat := by
  have hleft := h.left
  rw [h.line]
  exact List.mem_map.mpr ⟨r, List.mem_range.mpr (by omega), rfl⟩

/-- While `main` waits for the programs, they run on its line. -/
theorem MainOk.running {pc : MainPC} (h : MainOk inp s r pc)
    (hpc : pc.svRuns = true ∨ pc.voRuns = true) : Running inp s r ∧ pc.started = true ∧ pc.held = 2 := by
  cases pc with
  | execVo | joinSv | waitSv => exact ⟨h, rfl, rfl⟩
  | joinVo | waitVo => exact ⟨h.1, rfl, rfl⟩
  | _ => rcases hpc with hpc | hpc <;> cases hpc

theorem MainOk.of_running {s' : MainState} {pc : MainPC} (h : MainOk inp s r pc)
    (hpc : pc.svRuns = true ∨ pc.voRuns = true) (hr : Running inp s' r)
    (hsv : s.taps.svPc = .finished → s'.taps.svPc = .finished) : MainOk inp s' r pc := by
  cases pc with
  | execVo | joinSv | waitSv => exact hr
  | joinVo | waitVo => exact ⟨hr, hsv h.2⟩
  | _ => rcases hpc with hpc | hpc <;> cases hpc

/-- A call of one of the two, which has `held` of the files `held + y` that the two have open. -/
theorem MainInv.child (h : MainInv inp s r) (hf : s.pc ≠ .failed)
    (hpc : s.pc.svRuns = true ∨ s.pc.voRuns = true) {t : State} {a : Action}
    (ht : step s.line s.taps a = .ok t) (hsv : s.taps.svPc = .finished → t.svPc = .finished)
    {opens closes : Bool} {held held' y : Nat} (hle : closes.toNat ≤ held)
    (hoc : (opens && closes) = false) (hheld : s.taps.svPc.held + s.taps.voPc.held = held + y)
    (hheld' : t.svPc.held + t.voPc.held = held' + y)
    (hcases : (held' = 0 ∧ ok = false ∧ (t.svPc = .failed ∨ t.voPc = .failed)) ∨
      held' + closes.toNat = held + opens.toNat ∧ (opens = true → ok = true) ∧
        (t.svPc ≠ .failed → t.voPc ≠ .failed → s.taps.svPc ≠ .failed ∧ s.taps.voPc ≠ .failed))
    (hused : s.slots opens closes ok ≤ tableSize) (hpast : t.voPc.past = true → r ≤ 3) :
    MainInv inp { s with taps := t, used := s.slots opens closes ok } r := by
  obtain ⟨hrun, hst, hpcheld⟩ := h.ok.running hpc
  have hslots := h.slots hf
  have hexact := h.exact hf
  unfold MainState.held at hslots hexact
  rw [if_pos hst, hpcheld, hheld] at hslots hexact
  refine ⟨h.ok.of_running hpc ⟨⟨hrun.left, hrun.wrote⟩, ⟨hrun.line, hrun.rest⟩, ?_⟩ hsv,
    fun _ => h.runs hf, hused, fun _ => ?_, fun _ hsound => ?_, h.rounds, fun _ hp => hpast hp⟩
  · obtain ⟨tmp, hsteps⟩ := hrun.taps
    exact ⟨tmp, hsteps.tail trivial ht⟩
  · unfold MainState.held
    dsimp only
    rw [if_pos hst, hpcheld, hheld']
    rcases hcases with ⟨rfl, rfl, -⟩ | ⟨he, ho, -⟩
    · have : consoleSlots + 2 + r + y ≤ s.slots opens closes false := slots_fail hle (by omega)
      omega
    · have := slots_add (s := s) (by omega) hoc ho
      omega
  · unfold MainState.held
    dsimp only
    rw [if_pos hst, hpcheld, hheld']
    obtain ⟨h₁, h₂⟩ := hsound hst
    rcases hcases with ⟨-, -, hfail | hfail⟩ | ⟨he, ho, hback⟩
    · exact absurd hfail h₁
    · exact absurd hfail h₂
    · have := slots_add (s := s) (by omega) hoc ho
      have := hexact fun _ => hback h₁ h₂
      omega

/-- `main` has given up; the others go on. -/
theorem MainInv.after (h : MainInv inp s r) (hf : s.pc = .failed) {t : State} {used : Nat}
    (hused : used ≤ tableSize) : MainInv inp { s with taps := t, used := used } r := by
  refine ⟨?_, fun hn => absurd hf hn, hused, fun hn => absurd hf hn, fun hn => absurd hf hn, h.rounds,
    fun hst => ?_⟩
  · show MainOk _ _ _ s.pc
    rw [hf]
    trivial
  · rw [show s.pc = .failed from hf] at hst
    cases hst

theorem MainInv.sinhvien (h : MainInv inp s r) (hs : s.sinhvien ok = .ok s') :
    MainInv inp s' r ∧ s'.pc = s.pc := by
  unfold MainState.sinhvien at hs
  split at hs
  swap
  · cases hs
  rename_i hsv
  obtain ⟨t, ht, rfl⟩ := map_ok hs
  have hused := slots_le h.used s.taps.svPc.opens s.taps.svPc.closes ok
  refine ⟨?_, rfl⟩
  by_cases hf : s.pc = .failed
  · exact h.after hf hused
  obtain ⟨hruns, -⟩ := h.runs hf
  obtain ⟨hvo, hcases⟩ := sinhvien_held ht
  have hfin : s.taps.svPc ≠ .finished ∧ s.taps.svPc ≠ .failed := by
    constructor <;> intro hfin <;> rw [State.sinhvien, hfin] at ht <;> cases ht
  refine h.child hf (.inl (hruns.symm.trans hsv)) (a := .sinhvien _) ht
    (fun hc => absurd hc hfin.1) s.taps.svPc.closes_le_held (by cases s.taps.svPc <;> rfl) rfl
    (by rw [hvo]) ?_ hused fun hp => h.past ?_ (hvo ▸ hp)
  · rcases hcases with ⟨hc, hno⟩ | ⟨he, ho, -⟩
    · exact .inl ⟨congrArg SvPC.held hc, hno, .inl hc⟩
    · exact .inr ⟨he, ho, fun _ hn => ⟨hfin.2, hvo ▸ hn⟩⟩
  · exact (h.ok.running (.inl (hruns.symm.trans hsv))).2.1

theorem MainInv.voinuoc (h : MainInv inp s r)
    (hsum : ∀ line ∈ lines (header inp).2 (header inp).1.toNat,
      ((numbers line).map decimal).sum < 2 ^ 31) (hs : s.voinuoc ok = .ok s') :
    MainInv inp s' r ∧ s'.pc = s.pc := by
  unfold MainState.voinuoc at hs
  split at hs
  swap
  · cases hs
  rename_i hvo
  obtain ⟨t, ht, rfl⟩ := map_ok hs
  have hused := slots_le h.used s.taps.voPc.opens s.taps.voPc.closes ok
  refine ⟨?_, rfl⟩
  by_cases hf : s.pc = .failed
  · exact h.after hf hused
  obtain ⟨-, hruns⟩ := h.runs hf
  obtain ⟨hrun, hst, hheld⟩ := h.ok.running (.inr (hruns.symm.trans hvo))
  obtain ⟨hsv, hcases⟩ := voinuoc_held ht
  have hnot : s.taps.voPc ≠ .failed := by
    intro hfin
    rw [State.voinuoc, hfin] at ht
    cases ht
  refine h.child hf (.inr (hruns.symm.trans hvo)) (a := .voinuoc _) ht (fun hc => hsv.trans hc)
    s.taps.voPc.closes_le_held (by cases s.taps.voPc <;> rfl) (Nat.add_comm ..)
    (by rw [hsv, Nat.add_comm]) ?_ hused fun hp => ?_
  · rcases hcases with ⟨hc, hno⟩ | ⟨he, ho, -⟩
    · exact .inl ⟨congrArg VoPC.held hc, hno, .inr hc⟩
    · exact .inr ⟨he, ho, fun hn _ => ⟨hsv ▸ hn, hnot⟩⟩
  · -- the end mark has been found while the files of both are open
    obtain ⟨tmp, hsteps⟩ := hrun.taps
    obtain ⟨done, cur, fin, seen, hinv⟩ := run_inv (hsum _ hrun.line_mem) hsteps
    rcases past_held hinv ht hp with hpast | ⟨h₁, h₂⟩
    · exact h.past hst hpast
    · have hslots := h.slots hf
      have hle := h.used
      unfold MainState.held at hslots
      rw [if_pos hst, hheld, h₂] at hslots
      have hmax : tableSize = 10 := rfl
      have hcons : consoleSlots = 2 := rfl
      omega

/-! ### main -/

/-- What a call of `main` does to the rest of the invariant, when it gets to another place. -/
structure Moves (s s' : MainState) (r r' : Nat) : Prop where
  runs : s'.sv = s'.pc.svRuns ∧ s'.vo = s'.pc.voRuns
  used : s'.used ≤ tableSize
  slots : s'.pc.held + r' + s'.held + s.used = s.pc.held + r + s.held + s'.used
  sound : s'.Sound → s.Sound
  rounds : r' ≤ 4
  past : s'.pc.started = true → s'.taps.voPc.past = true → r' ≤ 3

theorem MainInv.moves {r' : Nat} (h : MainInv inp s r) (hf : s.pc ≠ .failed)
    (hok : MainOk inp s' r' s'.pc) (hm : Moves s s' r r') : MainInv inp s' r' := by
  have heq := hm.slots
  refine ⟨hok, fun _ => hm.runs, hm.used, fun _ => ?_, fun _ hs => ?_, hm.rounds, hm.past⟩
  · have := h.slots hf
    omega
  · have := h.exact hf (hm.sound hs)
    omega

theorem MainInv.fail (h : MainInv inp s r) : MainInv inp (s.goto .failed) r :=
  ⟨trivial, fun hn => absurd rfl hn, h.used, fun hn => absurd rfl hn, fun hn => absurd rfl hn, h.rounds,
    fun hst => Bool.noConfusion hst⟩

/-- `main` goes on to a near place, and has `s'.pc.held` files open instead of `s.pc.held`. -/
theorem MainInv.goes (h : MainInv inp s r) {pc : MainPC} (hpc : s.pc = pc)
    (hnear : pc.near s'.pc = true)
    (hsame : s'.sv = s.sv ∧ s'.vo = s.vo ∧ s'.taps.svPc = s.taps.svPc ∧ s'.taps.voPc = s.taps.voPc)
    (hle : s'.used ≤ tableSize) (hheld : s'.pc.held + s.used = pc.held + s'.used)
    (hok : MainOk inp s' r s'.pc) : MainInv inp s' r := by
  subst hpc
  simp only [MainPC.near, Bool.and_eq_true, Bool.not_eq_true', bne_iff_ne, beq_iff_eq] at hnear
  obtain ⟨⟨⟨⟨⟨hf, hsv⟩, hsv'⟩, hvo⟩, hvo'⟩, hst⟩ := hnear
  obtain ⟨e₁, e₂, e₃, e₄⟩ := hsame
  obtain ⟨h₁, h₂⟩ := h.runs hf
  refine h.moves hf hok ⟨⟨?_, ?_⟩, hle, ?_, fun hs => ?_, h.rounds, fun hs hp => ?_⟩
  · rw [e₁, h₁, hsv, hsv']
  · rw [e₂, h₂, hvo, hvo']
  · have : s'.held = s.held := by
      unfold MainState.held
      rw [hst, e₃, e₄]
    omega
  · intro h'
    have := hs (hst.trans h')
    rwa [e₃, e₄] at this
  · exact h.past (hst.symm.trans hs) (e₄ ▸ hp)

/-- A call that leaves the table as it is. -/
theorem MainInv.calls (h : MainInv inp s r) {pc : MainPC} (hpc : s.pc = pc)
    (hnear : pc.near s'.pc = true)
    (hsame : s'.sv = s.sv ∧ s'.vo = s.vo ∧ s'.taps.svPc = s.taps.svPc ∧ s'.taps.voPc = s.taps.voPc)
    (hused : s'.used = s.used) (hheld : s'.pc.held = pc.held) (hok : MainOk inp s' r s'.pc) :
    MainInv inp s' r :=
  h.goes hpc hnear hsame (hused ▸ h.used) (by rw [hheld, hused]) hok

/-- An `Open` of `main`. -/
theorem MainInv.opened (h : MainInv inp s r) {pc pc' : MainPC} (hpc : s.pc = pc)
    (hnear : pc.near pc' = true) (hheld : pc'.held = pc.held + 1)
    (hok : MainOk inp { s with used := s.used + 1, pc := pc' } r pc') :
    MainInv inp (s.opened ok pc') r := by
  unfold MainState.opened
  split
  · rename_i hc
    rw [Bool.and_eq_true] at hc
    refine h.goes hpc hnear ⟨rfl, rfl, rfl, rfl⟩ (of_decide_eq_true hc.2) ?_ hok
    show pc'.held + s.used = pc.held + (s.used + 1)
    omega
  · exact h.fail

/-- A `Close`. -/
theorem MainInv.closed (h : MainInv inp s r) {pc pc' : MainPC} (hpc : s.pc = pc)
    (hnear : pc.near pc' = true) (hheld : pc'.held + 1 = pc.held)
    (hok : MainOk inp { s with used := s.used - 1, pc := pc' } r pc') :
    MainInv inp (s.closed pc') r := by
  refine h.goes hpc hnear ⟨rfl, rfl, rfl, rfl⟩ (Nat.le_trans (Nat.sub_le ..) h.used) ?_ hok
  have hf : s.pc ≠ .failed := by
    rw [hpc]
    rintro rfl
    cases hnear
  have := h.slots hf
  rw [hpc] at this
  show pc'.held + s.used = pc.held + (s.used - 1)
  omega

/-- `while (n--)`. -/
theorem MainOk.round (hn : s.n.toNat + r = (header inp).1.toNat) (hl : s.taps.lock = 1)
    (hdrop : inp.drop s.inOff = behind (header inp).2 r) (hw : s.Wrote (answers inp r)) :
    MainOk inp s.round r s.round.pc := by
  unfold MainState.round
  by_cases h0 : s.n = 0
  · rw [if_pos h0]
    rw [h0] at hn
    exact ⟨by simpa using hn, hw⟩
  · rw [if_neg h0]
    refine ⟨⟨?_, hw⟩, hl, hdrop⟩
    have hpos : s.n.toNat ≠ 0 := fun e => h0 (BitVec.eq_of_toNat_eq e)
    have hlt := s.n.isLt
    show (s.n - 1).toNat + r + 1 = _
    rw [BitVec.toNat_sub, show (1 : Word).toNat = 1 from rfl]
    omega

/-! ### The header of the input -/

theorem headerDigits_digit {n : Word} {c : Byte} {rest : List Byte} (h : isDigit c = true) :
    headerDigits n (c :: rest) = headerDigits (n * 10 + digit c) rest := by
  unfold headerDigits
  rw [List.takeWhile_cons_of_pos h, List.dropWhile_cons_of_pos h]
  rfl

theorem headerDigits_end {n : Word} {c : Byte} {rest : List Byte} (h : isDigit c = false) :
    headerDigits n (c :: rest) = (n, rest) := by
  unfold headerDigits
  rw [List.takeWhile_cons_of_neg (by rw [h]; exact Bool.noConfusion),
    List.dropWhile_cons_of_neg (by rw [h]; exact Bool.noConfusion)]
  rfl

theorem header_digit {c : Byte} {rest : List Byte} (h : isDigit c = true) :
    header (c :: rest) = headerDigits (digit c) rest := by
  unfold header
  rw [List.dropWhile_cons_of_neg (by rw [h]; exact Bool.noConfusion), headerDigits_digit h]
  congr 1
  exact BitVec.zero_add _

theorem header_skip {c : Byte} {rest : List Byte} (h : isDigit c = false) :
    header (c :: rest) = header rest := by
  unfold header
  rw [List.dropWhile_cons_of_pos (by rw [h]; rfl)]

theorem round_pc (s : MainState) : s.round.pc = .closeIn ∨ s.round.pc = .createSv := by
  unfold MainState.round
  split
  · exact .inl rfl
  · exact .inr rfl

theorem round_quiet (s : MainState) : s.round.pc.svRuns = false ∧ s.round.pc.voRuns = false ∧
    s.round.pc.started = false ∧ s.round.pc.held = 2 := by
  rcases round_pc s with e | e <;> rw [e] <;> exact ⟨rfl, rfl, rfl, rfl⟩

/-- Behind `read_unsigned_integer`. -/
theorem MainInv.begin (h : MainInv inp s 0) (hpc : s.pc = .skip ∨ s.pc = .digits)
    (hl : s.taps.lock = 1) (hw : s.Wrote []) {off : Nat} (hhead : header inp = (s.n, inp.drop off)) :
    MainInv inp { s with inOff := off }.round 0 := by
  have hok : MainOk inp { s with inOff := off }.round 0 { s with inOff := off }.round.pc := by
    refine MainOk.round ?_ hl ?_ hw
    · rw [hhead]
      rfl
    · rw [hhead]
      rfl
  have hpc' := round_pc { s with inOff := off }
  rcases hpc with hpc | hpc
  · exact h.calls hpc (by rcases hpc' with e | e <;> rw [e] <;> rfl) ⟨rfl, rfl, rfl, rfl⟩ rfl
      (by rcases hpc' with e | e <;> rw [e] <;> rfl) hok
  · exact h.calls hpc (by rcases hpc' with e | e <;> rw [e] <;> rfl) ⟨rfl, rfl, rfl, rfl⟩ rfl
      (by rcases hpc' with e | e <;> rw [e] <;> rfl) hok

theorem MainInv.skip_step (h : MainInv inp s r) (hpc : s.pc = .skip)
    (hs : s.main inp ok = .ok s') : MainInv inp s' r := by
  have hok := h.ok
  rw [hpc] at hok
  obtain ⟨rfl, hn, hl, hw, hhead⟩ := hok
  simp only [MainState.main, hpc] at hs
  rcases read_cases inp s.inOff with ⟨c, hc, hdrop⟩ | ⟨hc, hdrop⟩ <;> rw [hc] at hs <;> cases hs
  · rw [hdrop] at hhead
    split
    · rename_i hdig
      rw [header_digit hdig] at hhead
      exact h.calls hpc rfl ⟨rfl, rfl, rfl, rfl⟩ rfl rfl ⟨rfl, hl, hw, hhead⟩
    · rename_i hdig
      rw [header_skip (Bool.eq_false_iff.mpr hdig)] at hhead
      exact h.calls hpc rfl ⟨rfl, rfl, rfl, rfl⟩ rfl rfl ⟨rfl, hn, hl, hw, hhead⟩
  · refine h.begin (.inl hpc) hl hw ?_
    rw [hhead, hdrop, hn]
    rfl

theorem MainInv.digits_step (h : MainInv inp s r) (hpc : s.pc = .digits)
    (hs : s.main inp ok = .ok s') : MainInv inp s' r := by
  have hok := h.ok
  rw [hpc] at hok
  obtain ⟨rfl, hl, hw, hhead⟩ := hok
  simp only [MainState.main, hpc] at hs
  rcases read_cases inp s.inOff with ⟨c, hc, hdrop⟩ | ⟨hc, hdrop⟩ <;> rw [hc] at hs <;> cases hs
  · rw [hdrop] at hhead
    split
    · rename_i hdig
      rw [headerDigits_digit hdig] at hhead
      exact h.calls hpc rfl ⟨rfl, rfl, rfl, rfl⟩ rfl rfl ⟨rfl, hl, hw, hhead⟩
    · rename_i hdig
      rw [headerDigits_end (Bool.eq_false_iff.mpr hdig)] at hhead
      exact h.begin (.inr hpc) hl hw hhead
  · refine h.begin (.inr hpc) hl hw ?_
    rw [hhead, hdrop]
    rfl

/-- The files of the program are made and opened. -/
theorem MainInv.start_step (h : MainInv inp s r)
    (hpc : s.pc = .createOut ∨ s.pc = .createSem ∨ s.pc = .openIn ∨ s.pc = .openOut)
    (hs : s.main inp ok = .ok s') : MainInv inp s' r := by
  have hok := h.ok
  rcases hpc with hpc | hpc | hpc | hpc <;> rw [hpc] at hok <;>
    simp only [MainState.main, hpc] at hs <;> cases hs
  · obtain ⟨hr, hoff, hn, hl⟩ := hok
    cases ok
    · exact h.fail
    · exact h.calls hpc rfl ⟨rfl, rfl, rfl, rfl⟩ rfl rfl ⟨hr, hoff, hn, hl, rfl, rfl⟩
  · obtain ⟨hr, hoff, hn, -, hw⟩ := hok
    cases ok
    · exact h.fail
    · exact h.calls hpc rfl ⟨rfl, rfl, rfl, rfl⟩ rfl rfl ⟨hr, hoff, hn, rfl, hw⟩
  · exact h.opened hpc rfl rfl hok
  · obtain ⟨hr, hoff, hn, hl, hw⟩ := hok
    refine h.opened hpc rfl rfl ⟨hr, hn, hl, hw, ?_⟩
    show header inp = header (inp.drop s.inOff)
    rw [hoff]
    rfl

/-! ### The lines of the input -/

theorem no_newline {pre : List Byte} (h : newline ∉ pre) : ∀ c ∈ pre, (c == newline) = false :=
  fun _ hc => beq_false_of_ne fun he => h (he ▸ hc)

theorem firstLine_newline {pre rest : List Byte} (h : newline ∉ pre) :
    firstLine (pre ++ newline :: rest) = pre ++ [newline] := by
  unfold firstLine
  rw [through_append (no_newline h), through_cons_pos (p := (· == newline)) (a := newline) BEq.rfl]

theorem firstLine_all {pre : List Byte} (h : newline ∉ pre) : firstLine pre = pre := by
  have := through_append (l := []) (no_newline h)
  rw [List.append_nil] at this
  exact this.trans (List.append_nil _)

theorem behind_succ {text line rest : List Byte} {k : Nat} (h : behind text k = line ++ rest)
    (hl : firstLine (behind text k) = line) : behind text (k + 1) = rest := by
  unfold behind
  rw [hl, h, List.drop_left]

/-- The line is copied. -/
theorem MainInv.copy_step (h : MainInv inp s r)
    (hpc : s.pc = .createSv ∨ s.pc = .openSv ∨ s.pc = .createVn ∨ s.pc = .read ∨ s.pc = .closeSv)
    (hs : s.main inp ok = .ok s') : MainInv inp s' r := by
  have hok := h.ok
  rcases hpc with hpc | hpc | hpc | hpc | hpc <;> rw [hpc] at hok <;>
    simp only [MainState.main, hpc] at hs
  · cases hs
    obtain ⟨hround, hl, hrest⟩ := hok
    cases ok
    · exact h.fail
    · exact h.calls hpc rfl ⟨rfl, rfl, rfl, rfl⟩ rfl rfl
        ⟨⟨hround.left, hround.wrote⟩, hl, hrest, rfl, rfl⟩
  · cases hs
    obtain ⟨hround, hl, hrest, hline⟩ := hok
    exact h.opened hpc rfl rfl ⟨⟨hround.left, hround.wrote⟩, hl, hrest, hline⟩
  · cases hs
    obtain ⟨hround, hl, hrest, hline, hoff⟩ := hok
    cases ok
    · exact h.fail
    · refine h.calls hpc rfl ⟨rfl, rfl, rfl, rfl⟩ rfl rfl
        ⟨⟨hround.left, hround.wrote⟩, hl, rfl, ?_, ?_, ?_⟩
      · exact hoff.trans (congrArg List.length hline).symm
      · show newline ∉ s.line
        rw [hline]
        exact List.not_mem_nil
      · exact hrest.symm.trans (congrArg (· ++ inp.drop s.inOff) hline).symm
  · obtain ⟨hround, hl, hvn, hoff, hnl, hrest⟩ := hok
    rcases read_cases inp s.inOff with ⟨c, hc, hdrop⟩ | ⟨hc, hdrop⟩ <;> rw [hc] at hs <;> cases hs <;>
      rw [hdrop] at hrest
    · exact h.calls hpc rfl ⟨rfl, rfl, rfl, rfl⟩ rfl rfl
        ⟨⟨hround.left, hround.wrote⟩, hl, hvn, hoff, hnl, hrest⟩
    · have hfirst : firstLine (behind (header inp).2 r) = s.line := by
        rw [hrest, List.append_nil, firstLine_all hnl]
      exact h.calls hpc rfl ⟨rfl, rfl, rfl, rfl⟩ rfl rfl
        ⟨⟨hround.left, hround.wrote⟩, ⟨hfirst.symm, hdrop.trans (behind_succ hrest hfirst).symm⟩, hl, hvn⟩
  · cases hs
    obtain ⟨hround, hlined, hl, hvn⟩ := hok
    exact h.closed hpc rfl rfl
      ⟨⟨hround.left, hround.wrote⟩, ⟨hlined.line, hlined.rest⟩, hl, hvn⟩

theorem MainInv.write_step (h : MainInv inp s r) {c : Byte} (hpc : s.pc = .write c)
    (hs : s.main inp ok = .ok s') : MainInv inp s' r := by
  have hok := h.ok
  rw [hpc] at hok
  obtain ⟨hround, hl, hvn, hoff, hnl, hrest⟩ := hok
  have hline : writeFile s.line s.lineOff [c] = s.line ++ [c] := by
    rw [hoff, Syscall.writeFile_end]
  simp only [MainState.main, hpc, hline] at hs
  cases hs
  have hsnoc : behind (header inp).2 r = (s.line ++ [c]) ++ inp.drop s.inOff := by
    rw [hrest, List.append_assoc]
    rfl
  split
  · rename_i hc
    subst hc
    have hfirst : firstLine (behind (header inp).2 r) = s.line ++ [newline] := by
      rw [hrest, firstLine_newline hnl]
    exact h.calls hpc rfl ⟨rfl, rfl, rfl, rfl⟩ rfl rfl
      ⟨⟨hround.left, hround.wrote⟩, ⟨hfirst.symm, (behind_succ hsnoc hfirst).symm⟩, hl, hvn⟩
  · rename_i hc
    refine h.calls hpc rfl ⟨rfl, rfl, rfl, rfl⟩ rfl rfl
      ⟨⟨hround.left, hround.wrote⟩, hl, hvn, ?_, ?_, hsnoc⟩
    · show s.lineOff + 1 = (s.line ++ [c]).length
      rw [hoff, List.length_append, List.length_singleton]
    · intro hmem
      rcases List.mem_append.mp hmem with hmem | hmem
      · exact hnl hmem
      · exact hc (List.mem_singleton.mp hmem).symm

/-! ### The children -/

/-- The state in which the programs are started is a first state of theirs. -/
theorem start_taps (hl : s.taps.lock = 1) (hvn : s.taps.vn = []) :
    { init s.taps.tmp with lock := s.taps.lock, vn := s.taps.vn } = init s.taps.tmp := by
  rw [hl, hvn]
  rfl

/-- `Exec`. -/
theorem MainInv.exec_step (h : MainInv inp s r) (hpc : s.pc = .execSv ∨ s.pc = .execVo)
    (hs : s.main inp ok = .ok s') : MainInv inp s' r := by
  have hok := h.ok
  rcases hpc with hpc | hpc <;> rw [hpc] at hok <;> simp only [MainState.main, hpc] at hs <;> cases hs
  · obtain ⟨hround, hlined, hl, hvn⟩ := hok
    cases ok
    · exact h.fail
    · have hf : s.pc ≠ .failed := by rw [hpc]; exact MainPC.noConfusion
      have hst : s.pc.started = false := by rw [hpc]; rfl
      obtain ⟨-, hvo⟩ := h.runs hf
      refine h.moves hf ⟨⟨hround.left, hround.wrote⟩, ⟨hlined.line, hlined.rest⟩, s.taps.tmp, ?_⟩
        ⟨⟨rfl, hvo.trans (by rw [hpc]; rfl)⟩, h.used, ?_, fun _ he => ?_, h.rounds, fun _ hp => ?_⟩
      · show Steps _ _ _ { init s.taps.tmp with lock := s.taps.lock, vn := s.taps.vn }
        rw [start_taps hl hvn]
        exact .refl
      · have hheld : s.held = 0 := by
          unfold MainState.held
          rw [hst]
          rfl
        rw [hheld, hpc]
        rfl
      · rw [hst] at he
        cases he
      · cases hp
  · cases ok
    · exact h.fail
    · have hf : s.pc ≠ .failed := by rw [hpc]; exact MainPC.noConfusion
      obtain ⟨hsv, -⟩ := h.runs hf
      refine h.moves hf ⟨⟨hok.left, hok.wrote⟩, ⟨hok.line, hok.rest⟩, hok.taps⟩
        ⟨⟨hsv.trans (by rw [hpc]; rfl), rfl⟩, h.used, ?_, fun hsound _ => hsound rfl, h.rounds,
          fun _ hp => h.past (by rw [hpc]; rfl) hp⟩
      unfold MainState.held
      rw [hpc]
      rfl

/-- When both have finished, the line has been answered. -/
theorem Running.answered (h : Running inp s r) (hsum : ((numbers s.line).map decimal).sum < 2 ^ 31)
    (hsv : s.taps.svPc = .finished) (hvo : s.taps.voPc = .finished) : Answered inp s r := by
  obtain ⟨tmp, hsteps⟩ := h.taps
  obtain ⟨done, cur, fin, seen, hinv⟩ := run_inv hsum hsteps
  have h₁ := hinv.sv
  have h₂ := hinv.vo
  have h₃ := hinv.out
  have hlock := hinv.lock
  rw [hsv, hvo] at hlock
  rw [hsv] at h₁
  rw [hvo] at h₂ h₃
  refine ⟨⟨h.line, h.rest⟩, h.left, ?_, hsv, hvo, ?_⟩
  · generalize s.taps.lock = v at hlock
    cases hlock with
    | free => rfl
    | held t hin => cases t <;> cases hin
  · rw [answer, h₁.1, h₂.1]
    exact h₃

/-- While the children are there, `main` only waits for them. -/
theorem MainInv.joins (h : MainInv inp s r) (hst : s.pc.started = true) (pc : MainPC)
    (hpc : pc.started = true) (hheld : pc.held = s.pc.held) {sv vo : Bool} (hsv : sv = pc.svRuns)
    (hvo : vo = pc.voRuns) (hok : MainOk inp { s with pc := pc, sv := sv, vo := vo } r pc) :
    MainInv inp { s with pc := pc, sv := sv, vo := vo } r := by
  have hf : s.pc ≠ .failed := by
    intro hf
    rw [hf] at hst
    cases hst
  refine h.moves hf hok ⟨⟨hsv, hvo⟩, h.used, ?_, fun hsound _ => hsound hpc, h.rounds,
    fun _ hp => h.past hst hp⟩
  unfold MainState.held
  dsimp only
  rw [hpc, hst, hheld]

/-- `Join`. -/
theorem MainInv.join_step (h : MainInv inp s r)
    (hsum : ∀ line ∈ lines (header inp).2 (header inp).1.toNat,
      ((numbers line).map decimal).sum < 2 ^ 31)
    (hpc : s.pc = .joinSv ∨ s.pc = .waitSv ∨ s.pc = .joinVo ∨ s.pc = .waitVo)
    (hs : s.main inp ok = .ok s') : MainInv inp s' r := by
  have hok := h.ok
  have hruns := h.runs
  have hkeep := h.joins
  rcases hpc with hpc | hpc | hpc | hpc <;> rw [hpc] at hok hruns hkeep <;>
    obtain ⟨hsv, hvo⟩ := hruns MainPC.noConfusion <;> simp only [MainState.main, hpc] at hs
  · cases hs
    split
    · exact h.fail
    · exact hkeep rfl .waitSv rfl rfl hsv hvo
        ⟨⟨hok.left, hok.wrote⟩, ⟨hok.line, hok.rest⟩, hok.taps⟩
  · split at hs
    · rename_i hfin
      cases hs
      exact hkeep rfl .joinVo rfl rfl rfl hvo
        ⟨⟨⟨hok.left, hok.wrote⟩, ⟨hok.line, hok.rest⟩, hok.taps⟩, hfin⟩
    · split at hs <;> cases hs
      exact h.fail
  · cases hs
    obtain ⟨hrun, hfin⟩ := hok
    split
    · exact h.fail
    · exact hkeep rfl .waitVo rfl rfl hsv hvo
        ⟨⟨⟨hrun.left, hrun.wrote⟩, ⟨hrun.line, hrun.rest⟩, hrun.taps⟩, hfin⟩
  · obtain ⟨hrun, hsvfin⟩ := hok
    split at hs
    · rename_i hfin
      cases hs
      have ha := hrun.answered (hsum _ hrun.line_mem) hsvfin hfin
      exact hkeep rfl .openTmp rfl rfl hsv rfl
        ⟨⟨⟨ha.line, ha.rest⟩, ha.left, ha.lock, ha.sv, ha.vo, ha.tmp⟩, hrun.wrote⟩
    · split at hs <;> cases hs
      exact h.fail

/-! ### The answer -/

theorem answers_succ (inp : List Byte) (r : Nat) :
    answers inp (r + 1) = answers inp r ++ answer (firstLine (behind (header inp).2 r)) := by
  unfold answers lines
  rw [List.range_succ, List.map_append, List.flatMap_append, List.map_singleton, List.flatMap_singleton]

theorem Answered.same (h : Answered inp s r) (hn : s'.n = s.n) (hl : s'.line = s.line)
    (hi : s'.inOff = s.inOff) (ht : s'.taps = s.taps) : Answered inp s' r := by
  refine ⟨⟨?_, ?_⟩, ?_, ?_, ?_, ?_, ?_⟩
  · rw [hl, h.line]
  · rw [hi, h.rest]
  · rw [hn, h.left]
  · rw [ht, h.lock]
  · rw [ht, h.sv]
  · rw [ht, h.vo]
  · rw [ht, hl, h.tmp]

theorem Wrote.write {bytes : List Byte} (h : s.Wrote bytes) (more : List Byte) :
    writeFile s.out s.outOff more = bytes ++ more ∧ s.outOff + more.length = (bytes ++ more).length := by
  obtain ⟨rfl, h₂⟩ := h
  rw [h₂, Syscall.writeFile_end, List.length_append]
  exact ⟨rfl, rfl⟩

/-- `tmp.txt` is copied to the output. -/
theorem MainInv.tmp_step (h : MainInv inp s r) (hpc : s.pc = .openTmp ∨ s.pc = .readTmp)
    (hs : s.main inp ok = .ok s') : MainInv inp s' r := by
  have hok := h.ok
  rcases hpc with hpc | hpc <;> rw [hpc] at hok <;> simp only [MainState.main, hpc] at hs
  · cases hs
    obtain ⟨ha, hw⟩ := hok
    have h₀ : MainInv inp { s with tmpOff := 0 } r := by
      refine h.calls hpc ?_ ⟨rfl, rfl, rfl, rfl⟩ rfl ?_ ?_ <;> dsimp only <;> rw [hpc]
      · rfl
      · exact ⟨ha.same rfl rfl rfl rfl, hw⟩
    rw [← hpc]
    refine h₀.opened hpc rfl rfl ⟨ha.same rfl rfl rfl rfl, ?_⟩
    rw [List.take_zero, List.append_nil]
    exact hw
  · obtain ⟨ha, hw⟩ := hok
    cases hc : s.taps.tmp[s.tmpOff]? with
    | some c =>
        rw [hc] at hs
        cases hs
        exact h.calls hpc rfl ⟨rfl, rfl, rfl, rfl⟩ rfl rfl
          ⟨ha.same rfl rfl rfl rfl, s.tmpOff, rfl, hc, hw⟩
    | none =>
        rw [hc] at hs
        cases hs
        refine h.calls hpc rfl ⟨rfl, rfl, rfl, rfl⟩ rfl rfl ⟨ha.same rfl rfl rfl rfl, ?_⟩
        rw [List.take_of_length_le (List.getElem?_eq_none_iff.mp hc), ha.tmp, ha.line,
          ← answers_succ] at hw
        exact hw

theorem MainInv.writeTmp_step (h : MainInv inp s r) {c : Byte} (hpc : s.pc = .writeTmp c)
    (hs : s.main inp ok = .ok s') : MainInv inp s' r := by
  have hok := h.ok
  rw [hpc] at hok
  obtain ⟨ha, k, hk, hc, hw⟩ := hok
  simp only [MainState.main, hpc] at hs
  cases hs
  refine h.calls hpc rfl ⟨rfl, rfl, rfl, rfl⟩ rfl rfl ⟨ha.same rfl rfl rfl rfl, ?_⟩
  obtain ⟨h₁, h₂⟩ := Wrote.write hw [c]
  have htake : s.taps.tmp.take s.tmpOff = s.taps.tmp.take k ++ [c] := by
    rw [hk, List.take_add_one, hc]
    rfl
  show MainState.Wrote _ (answers inp r ++ s.taps.tmp.take s.tmpOff)
  rw [htake, ← List.append_assoc]
  exact ⟨h₁, h₂⟩

/-- **A round costs a slot.**  `main` closes `tmp.txt`, but `sinhvien` has not closed its input. -/
theorem MainInv.round_step (h : MainInv inp s r) (hpc : s.pc = .closeTmp)
    (hs : s.main inp ok = .ok s') : MainInv inp s' (r + 1) := by
  have hok := h.ok
  rw [hpc] at hok
  obtain ⟨ha, hw⟩ := hok
  have hf : s.pc ≠ .failed := by rw [hpc]; exact MainPC.noConfusion
  have hst : s.pc.started = true := by rw [hpc]; rfl
  obtain ⟨hsv, hvo⟩ := h.runs hf
  have hpast := h.past hst (by rw [ha.vo]; rfl)
  have hslots := h.slots hf
  have hle := h.used
  have hheld : s.held = 1 := by
    unfold MainState.held
    rw [hst, ha.sv, ha.vo]
    rfl
  have hleft := ha.left
  simp only [MainState.main, hpc] at hs
  cases hs
  obtain ⟨q₁, q₂, q₃, q₄⟩ := round_quiet { s with used := s.used - 1, pc := .closeTmp }
  refine h.moves hf (MainOk.round (by dsimp only; omega) ha.lock ha.rest hw)
    ⟨⟨hsv.trans ?_, hvo.trans ?_⟩, ?_, ?_, fun _ _ => ?_, Nat.succ_le_succ hpast, fun hst' => ?_⟩
  · rw [q₁, hpc]
    rfl
  · rw [q₂, hpc]
    rfl
  · exact Nat.le_trans (Nat.sub_le ..) hle
  · have hnone : ({ s with used := s.used - 1, pc := .closeTmp } : MainState).round.held = 0 := by
      unfold MainState.held
      rw [q₃]
      rfl
    rw [hnone, q₄, hheld, hpc]
    rw [hheld, hpc] at hslots
    show 2 + (r + 1) + 0 + s.used = 3 + r + 1 + (s.used - 1)
    omega
  · rw [ha.sv, ha.vo]
    exact ⟨SvPC.noConfusion, VoPC.noConfusion⟩
  · rw [q₃] at hst'
    cases hst'

theorem MainInv.end_step (h : MainInv inp s r)
    (hpc : s.pc = .closeIn ∨ s.pc = .closeOut ∨ s.pc = .exit) (hs : s.main inp ok = .ok s') :
    MainInv inp s' r := by
  have hok := h.ok
  rcases hpc with hpc | hpc | hpc <;> rw [hpc] at hok <;> simp only [MainState.main, hpc] at hs <;>
    cases hs
  · exact h.closed hpc rfl rfl hok
  · exact h.closed hpc rfl rfl hok
  · exact h.calls hpc rfl ⟨rfl, rfl, rfl, rfl⟩ rfl rfl hok

/-- **A step of the system keeps the invariant.** -/
theorem MainInv.step (h : MainInv inp s r)
    (hsum : ∀ line ∈ lines (header inp).2 (header inp).1.toNat,
      ((numbers line).map decimal).sum < 2 ^ 31) {a : MainAction} (hs : mainStep inp s a = .ok s') :
    ∃ r', MainInv inp s' r' := by
  cases a with
  | sinhvien ok => exact ⟨r, (h.sinhvien hs).1⟩
  | voinuoc ok => exact ⟨r, (h.voinuoc hsum hs).1⟩
  | main ok =>
      change s.main inp ok = .ok s' at hs
      cases hpc : s.pc with
      | createOut => exact ⟨r, h.start_step (.inl hpc) hs⟩
      | createSem => exact ⟨r, h.start_step (.inr (.inl hpc)) hs⟩
      | openIn => exact ⟨r, h.start_step (.inr (.inr (.inl hpc))) hs⟩
      | openOut => exact ⟨r, h.start_step (.inr (.inr (.inr hpc))) hs⟩
      | skip => exact ⟨r, h.skip_step hpc hs⟩
      | digits => exact ⟨r, h.digits_step hpc hs⟩
      | createSv => exact ⟨r, h.copy_step (.inl hpc) hs⟩
      | openSv => exact ⟨r, h.copy_step (.inr (.inl hpc)) hs⟩
      | createVn => exact ⟨r, h.copy_step (.inr (.inr (.inl hpc))) hs⟩
      | read => exact ⟨r, h.copy_step (.inr (.inr (.inr (.inl hpc)))) hs⟩
      | write c => exact ⟨r, h.write_step hpc hs⟩
      | closeSv => exact ⟨r, h.copy_step (.inr (.inr (.inr (.inr hpc)))) hs⟩
      | execSv => exact ⟨r, h.exec_step (.inl hpc) hs⟩
      | execVo => exact ⟨r, h.exec_step (.inr hpc) hs⟩
      | joinSv => exact ⟨r, h.join_step hsum (.inl hpc) hs⟩
      | waitSv => exact ⟨r, h.join_step hsum (.inr (.inl hpc)) hs⟩
      | joinVo => exact ⟨r, h.join_step hsum (.inr (.inr (.inl hpc))) hs⟩
      | waitVo => exact ⟨r, h.join_step hsum (.inr (.inr (.inr hpc))) hs⟩
      | openTmp => exact ⟨r, h.tmp_step (.inl hpc) hs⟩
      | readTmp => exact ⟨r, h.tmp_step (.inr hpc) hs⟩
      | writeTmp c => exact ⟨r, h.writeTmp_step hpc hs⟩
      | closeTmp => exact ⟨r + 1, h.round_step hpc hs⟩
      | closeIn => exact ⟨r, h.end_step (.inl hpc) hs⟩
      | closeOut => exact ⟨r, h.end_step (.inr (.inl hpc)) hs⟩
      | exit => exact ⟨r, h.end_step (.inr (.inr hpc)) hs⟩
      | finished =>
          simp only [MainState.main, hpc] at hs
          cases hs
      | failed =>
          simp only [MainState.main, hpc] at hs
          cases hs

theorem mainInit_inv (inp line vn tmp out : List Byte) :
    MainInv inp (mainInit line vn tmp out) 0 where
  ok := ⟨rfl, rfl, rfl, rfl⟩
  runs := fun _ => ⟨rfl, rfl⟩
  used := Nat.le_of_ble_eq_true rfl
  slots := fun _ => Nat.le_refl _
  exact := fun _ _ => Nat.le_refl _
  rounds := Nat.zero_le _
  past := fun hst => Bool.noConfusion hst

theorem main_inv {C : MainState → MainAction → Prop} {line vn tmp out : List Byte}
    (hsum : ∀ line ∈ lines (header inp).2 (header inp).1.toNat,
      ((numbers line).map decimal).sum < 2 ^ 31)
    (h : Steps (mainStep inp) C (mainInit line vn tmp out) s) : ∃ r, MainInv inp s r := by
  refine h.inv (I := fun s => ∃ r, MainInv inp s r) ⟨0, mainInit_inv ..⟩ ?_
  rintro s a s' ⟨r, hinv⟩ - hs
  exact hinv.step hsum hs

/-- **What `main` writes.**  However the three programs are interleaved, and whichever of their calls
of `CreateFile`, `CreateSemaphore`, `Open` and `Exec` are refused: if the numbers of each line come to
less than `2 ^ 31` and `main` gets to its end, the output holds, line by line, the greedy assignment of
the numbers of each line.  It only gets there with at most four lines, since `sinhvien` leaves a file
open in each round and the table of open files has ten slots. -/
theorem main_answers {line vn tmp out : List Byte}
    (hsum : ∀ line ∈ lines (header inp).2 (header inp).1.toNat,
      ((numbers line).map decimal).sum < 2 ^ 31)
    (h : Steps (mainStep inp) always (mainInit line vn tmp out) s) (hfin : s.pc = .finished) :
    s.out = answers inp (header inp).1.toNat ∧ (header inp).1.toNat ≤ 4 := by
  obtain ⟨r, hinv⟩ := main_inv hsum h
  have hok := hinv.ok
  rw [hfin] at hok
  obtain ⟨rfl, hout, -⟩ := hok
  exact ⟨hout, hinv.rounds⟩

theorem numbers_four : numbers [0x34, newline] = [[0x34]] := by
  have h : chunks isDigit (join blank [newline] [[0x34]]) = [[0x34]] :=
    chunks_join isDigit_blank (by decide) (by decide)
  exact h

theorem sums_four : ∀ line ∈ lines (header [0x31, newline, 0x34, newline]).2
    (header [0x31, newline, 0x34, newline]).1.toNat, ((numbers line).map decimal).sum < 2 ^ 31 := by
  intro line h
  rw [show lines _ _ = [[0x34, newline]] from rfl] at h
  rw [List.mem_singleton.mp h, numbers_four]
  decide

/-- The input `1` and `4`: the programs run one after the other. -/
theorem main_answers_line : ∃ s,
    run (mainStep [0x31, newline, 0x34, newline]) always (mainInit [] [] [] [])
      (List.replicate 17 (.main true) ++ List.replicate 14 (.sinhvien true) ++
        List.replicate 2 (.main true) ++ List.replicate 14 (.voinuoc true) ++
        List.replicate 13 (.main true)) = some s ∧
    s.pc = .finished ∧ s.out = [0x31, blank, newline] := by
  obtain ⟨s, hs, hfin⟩ : ∃ s,
      run (mainStep [0x31, newline, 0x34, newline]) always (mainInit [] [] [] [])
        (List.replicate 17 (.main true) ++ List.replicate 14 (.sinhvien true) ++
          List.replicate 2 (.main true) ++ List.replicate 14 (.voinuoc true) ++
          List.replicate 13 (.main true)) = some s ∧ s.pc = .finished := ⟨_, rfl, rfl⟩
  refine ⟨s, hs, hfin, (main_answers sums_four (.of_run hs) hfin).1.trans ?_⟩
  rw [answers, show lines _ _ = [[0x34, newline]] from rfl, List.flatMap_singleton, answer,
    numbers_four]
  decide

end

end Nachos.Taps
