import Nachos.Lib.Numerals
import Nachos.Userprog.Transfer

/-!
# Userprog — ReadInt

`SyscallReadInt` (userprog/exception.cc) on every console input.  It has two loops over digits, for a
number without and with a sign: each adds a digit in 32 bits and looks at the sign of what it has got.
An overflow that comes back to the right sign goes unseen, and `read_int_iff` says exactly when.

The characters come one by one (`Delivers`), so that what is left behind the number is known.
-/

namespace Nachos.Syscall
open Lib SynchConsole

/-! ### One character -/

/-- The keyboard delivers the characters `cs`, and `rest` is left. -/
inductive Delivers (rest : List Byte) : (stream cs : List Byte) → Prop where
  | done : Delivers rest rest []
  | eof {stream : List Byte} {c : Byte} {cs : List Byte} (h : Delivers rest stream (c :: cs)) :
      Delivers rest (EOF :: stream) (c :: cs)
  | cons {stream : List Byte} {c : Byte} {cs : List Byte} (hc : c ≠ EOF)
      (h : Delivers rest stream cs) : Delivers rest (c :: stream) (c :: cs)

/-- What a `Read` of one character answers. -/
def answerOne (c : Byte) : Answer :=
  if isEoln c then ⟨if c = 0x01 then -1 else 0, [0]⟩ else ⟨1, [c]⟩

section
variable {stream rest cs : List Byte} {c ch : Byte}

theorem exists_delivers {t : List Byte} (h : text stream = cs ++ t) :
    ∃ rest, text rest = t ∧ Delivers rest stream cs := by
  induction stream generalizing cs with
  | nil =>
      obtain ⟨rfl, rfl⟩ := List.append_eq_nil_iff.mp h.symm
      exact ⟨[], rfl, .done⟩
  | cons c stream ih =>
      cases cs with
      | nil => exact ⟨c :: stream, h, .done⟩
      | cons c' cs =>
          by_cases hc : c = EOF
          · subst hc
            rw [text_cons_eof] at h
            obtain ⟨rest, hrest, hd⟩ := ih h
            exact ⟨rest, hrest, .eof hd⟩
          · rw [text_cons hc] at h
            obtain ⟨rfl, htext⟩ := List.cons.inj h
            obtain ⟨rest, hrest, hd⟩ := ih htext
            exact ⟨rest, hrest, .cons hc hd⟩

theorem Delivers.of_nil (h : Delivers rest stream []) : stream = rest := by
  cases h
  rfl

/-- Characters that are no `0xFF` are delivered as they are. -/
theorem delivers_append (cs rest : List Byte) (h : EOF ∉ cs) : Delivers rest (cs ++ rest) cs := by
  induction cs with
  | nil => exact .done
  | cons c cs ih =>
      rw [List.mem_cons, not_or] at h
      exact .cons (Ne.symm h.1) (ih h.2)

theorem Delivers.split {ds : List Byte} (h : Delivers rest stream (cs ++ ds)) :
    ∃ mid, Delivers mid stream cs ∧ Delivers rest mid ds := by
  induction cs generalizing stream with
  | nil => exact ⟨stream, .done, h⟩
  | cons c cs ih =>
      generalize hl : c :: cs ++ ds = l at h
      induction h with
      | done => cases hl
      | eof h ih' =>
          obtain ⟨mid, h₁, h₂⟩ := ih' hl
          exact ⟨mid, .eof h₁, h₂⟩
      | cons hc h ih' =>
          cases hl
          obtain ⟨mid, h₁, h₂⟩ := ih h
          exact ⟨mid, .cons hc h₁, h₂⟩

/-- A `Read` of one character takes the next one. -/
theorem Delivers.read (h : Delivers rest stream (c :: cs)) (ch : Byte) :
    ∃ stream', consoleRead 1 ch stream = some (answerOne c, stream') ∧ Delivers rest stream' cs := by
  generalize hl : c :: cs = l at h
  induction h generalizing ch with
  | done => cases hl
  | eof h ih =>
      obtain ⟨stream', e, hd⟩ := ih EOF hl
      exact ⟨stream', e, hd⟩
  | @cons stream c' cs' hc h ih =>
      cases hl
      refine ⟨stream, ?_, h⟩
      rw [consoleRead, readLoop, if_pos (by decide), if_neg hc, answerOne]
      split
      · simp
      · rw [readLoop_full _ _ _ (by simp)]
        simp

theorem consoleRead_waits (h : text stream = []) (ch : Byte) : consoleRead 1 ch stream = none := by
  have hends := consoleRead_ends stream ch Nat.one_pos
  rw [Nat.cast_one] at hends
  generalize consoleRead 1 ch stream = o at hends ⊢
  cases hends with
  | blocks => rfl
  | full hline =>
      rw [line, h] at hline
      cases hline
  | line hline hc htext =>
      rw [h] at htext
      simp at htext

end

/-! ### The loops of `SyscallReadInt` -/

/-- A `Read` of the next character, and back to the loop. -/
def reading (label : Byte → Int → Word → Label) (c : Byte) (res : Word) : Prog :=
  .call (.read 1) fun r => .jump (label (r.bytes.headD c) r.value res)

/-- The number of a numeral without its sign. -/
def magnitude (ds : List Byte) : Nat := ofDigits 10 (ds.map fun c => c.toNat - 0x30)

/-- The largest magnitude of an `int`. -/
def limit (neg : Bool) : Nat := if neg then 2 ^ 31 else 2 ^ 31 - 1

def signed (neg : Bool) (x : Nat) : Int := if neg then -x else x

/-- The magnitude of what a loop has accumulated, modulo 2³². -/
def mag (neg : Bool) (res : Word) : Nat := (if neg then -res else res).toNat

/-- A loop over digits: what it does with one, and what it returns behind the last. -/
structure DigitLoop (neg : Bool) (label : Byte → Int → Word → Label) (step : Word → Byte → Word)
    (value : Word → Int) : Prop where
  code_eq : ∀ c count res, code (label c count res) =
    if isDigit c ∧ count = 1 then reading label c (step res c) else .returns (value res)
  mag_step : ∀ res c, mag neg (step res c) =
    wrapStep (2 ^ 32) (limit neg) 10 (mag neg res) (c.toNat - 0x30)
  value_eq : ∀ res, value res = if limit neg < mag neg res then 0 else signed neg (mag neg res)

theorem toNat_digit (c : Byte) : (digit c).toNat = c.toNat - 0x30 := by
  have := c.isLt
  rw [digit, BitVec.toNat_ofNat]
  omega

/-- A digit more, as long as there is no overflow to be seen. -/
def addDigit (res : Word) (c : Byte) : Word := if 0 ≤ res.toInt then res * 10 + digit c else res

def subDigit (res : Word) (c : Byte) : Word := if res.toInt ≤ 0 then res * 10 - digit c else res

theorem digitLoop_positive : DigitLoop false .readIntPositive addDigit
    (fun res => if res.toInt < 0 then 0 else res.toInt) where
  code_eq _ _ _ := rfl
  mag_step res c := by
    have hlt := res.isLt
    have hint := BitVec.toInt_eq_toNat_cond res
    have hle : res.toNat ≤ limit false ↔ 0 ≤ res.toInt := by
      rw [limit, if_neg Bool.false_ne_true]
      split at hint <;> omega
    simp only [mag, Bool.false_eq_true, if_false, wrapStep, hle, addDigit]
    split
    · rw [BitVec.toNat_add, BitVec.toNat_mul, toNat_digit, Nat.mod_add_mod]
      rfl
    · rfl
  value_eq res := by
    have hlt := res.isLt
    have hint := BitVec.toInt_eq_toNat_cond res
    simp only [mag, limit, signed, Bool.false_eq_true, if_false]
    split at hint <;> split <;> split <;> omega

theorem digitLoop_negative : DigitLoop true .readIntNegative subDigit
    (fun res => if 0 < res.toInt then 0 else res.toInt) where
  code_eq _ _ _ := rfl
  mag_step res c := by
    have hlt := res.isLt
    have hint := BitVec.toInt_eq_toNat_cond res
    have hneg := BitVec.toNat_neg res
    have hle : (-res).toNat ≤ limit true ↔ res.toInt ≤ 0 := by
      rw [limit, if_pos rfl]
      split at hint <;> omega
    simp only [mag, if_true, wrapStep, hle, subDigit]
    split
    · have hring : -(res * 10 - digit c) = -res * 10 + digit c := by
        rw [BitVec.neg_sub, BitVec.neg_mul]
      rw [hring, BitVec.toNat_add, BitVec.toNat_mul, toNat_digit, Nat.mod_add_mod]
      rfl
    · rfl
  value_eq res := by
    have hlt := res.isLt
    have hint := BitVec.toInt_eq_toNat_cond res
    have hneg := BitVec.toNat_neg res
    simp only [mag, limit, signed, if_true]
    split at hint <;> split <;> split <;> omega

section
variable {other : Call → World → Effect} {w : World} {rest ds : List Byte} {c t : Byte} {res : Word}
  {neg : Bool} {label : Byte → Int → Word → Label} {step : Word → Byte → Word}
  {value : Word → Int}

theorem answerOne_digit (h : isDigit c = true) : answerOne c = ⟨1, [c]⟩ := by
  rw [answerOne, if_neg]
  intro he
  rw [isEoln, Bool.or_eq_true, beq_iff_eq, beq_iff_eq] at he
  rcases he with rfl | rfl <;> cases h

/-- The character behind the last digit ends the loop, also when it ends the line. -/
theorem answerOne_not_digit (h : isDigit c = false) (c' : Byte) :
    isDigit ((answerOne c).bytes.headD c') = false := by
  rw [answerOne]
  split
  · rfl
  · exact h

variable (other label c res) in
theorem exec_reading {cs : List Byte} (h : Delivers rest w.stream (t :: cs)) :
    ∃ stream, Delivers rest stream cs ∧ exec other (reading label c res) w =
      .jumped (label ((answerOne t).bytes.headD c) (answerOne t).value res)
        { w with stream := stream } := by
  obtain ⟨stream, e, hd⟩ := h.read w.ch
  exact ⟨stream, hd, by rw [reading, exec_call (call_read e), exec]⟩

variable (other res) in
/-- One round of a loop. -/
theorem DigitLoop.run_digit (hl : DigitLoop neg label step value) {d : Byte} {cs : List Byte}
    (hd : isDigit d = true) (h : Delivers rest w.stream (d :: cs)) :
    ∃ stream, Delivers rest stream cs ∧ ∀ fuel, run other (fuel + 1) (reading label c res) w =
      run other fuel (reading label d (step res d)) { w with stream := stream } := by
  obtain ⟨stream, hcs, e⟩ := exec_reading other c res label h
  refine ⟨stream, hcs, fun fuel => ?_⟩
  rw [run_jump e, answerOne_digit hd, hl.code_eq, if_pos ⟨hd, rfl⟩]
  rfl

variable (other res) in
/-- A loop reads the digits and the character behind them. -/
theorem DigitLoop.run_reading (hl : DigitLoop neg label step value)
    (hds : ∀ d ∈ ds, isDigit d = true) (ht : isDigit t = false)
    (h : Delivers rest w.stream (ds ++ [t])) :
    ∃ fuel, run other fuel (reading label c res) w =
      .returned ({ w with stream := rest }.resume (value (ds.foldl step res))) := by
  induction ds generalizing c res w with
  | nil =>
      obtain ⟨stream, hd, e⟩ := exec_reading other c res label h
      obtain rfl := hd.of_nil
      refine ⟨1, ?_⟩
      rw [run_jump e, hl.code_eq, if_neg]
      · rfl
      · rw [answerOne_not_digit ht]
        exact fun h => Bool.false_ne_true h.1
  | cons d ds ih =>
      rw [List.forall_mem_cons] at hds
      obtain ⟨stream, hd, hround⟩ := hl.run_digit other res (c := c) hds.1 h
      obtain ⟨fuel, hrun⟩ := ih (step res d) (w := { w with stream := stream }) hds.2 hd
      exact ⟨fuel + 1, (hround fuel).trans hrun⟩

variable (other res) in
/-- Without a character behind the digits it waits. -/
theorem DigitLoop.run_waits (hl : DigitLoop neg label step value)
    (hds : ∀ d ∈ ds, isDigit d = true) (h : Delivers rest w.stream ds) (hrest : text rest = []) :
    ∃ fuel w', run other fuel (reading label c res) w = .blocked w' := by
  induction ds generalizing c res w with
  | nil =>
      obtain rfl := h.of_nil
      exact ⟨0, w, exec_call_blocks (call_read_blocks (consoleRead_waits hrest w.ch))⟩
  | cons d ds ih =>
      rw [List.forall_mem_cons] at hds
      obtain ⟨stream, hd, hround⟩ := hl.run_digit other res (c := c) hds.1 h
      obtain ⟨fuel, w', hrun⟩ := ih (step res d) (w := { w with stream := stream }) hds.2 hd
      exact ⟨fuel + 1, w', (hround fuel).trans hrun⟩

/-! ### In front of the number -/

variable (other c) in
/-- The first loop behind a `Read`. -/
theorem exec_readIntSkip {cs : List Byte} (h : Delivers rest w.stream (t :: cs)) :
    ∃ stream, Delivers rest stream cs ∧ exec other (readIntSkip c) w =
      exec other
        (if (answerOne t).value ≠ -1 ∧
            (isSpace ((answerOne t).bytes.headD c) ∨ (answerOne t).value = 0) then
          .jump (.readIntSkip ((answerOne t).bytes.headD c))
        else if (answerOne t).value = -1 ∨
            ¬ ((answerOne t).bytes.headD c = 0x2d ∨ isDigit ((answerOne t).bytes.headD c)) then
          .returns 0
        else if (answerOne t).bytes.headD c = 0x2d then
          reading .readIntNegative ((answerOne t).bytes.headD c) 0
        else .jump (.readIntPositive ((answerOne t).bytes.headD c) (answerOne t).value 0))
        { w with stream := stream } := by
  obtain ⟨stream, e, hd⟩ := h.read w.ch
  exact ⟨stream, hd, by rw [readIntSkip, exec_call (call_read e)]; rfl⟩

theorem isSpace_iff : isSpace c = true ↔ c = 0x20 ∨ c = 0x09 ∨ c = 0x0a := by
  rw [isSpace, Bool.or_eq_true, Bool.or_eq_true, beq_iff_eq, beq_iff_eq, beq_iff_eq, or_assoc]

theorem run_skip {blanks : List Byte} (hb : ∀ b ∈ blanks, isSpace b = true)
    (h : Delivers rest w.stream blanks) : ∃ c', ∀ fuel,
      run other (fuel + blanks.length) (readIntSkip c) w =
        run other fuel (readIntSkip c') { w with stream := rest } := by
  induction blanks generalizing c w with
  | nil =>
      obtain rfl := h.of_nil
      exact ⟨c, fun _ => rfl⟩
  | cons b blanks ih =>
      obtain ⟨stream, hd, e⟩ := exec_readIntSkip other c h
      have hjump : ∃ c', exec other (readIntSkip c) w =
          .jumped (.readIntSkip c') { w with stream := stream } := by
        rcases isSpace_iff.mp (hb b List.mem_cons_self) with rfl | rfl | rfl
        · exact ⟨_, e⟩
        · exact ⟨_, e⟩
        · exact ⟨_, e⟩
      obtain ⟨c₁, e⟩ := hjump
      obtain ⟨c', hrun⟩ := ih (w := { w with stream := stream }) (c := c₁)
        (fun b' hb' => hb b' (List.mem_cons_of_mem b hb')) hd
      refine ⟨c', fun fuel => ?_⟩
      rw [List.length_cons, ← Nat.add_assoc, run_jump e]
      exact hrun fuel

variable (other) in
/-- `SyscallReadInt`, behind the blanks. -/
theorem run_readInt {blanks cs : List Byte} (hb : ∀ b ∈ blanks, isSpace b = true)
    (h : Delivers rest w.stream (blanks ++ cs)) : ∃ mid c, Delivers rest mid cs ∧ ∀ fuel,
      run other (fuel + (blanks.length + 1)) SyscallReadInt w =
        run other fuel (readIntSkip c) { w with stream := mid } := by
  obtain ⟨mid, hd₁, hd₂⟩ := h.split
  obtain ⟨c, hrun⟩ := run_skip (c := 0) hb hd₁
  refine ⟨mid, c, hd₂, fun fuel => ?_⟩
  rw [← Nat.add_assoc, run_jump (show exec other SyscallReadInt w = .jumped (.readIntSkip 0) w from rfl)]
  exact hrun fuel

variable (other) in
/-- A digit leads to the loop for positive numbers. -/
theorem run_skip_digit (hc : isDigit t = true) (h : Delivers rest w.stream (t :: ds)) :
    ∃ stream, Delivers rest stream ds ∧ ∀ fuel, run other (fuel + 1) (readIntSkip c) w =
      run other fuel (reading .readIntPositive t (addDigit 0 t)) { w with stream := stream } := by
  obtain ⟨stream, hd, e⟩ := exec_readIntSkip other c h
  have hspace : isSpace t = false := by
    rw [← Bool.not_eq_true, isSpace_iff]
    rintro (rfl | rfl | rfl) <;> cases hc
  have hsign : t ≠ 0x2d := by
    rintro rfl
    cases hc
  rw [answerOne_digit hc, if_neg (by simp [hspace]), if_neg (by simp [hc]),
    if_neg (by simpa using hsign), exec] at e
  refine ⟨stream, hd, fun fuel => ?_⟩
  rw [run_jump e, digitLoop_positive.code_eq, if_pos ⟨hc, rfl⟩]
  rfl

variable (other) in
/-- A sign leads to the loop for negative numbers. -/
theorem run_skip_sign {cs : List Byte} (h : Delivers rest w.stream (0x2d :: cs)) :
    ∃ stream, Delivers rest stream cs ∧ ∀ fuel, run other fuel (readIntSkip c) w =
      run other fuel (reading .readIntNegative 0x2d 0) { w with stream := stream } := by
  obtain ⟨stream, hd, e⟩ := exec_readIntSkip other c h
  exact ⟨stream, hd, run_congr e⟩

variable (other) in
/-- Any other character, a Ctrl-A too, ends the call. -/
theorem exec_skip_other (hspace : isSpace t = false) (hsign : t ≠ 0x2d) (ht : isDigit t = false)
    (h : Delivers rest w.stream [t]) :
    exec other (readIntSkip c) w = .returned ({ w with stream := rest }.resume 0) := by
  obtain ⟨stream, hd, e⟩ := exec_readIntSkip other c h
  obtain rfl := hd.of_nil
  rw [e]
  by_cases h1 : t = 0x01
  · subst h1
    rfl
  · have heoln : isEoln t = false := by
      rw [isEoln, Bool.or_eq_false_iff, beq_eq_false_iff_ne, beq_eq_false_iff_ne]
      refine ⟨?_, h1⟩
      rintro rfl
      cases hspace
    rw [show answerOne t = ⟨1, [t]⟩ from if_neg (by simp [heoln]), if_neg (by simp [hspace]),
      if_pos (.inr (not_or.mpr ⟨hsign, by simp [ht]⟩))]
    rfl

/-! ### What is read -/

/-- The value of a numeral. -/
def numeralValue (neg : Bool) (ds : List Byte) : Int := signed neg (magnitude ds)

/-- What the documentation says is returned for it: 0 in case of an overflow. -/
def expected (neg : Bool) (ds : List Byte) : Int :=
  if -2 ^ 31 ≤ numeralValue neg ds ∧ numeralValue neg ds ≤ 2 ^ 31 - 1 then numeralValue neg ds else 0

/-- What the loops return for it. -/
def accumulated (neg : Bool) (ds : List Byte) : Int :=
  let x := (ds.map fun c => c.toNat - 0x30).foldl (wrapStep (2 ^ 32) (limit neg) 10) 0
  if limit neg < x then 0 else signed neg x

theorem DigitLoop.value_foldl (hl : DigitLoop neg label step value) (ds : List Byte) :
    value (ds.foldl step 0) = accumulated neg ds := by
  have hmag : mag neg (ds.foldl step 0) =
      (ds.map fun c => c.toNat - 0x30).foldl (wrapStep (2 ^ 32) (limit neg) 10) 0 := by
    have hzero : mag neg 0 = 0 := by cases neg <;> rfl
    have hom : ds.foldl (fun x c => wrapStep (2 ^ 32) (limit neg) 10 x (c.toNat - 0x30)) (mag neg 0) =
        mag neg (ds.foldl step 0) := List.foldl_hom _ fun res c => (hl.mag_step res c).symm
    rw [← hom, List.foldl_map, hzero]
  rw [hl.value_eq, hmag, accumulated]

theorem inRange_iff : -2 ^ 31 ≤ numeralValue neg ds ∧ numeralValue neg ds ≤ 2 ^ 31 - 1 ↔
    magnitude ds ≤ limit neg := by
  unfold numeralValue signed limit
  cases neg <;> simp

theorem accumulated_bounds : -2 ^ 31 ≤ accumulated neg ds ∧ accumulated neg ds < 2 ^ 31 := by
  rw [accumulated]
  unfold signed limit
  cases neg <;> simp <;> split <;> omega

/-- When the loops see an overflow. -/
theorem accumulated_iff : accumulated neg ds = expected neg ds ↔
    magnitude ds ≤ limit neg ∨ (∃ ps, ps <+: ds ∧ limit neg < magnitude ps % 2 ^ 32) ∨
      magnitude ds % 2 ^ 32 = 0 := by
  have hlim : limit neg < 2 ^ 32 := by cases neg <;> decide
  have hsigned : ∀ x, signed neg x = 0 ↔ x = 0 := by
    intro x
    unfold signed
    cases neg <;> simp
  unfold expected
  simp only [inRange_iff]
  rcases foldl_wrapStep (M := 2 ^ 32) (T := limit neg) (b := 10) (ds.map fun c => c.toNat - 0x30)
    with ⟨⟨qs, hqs, hover⟩, hlt⟩ | ⟨hall, heq⟩
  · obtain ⟨ps, ⟨rest, rfl⟩, rfl⟩ := List.prefix_map_iff.mp hqs
    have hle : magnitude ps ≤ magnitude (ps ++ rest) := by
      unfold magnitude
      rw [List.map_append]
      exact ofDigits_le_append (by decide) ..
    have hmod : magnitude ps % 2 ^ 32 ≤ magnitude ps := Nat.mod_le ..
    refine iff_of_true ?_ (.inr (.inl ⟨ps, List.prefix_append .., hover⟩))
    rw [accumulated, if_pos hlt, if_neg]
    have hover : limit neg < magnitude ps % 2 ^ 32 := hover
    omega
  · have hps : ¬ ∃ ps, ps <+: ds ∧ limit neg < magnitude ps % 2 ^ 32 := by
      rintro ⟨ps, hps, hover⟩
      exact absurd (hall _ (hps.map _)) (Nat.not_le.mpr hover)
    have hlast : magnitude ds % 2 ^ 32 ≤ limit neg := hall _ (List.prefix_refl _)
    have hacc : accumulated neg ds = signed neg (magnitude ds % 2 ^ 32) := by
      rw [accumulated, heq]
      exact if_neg (Nat.not_lt.mpr hlast)
    rw [or_iff_right hps, hacc]
    by_cases hin : magnitude ds ≤ limit neg
    · rw [if_pos hin, Nat.mod_eq_of_lt (by omega)]
      exact iff_of_true rfl (.inl hin)
    · rw [if_neg hin, or_iff_right hin]
      exact hsigned _

theorem accumulated_of_inRange
    (h : -2 ^ 31 ≤ numeralValue neg ds ∧ numeralValue neg ds ≤ 2 ^ 31 - 1) :
    accumulated neg ds = numeralValue neg ds := by
  rw [accumulated_iff.mpr (.inl (inRange_iff.mp h)), expected, if_pos h]

/-- `-` in front of a negative number. -/
def sign (neg : Bool) : List Byte := if neg then [0x2d] else []

variable (other) in
/-- **`SyscallReadInt` on a numeral**, behind any blanks, and with any character behind it. -/
theorem run_readInt_numeral {blanks : List Byte} (hb : ∀ b ∈ blanks, isSpace b = true)
    (hds : ∀ d ∈ ds, isDigit d = true) (hne : neg = false → ds ≠ []) (ht : isDigit t = false)
    (h : Delivers rest w.stream (blanks ++ (sign neg ++ (ds ++ [t])))) :
    ∃ fuel, run other fuel SyscallReadInt w =
      .returned ({ w with stream := rest }.resume (accumulated neg ds)) := by
  obtain ⟨mid, c, hd, hrun⟩ := run_readInt other hb h
  cases neg with
  | true =>
      obtain ⟨stream, hd, hsign⟩ := run_skip_sign other (c := c) (w := { w with stream := mid }) hd
      obtain ⟨fuel, hend⟩ := digitLoop_negative.run_reading other 0 (c := 0x2d)
        (w := { w with stream := stream }) hds ht hd
      refine ⟨_, (hrun fuel).trans ((hsign fuel).trans ?_)⟩
      rw [hend, digitLoop_negative.value_foldl]
  | false =>
      obtain ⟨d, ds, rfl⟩ := List.exists_cons_of_ne_nil (hne rfl)
      rw [List.forall_mem_cons] at hds
      obtain ⟨stream, hd, hdigit⟩ :=
        run_skip_digit other (c := c) (w := { w with stream := mid }) hds.1 hd
      obtain ⟨fuel, hend⟩ := digitLoop_positive.run_reading other (addDigit 0 d) (c := d)
        (w := { w with stream := stream }) hds.2 ht hd
      refine ⟨_, (hrun (fuel + 1)).trans ((hdigit fuel).trans ?_)⟩
      rw [hend, ← digitLoop_positive.value_foldl]
      rfl

/-- Nothing but blanks, or a number without a character behind it: the call waits. -/
theorem run_readInt_waits {blanks : List Byte} (hb : ∀ b ∈ blanks, isSpace b = true)
    (hds : ∀ d ∈ ds, isDigit d = true) (h : text w.stream = blanks ++ (sign neg ++ ds)) :
    ∃ fuel w', run other fuel SyscallReadInt w = .blocked w' := by
  rw [← List.append_nil (blanks ++ _)] at h
  obtain ⟨rest, hrest, hd⟩ := exists_delivers h
  obtain ⟨mid, c, hd, hrun⟩ := run_readInt other hb hd
  cases neg with
  | true =>
      obtain ⟨stream, hd, hsign⟩ := run_skip_sign other (c := c) (w := { w with stream := mid }) hd
      obtain ⟨fuel, w', hend⟩ := digitLoop_negative.run_waits other 0 (c := 0x2d)
        (w := { w with stream := stream }) hds hd hrest
      exact ⟨_, w', (hrun fuel).trans ((hsign fuel).trans hend)⟩
  | false =>
      cases ds with
      | nil =>
          obtain rfl := hd.of_nil
          have hblock : consoleRead 1 w.ch mid = none := consoleRead_waits hrest w.ch
          exact ⟨_, _, (hrun 0).trans (exec_call_blocks (call_read_blocks hblock))⟩
      | cons d ds =>
          rw [List.forall_mem_cons] at hds
          obtain ⟨stream, hd, hdigit⟩ :=
            run_skip_digit other (c := c) (w := { w with stream := mid }) hds.1 hd
          obtain ⟨fuel, w', hend⟩ := digitLoop_positive.run_waits other (addDigit 0 d) (c := d)
            (w := { w with stream := stream }) hds.2 hd hrest
          exact ⟨_, w', (hrun (fuel + 1)).trans ((hdigit fuel).trans hend)⟩

/-- The call returns `value`. -/
def Returns (other : Call → World → Effect) (p : Prog) (w : World) (value : Int) : Prop :=
  ∃ fuel w', run other fuel p w = .returned w' ∧ (w'.machine.registers 2).toInt = value

theorem returns_iff {p : Prog} {w' : World} {value v : Int}
    (h : ∃ fuel, run other fuel p w = .returned (w'.resume value)) (h₁ : -2 ^ 31 ≤ value)
    (h₂ : value < 2 ^ 31) : Returns other p w v ↔ value = v := by
  obtain ⟨fuel, hrun⟩ := h
  constructor
  · rintro ⟨fuel', w'', hrun', hr2⟩
    rw [← run_unique hrun hrun', resume_toInt _ h₁ h₂] at hr2
    exact hr2
  · rintro rfl
    exact ⟨fuel, _, hrun, resume_toInt _ h₁ h₂⟩

/-- **`ReadInt`** returns the value of the numeral behind the blanks, and 0 if it is not an `int`, if
and only if it is one; or the value of the first digits, up to some place, is above the limit modulo
2³²; or the value is 0 modulo 2³².  Anything else in front is 0. -/
theorem read_int_iff (other : Call → World → Effect) (w : World) :
    (∀ blanks neg ds t rest, (∀ b ∈ blanks, isSpace b = true) → ds ≠ [] →
      (∀ d ∈ ds, isDigit d = true) → isDigit t = false →
      text w.stream = blanks ++ (sign neg ++ (ds ++ t :: rest)) →
      (Returns other SyscallReadInt w (expected neg ds) ↔
        (magnitude ds ≤ limit neg ∨ (∃ ps, ps <+: ds ∧ limit neg < magnitude ps % 2 ^ 32) ∨
          magnitude ds % 2 ^ 32 = 0))) ∧
    (∀ blanks t rest, (∀ b ∈ blanks, isSpace b = true) → isSpace t = false → isDigit t = false →
      t ≠ 0x2d → text w.stream = blanks ++ t :: rest → Returns other SyscallReadInt w 0) ∧
    (∀ blanks t rest, (∀ b ∈ blanks, isSpace b = true) → isDigit t = false →
      text w.stream = blanks ++ 0x2d :: t :: rest → Returns other SyscallReadInt w 0) ∧
    (∀ blanks neg ds, (∀ b ∈ blanks, isSpace b = true) → (∀ d ∈ ds, isDigit d = true) →
      text w.stream = blanks ++ (sign neg ++ ds) →
      ∃ fuel w', run other fuel SyscallReadInt w = .blocked w') := by
  refine ⟨?_, ?_, ?_, fun blanks neg ds hb hds h => run_readInt_waits hb hds h⟩
  · intro blanks neg ds t rest hb hne hds ht h
    rw [show blanks ++ (sign neg ++ (ds ++ t :: rest)) =
      (blanks ++ (sign neg ++ (ds ++ [t]))) ++ rest by simp] at h
    obtain ⟨rest', -, hd⟩ := exists_delivers h
    have hrun := run_readInt_numeral other hb hds (fun _ => hne) ht hd
    rw [returns_iff hrun accumulated_bounds.1 accumulated_bounds.2, accumulated_iff]
  · intro blanks t rest hb hspace ht hsign h
    rw [show blanks ++ t :: rest = (blanks ++ [t]) ++ rest by simp] at h
    obtain ⟨rest', -, hd⟩ := exists_delivers h
    obtain ⟨mid, c, hd, hrun⟩ := run_readInt other hb hd
    have hend := exec_skip_other other (c := c) (w := { w with stream := mid }) hspace hsign ht hd
    exact (returns_iff ⟨_, (hrun 0).trans hend⟩ (by decide) (by decide)).mpr rfl
  · intro blanks t rest hb ht h
    rw [show blanks ++ 0x2d :: t :: rest = (blanks ++ (sign true ++ ([] ++ [t]))) ++ rest by
      simp [sign]] at h
    obtain ⟨rest', -, hd⟩ := exists_delivers h
    have hrun := run_readInt_numeral other hb (fun _ hd => absurd hd List.not_mem_nil)
      (fun h => absurd h (by decide)) ht hd
    exact (returns_iff hrun accumulated_bounds.1 accumulated_bounds.2).mpr rfl

/-- `4294967297` is read as 1. -/
theorem read_int_misses :
    let ds : List Byte := [0x34, 0x32, 0x39, 0x34, 0x39, 0x36, 0x37, 0x32, 0x39, 0x37]
    magnitude ds = 2 ^ 32 + 1 ∧ expected false ds = 0 ∧
      Returns noOther SyscallReadInt (callWith 0 0 0 [] (ds ++ [0x0A])) 1 ∧
      ¬ Returns noOther SyscallReadInt (callWith 0 0 0 [] (ds ++ [0x0A])) 0 := by
  intro ds
  have hd : Delivers [] (ds ++ [0x0A]) ([] ++ (sign false ++ (ds ++ [0x0A]))) :=
    delivers_append (ds ++ [0x0A]) [] (by decide)
  have hrun := run_readInt_numeral noOther (w := callWith 0 0 0 [] (ds ++ [0x0A])) (by decide)
    (by decide) (by decide) (by decide) hd
  have hone : accumulated false ds = 1 := by decide +kernel
  rw [hone] at hrun
  refine ⟨by decide +kernel, by decide +kernel, ?_, ?_⟩
  · exact (returns_iff hrun (by decide) (by decide)).mpr rfl
  · rw [returns_iff hrun (by decide) (by decide)]
    decide

/-- `-7` behind a blank, and an overflow that is seen. -/
theorem read_int_seen :
    Returns noOther SyscallReadInt (callWith 0 0 0 [] [0x20, 0x2d, 0x37, 0x0A]) (-7) ∧
    Returns noOther SyscallReadInt (callWith 0 0 0 []
      [0x33, 0x30, 0x30, 0x30, 0x30, 0x30, 0x30, 0x30, 0x30, 0x30, 0x0A]) 0 := by
  constructor
  · exact ((read_int_iff noOther _).1 [0x20] true [0x37] 0x0A [] (by decide) (by decide) (by decide)
      (by decide) (by decide)).mpr (.inl (by decide +kernel))
  · exact ((read_int_iff noOther _).1 []
      false [0x33, 0x30, 0x30, 0x30, 0x30, 0x30, 0x30, 0x30, 0x30, 0x30] 0x0A [] (by decide)
      (by decide) (by decide) (by decide) (by decide)).mpr
      (.inr (.inl ⟨_, List.prefix_refl _, by decide +kernel⟩))

end

end Nachos.Syscall
