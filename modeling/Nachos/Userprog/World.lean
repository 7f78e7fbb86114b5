import Mathlib.Data.List.TakeWhile
import Nachos.Filesys.HostFiles
import Nachos.Threads.ConsoleRead
import Nachos.Userprog.Copy
import Nachos.Userprog.Exception

/-!
# Userprog — World

A system call from its trap to its return, as its process sees it: the handlers of `Exception` run
on a `World`, which is the machine, the console and the open files.  `SynchConsole::Read` takes its
characters from the stream of the keyboard (`consoleRead`), and the files are `HostFiles`, on a host
that reads and writes all it is asked for.  The other operations of the kernel are a parameter.

A handler without a loop is over after `exec`; one with a loop comes to a `jump` again and again, and
`run` follows it for a number of jumps.
-/

namespace Nachos.Syscall
open Lib SynchConsole Filesys

/-! ### The console -/

/-- The loop of `SynchConsole::Read`, which has stored `dst`: what is stored at its end, the last
character looked at, and what is left.  Without a character it waits. -/
def readLoop (numBytes : Int) : (stream dst : List Byte) → (ch : Byte) →
    Option (List Byte × Byte × List Byte)
  | [], dst, ch => if (dst.length : Int) < numBytes then none else some (dst, ch, [])
  | c :: stream, dst, ch =>
      if (dst.length : Int) < numBytes then
        if c = EOF then readLoop numBytes stream dst c
        else if isEoln c then some (dst, c, stream)
        else readLoop numBytes stream (dst ++ [c]) c
      else some (dst, ch, c :: stream)

/-- `SynchConsole::Read`, where `ch` is not initialised: it fills the buffer with zeros first. -/
def consoleRead (numBytes : Int) (ch : Byte) (stream : List Byte) : Option (Answer × List Byte) :=
  (readLoop numBytes stream [] ch).map fun (dst, ch, rest) =>
    (⟨if ch = 0x01 ∧ dst.length = 0 then -1 else dst.length,
      dst ++ List.replicate (numBytes.toNat - dst.length) 0⟩, rest)

/-- The characters up to the end of the line. -/
def line (stream : List Byte) : List Byte := (text stream).takeWhile fun ch => !isEoln ch

/-! ### The world of a process -/

/-- What a handler works on: the open files, the machine and the console.  `stream` is what the
keyboard still has to deliver, `sent` what the display has received, and `ch` what
`SynchConsole::Read` finds on the stack. -/
structure World extends HostFiles where
  machine : Machine
  stream : List Byte
  sent : List Byte
  ch : Byte

/-- How an operation of the kernel ends. -/
inductive Effect where
  | returns (r : Answer) (w : World)
  /-- It waits for the keyboard. -/
  | blocks
  /-- An `ASSERT` fails, or memory of the kernel is left. -/
  | aborts

namespace World

def setOffset (w : World) (fid : Int) (f : OpenFile) (off : Int) : World :=
  { w with toHostFiles := w.toHostFiles.setOffset fid f off }

def setContent (w : World) (f : OpenFile) (content : List Byte) : World :=
  { w with toHostFiles := w.toHostFiles.setContent f content }

/-- An operation on the open files, on a host that does all of `numBytes`. -/
def onHost (w : World) (numBytes : Int) (c : Call) : Effect :=
  match HostFiles.call ⟨some numBytes.toNat, true, ⟨0, []⟩⟩ c w.toHostFiles with
  | .ok (r, s) => .returns r { w with toHostFiles := s }
  | .error _ => .aborts

/-- The operations of the console and of open files; `other` stands for the rest of the kernel. -/
def call (other : Call → World → Effect) (w : World) : Call → Effect
  | .read numBytes =>
      match consoleRead numBytes w.ch w.stream with
      | none => .blocks
      | some (r, stream) => .returns r { w with stream := stream }
  | .write src numBytes =>
      if src.length < numBytes then .aborts
      else .returns ⟨numBytes, []⟩ { w with sent := w.sent ++ src.take numBytes.toNat }
  | .getOpenFile fid => w.onHost 0 (.getOpenFile fid)
  | .fileRead fid numBytes => w.onHost numBytes (.fileRead fid numBytes)
  | .fileWrite fid src numBytes =>
      if src.length < numBytes then .aborts else w.onHost numBytes (.fileWrite fid src numBytes)
  | .seek fid pos => w.onHost 0 (.seek fid pos)
  | c => other c w

end World

/-! ### Running a handler -/

/-- How a handler ends, or the loop it comes to. -/
inductive Outcome where
  | returned (w : World)
  /-- It waits for the keyboard. -/
  | blocked (w : World)
  /-- A copy comes to an address outside the memory of the process: the kernel halts the machine. -/
  | raised (which : ExceptionType) (w : World)
  | halted (w : World)
  | aborted
  | jumped (l : Label) (w : World)

/-- What a routine of the machine means for the handler. -/
def Outcome.ofResult {α : Type} (w : World) (r : Result α) (k : α → World → Outcome) : Outcome :=
  match r with
  | .ok a m => k a { w with machine := m }
  | .raised which m => .raised which { w with machine := m }
  | .aborted => .aborted

/-- A handler, up to the next head of a loop. -/
def exec (other : Call → World → Effect) : Prog → World → Outcome
  | .ret, w => .returned w
  | .readRegister num k, w => exec other (k (w.machine.registers num)) w
  | .writeRegister num value k, w =>
      exec other k { w with machine := w.machine.setRegister num value }
  | .adjustPCRegs k, w => exec other k { w with machine := w.machine.adjustPCRegs }
  | .user2System virtAddr limit k, w =>
      .ofResult w (Machine.user2System virtAddr limit w.machine) fun bytes w => exec other (k bytes) w
  | .system2User virtAddr len buffer k, w =>
      .ofResult w (Machine.system2User virtAddr len (fun i => buffer.getD i 0) w.machine)
        fun _ w => exec other k w
  | .call c k, w =>
      match w.call other c with
      | .returns r w => exec other (k r) w
      | .blocks => .blocked w
      | .aborts => .aborted
  | .jump l, w => .jumped l w
  | .halt, w => .halted w
  | .abort, _ => .aborted

/-- A handler with `fuel` jumps. -/
def run (other : Call → World → Effect) : (fuel : Nat) → Prog → World → Outcome
  | 0, p, w => exec other p w
  | fuel + 1, p, w =>
      match exec other p w with
      | .jumped l w => run other fuel (code l) w
      | o => o

/-- The process goes on behind its system call, with `value` in `r2`. -/
def World.resume (w : World) (value : Int) : World :=
  { w with machine := (w.machine.setRegister 2 (BitVec.ofInt 32 value)).adjustPCRegs }

/-- The call has returned with `P`; or it waits, and nothing has happened. -/
def Outcome.Finally (o : Outcome) (w : World) (P : World → Prop) : Prop :=
  o = .blocked w ∨ ∃ w', o = .returned w' ∧ P w'

section
variable {other : Call → World → Effect} {w : World}

theorem exec_returns (value : Int) : exec other (.returns value) w = .returned (w.resume value) :=
  rfl

theorem resume_r2 (value : Int) :
    (w.resume value).machine.registers 2 = BitVec.ofInt 32 value := rfl

theorem resume_toInt (w : World) {value : Int} (h₁ : -2 ^ 31 ≤ value) (h₂ : value < 2 ^ 31) :
    ((w.resume value).machine.registers 2).toInt = value := by
  rw [resume_r2]
  exact BitVec.toInt_ofInt_eq_self (by decide) h₁ h₂

theorem finally_returned {w' : World} {P : World → Prop} :
    (Outcome.returned w').Finally w P ↔ P w' := by
  constructor
  · rintro (h | ⟨w'', h, hP⟩)
    · cases h
    · cases h
      exact hP
  · intro h
    exact .inr ⟨w', rfl, h⟩

/-! A jump uses fuel; the other ends do not. -/

theorem run_jump {p : Prog} {l : Label} {w₁ : World} (h : exec other p w = .jumped l w₁)
    (fuel : Nat) : run other (fuel + 1) p w = run other fuel (code l) w₁ := by
  rw [run, h]

theorem run_returned {p : Prog} {w₁ : World} (h : exec other p w = .returned w₁) (fuel : Nat) :
    run other fuel p w = .returned w₁ := by
  cases fuel with
  | zero => exact h
  | succ fuel => rw [run, h]

/-- Programs that go the same way run the same way. -/
theorem run_congr {p p' : Prog} {w' : World} (h : exec other p w = exec other p' w') (fuel : Nat) :
    run other fuel p w = run other fuel p' w' := by
  cases fuel with
  | zero => exact h
  | succ fuel => rw [run, run, h]

/-- More fuel leads to the same end. -/
theorem run_mono {p : Prog} {w₁ : World} {fuel : Nat} (h : run other fuel p w = .returned w₁)
    (more : Nat) : run other (fuel + more) p w = .returned w₁ := by
  induction fuel generalizing p w with
  | zero => exact run_returned h _
  | succ fuel ih =>
      rw [Nat.add_right_comm, run]
      rw [run] at h
      cases he : exec other p w with
      | jumped l w₂ =>
          rw [he] at h
          exact ih h
      | _ =>
          rw [he] at h
          exact h

/-- A handler returns in one way. -/
theorem run_unique {p : Prog} {w₁ w₂ : World} {fuel₁ fuel₂ : Nat}
    (h₁ : run other fuel₁ p w = .returned w₁) (h₂ : run other fuel₂ p w = .returned w₂) :
    w₁ = w₂ := by
  have e₁ := run_mono h₁ fuel₂
  have e₂ := run_mono h₂ fuel₁
  rw [Nat.add_comm, e₁] at e₂
  cases e₂
  rfl

end

/-! ### What a `Read` takes -/

section
variable {stream dst : List Byte} {ch : Byte} {room : Nat}

theorem text_cons_eof (stream : List Byte) : text (EOF :: stream) = text stream :=
  List.filter_cons_of_neg (by decide)

theorem text_cons {c : Byte} (h : c ≠ EOF) (stream : List Byte) :
    text (c :: stream) = c :: text stream :=
  List.filter_cons_of_pos (decide_eq_true h)

theorem line_cons_eof (stream : List Byte) : line (EOF :: stream) = line stream := by
  rw [line, text_cons_eof, line]

theorem line_cons {c : Byte} (h : c ≠ EOF) (stream : List Byte) :
    line (c :: stream) = if isEoln c then [] else c :: line stream := by
  rw [line, text_cons h, List.takeWhile_cons, line]
  cases isEoln c <;> rfl

theorem readLoop_full (numBytes : Int) (stream : List Byte) (ch : Byte)
    (h : numBytes ≤ (dst.length : Int)) : readLoop numBytes stream dst ch = some (dst, ch, stream) := by
  cases stream with
  | nil => rw [readLoop, if_neg (by omega)]
  | cons c stream => rw [readLoop, if_neg (by omega)]

/-- The ways the loop of a `Read` ends, with room for `room` more characters: it has them, it comes
to the end of the line, or it waits. -/
inductive LoopEnds (stream dst : List Byte) (room : Nat) :
    Option (List Byte × Byte × List Byte) → Prop where
  | full {c : Byte} {rest : List Byte} (hline : room ≤ (line stream).length)
      (hc : isEoln c = false) (hrest : text rest = (text stream).drop room) :
      LoopEnds stream dst room (some (dst ++ (line stream).take room, c, rest))
  | line {c : Byte} {rest : List Byte} (hline : (line stream).length < room)
      (hc : isEoln c = true) (htext : text stream = line stream ++ c :: text rest) :
      LoopEnds stream dst room (some (dst ++ line stream, c, rest))
  | blocks (hline : (line stream).length < room) (htext : text stream = line stream) :
      LoopEnds stream dst room none

section
variable {c : Byte} {o : Option (List Byte × Byte × List Byte)}

/-- The byte `0xFF` is passed over. -/
theorem LoopEnds.eof (h : LoopEnds stream dst room o) : LoopEnds (EOF :: stream) dst room o := by
  cases h with
  | full hline hc hrest =>
      rw [← line_cons_eof] at hline ⊢
      exact .full hline hc (by rw [hrest, text_cons_eof])
  | line hline hc htext =>
      rw [← line_cons_eof] at hline htext ⊢
      exact .line hline hc (by rw [text_cons_eof, htext])
  | blocks hline htext =>
      rw [← line_cons_eof] at hline htext
      exact .blocks hline (by rw [text_cons_eof, htext])

/-- A character is stored. -/
theorem LoopEnds.cons (he : c ≠ EOF) (hc : isEoln c = false)
    (h : LoopEnds stream (dst ++ [c]) room o) : LoopEnds (c :: stream) dst (room + 1) o := by
  have hline' : Syscall.line (c :: stream) = c :: Syscall.line stream := by
    rw [line_cons he, hc]
    rfl
  have happ : ∀ l : List Byte, dst ++ [c] ++ l = dst ++ c :: l := fun l => by simp
  cases h with
  | full hline hc' hrest =>
      rw [happ, ← List.take_succ_cons, ← hline']
      exact .full (by rw [hline', List.length_cons]; omega) hc' (by rw [hrest, text_cons he]; rfl)
  | line hline hc' htext =>
      rw [happ, ← hline']
      exact .line (by rw [hline', List.length_cons]; omega) hc'
        (by rw [text_cons he, hline', htext]; rfl)
  | blocks hline htext =>
      exact .blocks (by rw [hline', List.length_cons]; omega) (by rw [text_cons he, hline', htext])

end

theorem readLoop_ends (stream dst : List Byte) (ch : Byte) {room : Nat} (h : 0 < room) :
    LoopEnds stream dst room (readLoop (dst.length + room) stream dst ch) := by
  induction stream generalizing dst ch room with
  | nil =>
      rw [readLoop, if_pos (by omega)]
      exact .blocks h rfl
  | cons c stream ih =>
      rw [readLoop, if_pos (by omega)]
      by_cases he : c = EOF
      · subst he
        rw [if_pos rfl]
        exact (ih dst EOF h).eof
      · rw [if_neg he]
        by_cases hc : isEoln c = true
        · have hline : line (c :: stream) = [] := by rw [line_cons he, if_pos hc]
          rw [if_pos hc]
          have hend : LoopEnds (c :: stream) dst room (some (dst ++ line (c :: stream), c, stream)) :=
            .line (by rw [hline]; exact h) hc (by rw [hline, text_cons he]; rfl)
          rwa [hline, List.append_nil] at hend
        · rw [if_neg hc]
          obtain ⟨room, rfl⟩ := Nat.exists_eq_succ_of_ne_zero (Nat.ne_of_gt h)
          have hlen : (dst.length + (room.succ : Nat) : Int) = ((dst ++ [c]).length : Int) + room := by
            rw [List.length_append, List.length_singleton]
            omega
          rw [hlen]
          refine LoopEnds.cons he (Bool.eq_false_iff.mpr hc) ?_
          cases room with
          | zero =>
              rw [readLoop_full _ _ _ (by omega)]
              have hend : LoopEnds stream (dst ++ [c]) 0
                  (some (dst ++ [c] ++ (line stream).take 0, c, stream)) :=
                .full (Nat.zero_le _) (Bool.eq_false_iff.mpr hc) rfl
              rwa [List.take_zero, List.append_nil] at hend
          | succ room => exact ih (dst ++ [c]) c room.succ_pos

/-- The ways a `Read` of `n` characters ends. -/
inductive ReadEnds (stream : List Byte) (n : Nat) : Option (Answer × List Byte) → Prop where
  | full {rest : List Byte} (hline : n ≤ (line stream).length)
      (hrest : text rest = (text stream).drop n) :
      ReadEnds stream n (some (⟨n, (line stream).take n⟩, rest))
  | line {c : Byte} {rest : List Byte} (hline : (line stream).length < n) (hc : isEoln c = true)
      (htext : text stream = line stream ++ c :: text rest) :
      ReadEnds stream n (some (⟨if c = 0x01 ∧ line stream = [] then -1 else (line stream).length,
        line stream ++ List.replicate (n - (line stream).length) 0⟩, rest))
  | blocks (hline : (line stream).length < n) (htext : text stream = line stream) :
      ReadEnds stream n none

/-- **`SynchConsole::Read`.** -/
theorem consoleRead_ends (stream : List Byte) (ch : Byte) {n : Nat} (h : 0 < n) :
    ReadEnds stream n (consoleRead n ch stream) := by
  have hends := readLoop_ends stream [] ch h
  rw [List.length_nil, Nat.cast_zero, Int.zero_add] at hends
  unfold consoleRead
  generalize readLoop n stream [] ch = o at hends
  cases hends with
  | @full c rest hline hc hrest =>
      have hlen : ((line stream).take n).length = n := List.length_take_of_le hline
      have hc1 : c ≠ 0x01 := by
        rintro rfl
        cases hc
      rw [Option.map_some, List.nil_append]
      dsimp only
      rw [if_neg fun h1 => hc1 h1.1, hlen, Int.toNat_natCast, Nat.sub_self, List.replicate_zero,
        List.append_nil]
      exact .full hline hrest
  | line hline hc htext =>
      rw [Option.map_some, List.nil_append]
      dsimp only
      rw [Int.toNat_natCast]
      simp only [List.length_eq_zero_iff]
      exact .line hline hc htext
  | blocks hline htext => exact .blocks hline htext

/-- A piece of the line is a piece of the text. -/
theorem take_line {n : Nat} (h : n ≤ (line stream).length) :
    (text stream).take n = (line stream).take n := by
  have happ : text stream = line stream ++ (text stream).dropWhile fun ch => !isEoln ch :=
    List.takeWhile_append_dropWhile.symm
  rw [happ, List.take_append_of_le_length h]

theorem line_not_eoln {c : Byte} (h : c ∈ line stream) : isEoln c = false := by
  simpa using List.mem_takeWhile_imp h

/-- The keyboard has the characters for a `Read` of `n`: they, or the end of the line. -/
def Suffices (n : Nat) (stream : List Byte) : Prop :=
  n ≤ (line stream).length ∨ text stream ≠ line stream

/-- The characters `dst` of a line are taken from the stream, and the end of the line if it comes
behind them. -/
def Consumed (stream rest dst : List Byte) : Prop :=
  (∀ c ∈ dst, isEoln c = false) ∧
    (text stream = dst ++ text rest ∨ ∃ c, isEoln c = true ∧ text stream = dst ++ c :: text rest)

theorem Consumed.full {n : Nat} {rest : List Byte} (hline : n ≤ (line stream).length)
    (hrest : text rest = (text stream).drop n) : Consumed stream rest ((line stream).take n) :=
  ⟨fun _ hc => line_not_eoln (List.mem_of_mem_take hc),
    .inl (by rw [hrest, ← take_line hline, List.take_append_drop])⟩

theorem Consumed.line {c : Byte} {rest : List Byte} (hc : isEoln c = true)
    (htext : text stream = Syscall.line stream ++ c :: text rest) :
    Consumed stream rest (Syscall.line stream) :=
  ⟨fun _ hc => line_not_eoln hc, .inr ⟨c, hc, htext⟩⟩

/-- A line that has an end. -/
theorem text_ne_line {c : Byte} {r : List Byte} (htext : text stream = line stream ++ c :: r) :
    text stream ≠ line stream := by
  intro h
  have hlen := congrArg List.length (h.symm.trans htext)
  simp at hlen

/-- The end of a line is not one of its characters. -/
theorem append_ne_eoln {dst₁ dst₂ r : List Byte} {c : Byte} (h₁ : ∀ c ∈ dst₁, isEoln c = false)
    (hc : isEoln c = true) : dst₁ ++ r ≠ dst₂ ++ c :: r := by
  intro h
  have h' : dst₁ = dst₂ ++ [c] := by
    rw [show dst₂ ++ c :: r = dst₂ ++ [c] ++ r by simp] at h
    exact List.append_cancel_right h
  have hmem := h₁ c (by rw [h']; exact List.mem_append_right _ (List.mem_singleton_self c))
  rw [hmem] at hc
  cases hc

/-- What is taken is determined by what is left. -/
theorem Consumed.unique {rest dst₁ dst₂ : List Byte} (h₁ : Consumed stream rest dst₁)
    (h₂ : Consumed stream rest dst₂) : dst₁ = dst₂ := by
  obtain ⟨hn₁, h₁ | ⟨c₁, hc₁, h₁⟩⟩ := h₁ <;> obtain ⟨hn₂, h₂ | ⟨c₂, hc₂, h₂⟩⟩ := h₂
  · exact List.append_cancel_right (h₁.symm.trans h₂)
  · exact absurd (h₁.symm.trans h₂) (append_ne_eoln hn₁ hc₂)
  · exact absurd (h₂.symm.trans h₁) (append_ne_eoln hn₂ hc₁)
  · exact List.append_inj_left' (h₁.symm.trans h₂) rfl

end

end Nachos.Syscall
