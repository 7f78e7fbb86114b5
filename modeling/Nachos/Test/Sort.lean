import Nachos.Lib.ExchangeSort
import Nachos.Lib.Programs
import Nachos.Userprog.PrintInt
import Nachos.Userprog.PrintString

/-!
# Test — Sort

test/sort.c from its first prompt to its last line: it reads a number and as many `int`s, sorts them
in its array of 100 and prints them.  The program is a `Program` of system calls, each of which runs
its handler on the `World`.  Its variables `n` and `a` are held beside the `World`, whose memory stands
for the rest of the address space, the prompts among it; nothing is said of what the memory becomes.
-/

namespace Nachos.Syscall
open Lib Machine SynchConsole

def SC_ReadInt : Word := 11
def SC_PrintInt : Word := 12
def SC_PrintChar : Word := 14
def SC_PrintString : Word := 16

/-- A system call: its code, and the argument in `r4`, if there is one. -/
structure SysCall where
  type : Word
  arg : Option Word

/-- The process makes a system call. -/
def World.trap (w : World) (c : SysCall) : World :=
  match c.arg with
  | some r4 => { w with machine := w.machine.setRegister 4 r4 }
  | none => w

/-- A system call returns, with its answer in `r2`. -/
def Serves (other : Call → World → Effect) (c : SysCall) (w : World) (r2 : Word) (w' : World) :
    Prop :=
  (∃ fuel, run other fuel (handler c.type) (w.trap c) = .returned w') ∧
    w'.machine.registers 2 = r2

/-- The bytes of a string literal. -/
def literal (s : String) : List Byte := s.toList.map fun c => BitVec.ofNat 8 c.toNat

def promptCount : List Byte := literal "Nhap so luong phan tu cua mang: "
def promptNumbers : List Byte := literal "Nhap cac phan tu cua mang: "
def promptSorted : List Byte := literal "Cac phan tu cua mang sau khi duoc sap xep: "

/-- `main` of sort.c, with the addresses of its three prompts. -/
def sort (p₁ p₂ p₃ : Word) : Program SysCall Word Unit :=
  .call ⟨SC_PrintString, some p₁⟩ fun _ =>
  .call ⟨SC_ReadInt, none⟩ fun r =>
  .call ⟨SC_PrintString, some p₂⟩ fun _ =>
  let n := r.toInt.toNat
  (Program.loop (fun i a => .call ⟨SC_ReadInt, none⟩ fun r => .done (a.set i r.toInt)) n 0
    (List.replicate 100 (0 : Int))).bind fun a =>
  let a := exchangeSort n (n - 1) 0 a
  .call ⟨SC_PrintString, some p₃⟩ fun _ =>
  Program.loop (fun i _ =>
    .call ⟨SC_PrintInt, some (BitVec.ofInt 32 (a.getD i 0))⟩ fun _ =>
    .call ⟨SC_PrintChar, some (if i + 1 = n then 0x0a else 0x20)⟩ fun _ =>
    .done ()) n 0 ()

/-! ### What the system calls do to the console -/

/-- A process on `pageTable` with this memory, what is still to be read, and what has been sent. -/
structure Console (pageTable : List TranslationEntry) (mem chars sent : List Byte) (w : World) :
    Prop where
  runs : Runs pageTable w.machine
  memory : flat pageTable w.machine = mem
  input : text w.stream = chars
  output : w.sent = sent

section
variable {other : Call → World → Effect} {pageTable : List TranslationEntry}
  {mem chars sent : List Byte} {w : World}

theorem Console.trap (h : Console pageTable mem chars sent w) (c : SysCall) :
    Console pageTable mem chars sent (w.trap c) := by
  unfold World.trap
  split
  · exact ⟨runs_congr h.runs rfl rfl, h.memory, h.input, h.output⟩
  · exact h

theorem serves_printString (other) {v : Word} (hv : v ≠ 0) {s : List Byte} (hnul : 0 ∉ s)
    (hs : ∃ r, mem.drop v.toNat = s ++ 0 :: r) (h : Console pageTable mem chars sent w) :
    ∃ r w', Serves other ⟨SC_PrintString, some v⟩ w r w' ∧
      Console pageTable mem chars (sent ++ s) w' := by
  have ht := h.trap ⟨SC_PrintString, some v⟩
  obtain ⟨fuel, m', e, hruns, hflat⟩ := run_printString other ht.runs
    (show _ = v from rfl) hv ⟨hnul, by rw [ht.memory]; exact hs⟩
  refine ⟨_, _, ⟨⟨fuel, e⟩, rfl⟩, runs_congr hruns rfl rfl, hflat.trans ht.memory, ht.input, ?_⟩
  exact congrArg (· ++ s) ht.output

/-- A number as it is typed: blanks, the numeral, and the character behind it. -/
structure Typed where
  blanks : List Byte
  number : Int
  last : Byte

def Typed.bytes (g : Typed) : List Byte := g.blanks ++ (decimal g.number ++ [g.last])

structure Typed.Ok (g : Typed) : Prop where
  blanks : ∀ b ∈ g.blanks, isSpace b = true
  range : -2 ^ 31 ≤ g.number ∧ g.number < 2 ^ 31
  last : isSpace g.last = true

theorem numeralValue_digits (x : Int) :
    numeralValue (decide (x < 0)) (digits x.natAbs) = x := by
  rw [numeralValue, magnitude_digits, signed]
  by_cases hneg : x < 0
  · rw [if_pos (decide_eq_true hneg)]
    omega
  · rw [if_neg (by simpa using hneg)]
    omega

theorem serves_readInt (other) {g : Typed} (hg : g.Ok)
    (h : Console pageTable mem (g.bytes ++ chars) sent w) :
    ∃ w', Serves other ⟨SC_ReadInt, none⟩ w (BitVec.ofInt 32 g.number) w' ∧
      Console pageTable mem chars sent w' := by
  obtain ⟨rest, hrest, hd⟩ := exists_delivers h.input
  rw [Typed.bytes, decimal_eq, List.append_assoc] at hd
  have hlast : isDigit g.last = false := by
    rcases isSpace_iff.mp hg.last with e | e | e <;> rw [e] <;> rfl
  obtain ⟨fuel, hrun⟩ := run_readInt_numeral other hg.blanks (isDigit_digits _)
    (fun _ => digits_ne_nil) hlast hd
  have hvalue := numeralValue_digits g.number
  rw [accumulated_of_inRange (by rw [hvalue]; exact ⟨hg.range.1, by have := hg.range.2; omega⟩),
    hvalue] at hrun
  exact ⟨_, ⟨⟨fuel, hrun⟩, rfl⟩, runs_congr h.runs rfl rfl, h.memory, hrest, h.output⟩

theorem serves_printInt (other) {x : Int} (hx : -2 ^ 31 ≤ x ∧ x < 2 ^ 31)
    (h : Console pageTable mem chars sent w) :
    ∃ r w', Serves other ⟨SC_PrintInt, some (BitVec.ofInt 32 x)⟩ w r w' ∧
      Console pageTable mem chars (sent ++ decimal x) w' := by
  have ht := h.trap ⟨SC_PrintInt, some (BitVec.ofInt 32 x)⟩
  have hint : (BitVec.ofInt 32 x).toInt = x := BitVec.toInt_ofInt_eq_self (by decide) hx.1 hx.2
  have e : exec other SyscallPrintInt (w.trap ⟨SC_PrintInt, some (BitVec.ofInt 32 x)⟩) =
      .returned { w.trap ⟨SC_PrintInt, some (BitVec.ofInt 32 x)⟩ with
        machine := (w.trap ⟨SC_PrintInt, some (BitVec.ofInt 32 x)⟩).machine.adjustPCRegs
        sent := w.sent ++ decimal x } := by
    rw [SyscallPrintInt, exec]
    rw [show (w.trap ⟨SC_PrintInt, some (BitVec.ofInt 32 x)⟩).machine.registers 4 =
      BitVec.ofInt 32 x from rfl, hint]
    dsimp only
    rw [exec_call (call_write (Int.le_refl _)), Int.toNat_natCast, List.take_length]
    rfl
  exact ⟨_, _, ⟨⟨0, e⟩, rfl⟩, runs_congr ht.runs rfl rfl, ht.memory, ht.input,
    congrArg (· ++ decimal x) h.output⟩

theorem serves_printChar (other) (c : Word) (h : Console pageTable mem chars sent w) :
    ∃ r w', Serves other ⟨SC_PrintChar, some c⟩ w r w' ∧
      Console pageTable mem chars (sent ++ [c.truncate 8]) w' := by
  have ht := h.trap ⟨SC_PrintChar, some c⟩
  exact ⟨_, _, ⟨⟨0, rfl⟩, rfl⟩, runs_congr ht.runs rfl rfl, ht.memory, ht.input,
    congrArg (· ++ [c.truncate 8]) h.output⟩

/-! ### The program -/

/-- The numbers of the last line. -/
def numbersLine : List Int → List Byte
  | [] => []
  | x :: l => decimal x ++ (if l = [] then 0x0a else 0x20) :: numbersLine l

/-- The rounds that read the numbers. -/
theorem reads_numbers (other) {gs : List Typed} (hgs : ∀ g ∈ gs, g.Ok) (hlen : gs.length ≤ 100) :
    Triple (Serves other) (Console pageTable mem (gs.flatMap Typed.bytes ++ chars) sent)
      (Program.loop (fun i a => .call ⟨SC_ReadInt, none⟩ fun r => .done (a.set i r.toInt))
        gs.length 0 (List.replicate 100 (0 : Int)))
      fun a w => Console pageTable mem chars sent w ∧
        a = gs.map Typed.number ++ List.replicate (100 - gs.length) 0 := by
  refine .mono (.loop (fun i a w =>
    Console pageTable mem ((gs.drop i).flatMap Typed.bytes ++ chars) sent w ∧
      a = (gs.take i).map Typed.number ++ List.replicate (100 - i) 0) fun i a _ hi => ?_)
    (fun w h => ⟨h, rfl⟩) fun a w h => ?_
  · rw [Nat.zero_add] at hi
    have hg := hgs _ (List.getElem_mem hi)
    refine .call (fun r w => r = BitVec.ofInt 32 gs[i].number ∧
      Console pageTable mem ((gs.drop (i + 1)).flatMap Typed.bytes ++ chars) sent w ∧
        a = (gs.take i).map Typed.number ++ List.replicate (100 - i) 0) ?_ fun r => .done ?_
    · rintro w ⟨h, ha⟩
      rw [List.drop_eq_getElem_cons hi, List.flatMap_cons, List.append_assoc] at h
      obtain ⟨w', hs, h'⟩ := serves_readInt other hg h
      exact ⟨_, w', hs, rfl, h', ha⟩
    · rintro w ⟨rfl, h, rfl⟩
      refine ⟨h, ?_⟩
      have htake : ((gs.take i).map Typed.number).length = i := by
        rw [List.length_map, List.length_take]
        omega
      rw [BitVec.toInt_ofInt_eq_self (by decide) hg.range.1 hg.range.2, List.set_append,
        if_neg (by omega), htake, Nat.sub_self, show 100 - i = 100 - (i + 1) + 1 by omega,
        List.replicate_succ, List.set_cons_zero, List.take_succ_eq_append_getElem hi, List.map_append,
        List.append_assoc]
      rfl
  · rw [Nat.zero_add, List.drop_length, List.take_length] at h
    exact h

/-- The rounds that print the numbers. -/
theorem prints_numbers (other) {a ys : List Int} {n : Nat}
    (hys : ∀ y ∈ ys, -2 ^ 31 ≤ y ∧ y < 2 ^ 31) (hlen : ys.length = n) (ha : a.take n = ys) :
    Triple (Serves other) (Console pageTable mem chars sent)
      (Program.loop (fun i _ =>
        .call ⟨SC_PrintInt, some (BitVec.ofInt 32 (a.getD i 0))⟩ fun _ =>
        .call ⟨SC_PrintChar, some (if i + 1 = n then 0x0a else 0x20)⟩ fun _ =>
        .done ()) n 0 ())
      fun _ => Console pageTable mem chars (sent ++ numbersLine ys) := by
  subst hlen
  refine .mono (.loop (fun i _ w => ∃ out, Console pageTable mem chars out w ∧
    out ++ numbersLine (ys.drop i) = sent ++ numbersLine ys) fun i _ _ hi => ?_)
    (fun w h => ⟨sent, h, rfl⟩) fun _ w h => ?_
  · rw [Nat.zero_add] at hi
    have hget : a.getD i 0 = ys[i] := by
      rw [List.getD_eq_getElem?_getD, ← List.getElem?_take_of_lt hi, ha, List.getElem?_eq_getElem hi]
      rfl
    rw [hget]
    refine .call (fun _ w => ∃ out, Console pageTable mem chars (out ++ decimal ys[i]) w ∧
      out ++ numbersLine (ys.drop i) = sent ++ numbersLine ys) ?_ fun _ => .call (fun _ w =>
        ∃ out, Console pageTable mem chars out w ∧
          out ++ numbersLine (ys.drop (i + 1)) = sent ++ numbersLine ys) ?_ fun _ => .done fun _ h => h
    · rintro w ⟨out, h, hout⟩
      obtain ⟨r, w', hs, h'⟩ := serves_printInt other (hys _ (List.getElem_mem hi)) h
      exact ⟨r, w', hs, out, h', hout⟩
    · rintro w ⟨out, h, hout⟩
      obtain ⟨r, w', hs, h'⟩ := serves_printChar other _ h
      refine ⟨r, w', hs, _, h', ?_⟩
      rw [List.drop_eq_getElem_cons hi, numbersLine] at hout
      rw [← hout]
      have hlast : i + 1 = ys.length ↔ ys.drop (i + 1) = [] := by
        rw [List.drop_eq_nil_iff]
        omega
      simp only [← hlast]
      split <;> simp
  · obtain ⟨out, hc, hout⟩ := h
    rw [Nat.zero_add, List.drop_length, numbersLine, List.append_nil] at hout
    rwa [← hout]

/-- **sort.c sorts.**  When a count of at most 100 and as many numbers are typed, between blanks, the
program comes to its end: it has read them and nothing more, and has printed its prompts and then the
same numbers in order, on one line. -/
theorem sort_sorts (other) {p₁ p₂ p₃ : Word} (hruns : Runs pageTable w.machine)
    (h₁ : p₁ ≠ 0 ∧ StringAt pageTable w.machine p₁ promptCount)
    (h₂ : p₂ ≠ 0 ∧ StringAt pageTable w.machine p₂ promptNumbers)
    (h₃ : p₃ ≠ 0 ∧ StringAt pageTable w.machine p₃ promptSorted) {count : Typed} {gs : List Typed}
    (hcount : count.Ok ∧ count.number = gs.length) (hgs : ∀ g ∈ gs, g.Ok) (hlen : gs.length ≤ 100)
    (hinput : text w.stream = count.bytes ++ (gs.flatMap Typed.bytes ++ chars)) :
    ∃ ys w', Program.Ends (Serves other) (sort p₁ p₂ p₃) w () w' ∧
      ys.Perm (gs.map Typed.number) ∧ ys.Pairwise (· ≤ ·) ∧
      w'.sent = w.sent ++ promptCount ++ promptNumbers ++ promptSorted ++ numbersLine ys ∧
      text w'.stream = chars := by
  obtain ⟨a, ha⟩ : ∃ a, a = gs.map Typed.number ++ List.replicate (100 - gs.length) 0 := ⟨_, rfl⟩
  have hsize : (gs.map Typed.number).length = gs.length := List.length_map _
  have htake : a.take gs.length = gs.map Typed.number := by
    rw [ha, ← hsize, List.take_left]
  obtain ⟨hperm, hsorted⟩ := exchangeSort_sorts (a := a) (n := gs.length)
    (by rw [ha, List.length_append]; omega)
  rw [htake] at hperm
  obtain ⟨ys, hys⟩ : ∃ ys, ys = (exchangeSort gs.length (gs.length - 1) 0 a).take gs.length :=
    ⟨_, rfl⟩
  rw [← hys] at hperm hsorted
  have hysLen : ys.length = gs.length := hperm.length_eq.trans hsize
  have hrange : ∀ y ∈ ys, -2 ^ 31 ≤ y ∧ y < 2 ^ 31 := by
    intro y hy
    obtain ⟨g, hg, rfl⟩ := List.mem_map.mp (hperm.mem_iff.mp hy)
    exact (hgs g hg).range
  have hvalue : (BitVec.ofInt 32 count.number).toInt.toNat = gs.length := by
    rw [BitVec.toInt_ofInt_eq_self (by decide) hcount.1.range.1 hcount.1.range.2, hcount.2]
    rfl
  obtain ⟨mem, hmem⟩ : ∃ mem, mem = flat pageTable w.machine := ⟨_, rfl⟩
  rw [StringAt, ← hmem] at h₁ h₂ h₃
  have htriple : Triple (Serves other)
      (Console pageTable mem (count.bytes ++ (gs.flatMap Typed.bytes ++ chars)) w.sent)
      (sort p₁ p₂ p₃) fun _ => Console pageTable mem chars
        (w.sent ++ promptCount ++ promptNumbers ++ promptSorted ++ numbersLine ys) := by
    refine .call (fun _ => Console pageTable mem (count.bytes ++ (gs.flatMap Typed.bytes ++ chars))
      (w.sent ++ promptCount)) (fun _ h => serves_printString other h₁.1 h₁.2.1 h₁.2.2 h) fun _ => ?_
    refine .call (fun r w' => r = BitVec.ofInt 32 count.number ∧
      Console pageTable mem (gs.flatMap Typed.bytes ++ chars) (w.sent ++ promptCount) w') ?_
      fun r => .assume ?_
    · intro w₁ h
      obtain ⟨w₂, hs, h'⟩ := serves_readInt other hcount.1 h
      exact ⟨_, w₂, hs, rfl, h'⟩
    rintro rfl
    refine .call (fun _ => Console pageTable mem (gs.flatMap Typed.bytes ++ chars)
      (w.sent ++ promptCount ++ promptNumbers))
      (fun _ h => serves_printString other h₂.1 h₂.2.1 h₂.2.2 h) fun _ => ?_
    dsimp only
    rw [hvalue]
    refine .bind ((reads_numbers other hgs hlen).mono (fun _ h => h) fun _ _ h => h.symm)
      fun b => .assume ?_
    rintro rfl
    rw [← ha]
    refine .call (fun _ => Console pageTable mem chars
      (w.sent ++ promptCount ++ promptNumbers ++ promptSorted))
      (fun _ h => serves_printString other h₃.1 h₃.2.1 h₃.2.2 h) fun _ => ?_
    exact prints_numbers other hrange hysLen hys.symm
  obtain ⟨_, w', hends, hc⟩ := htriple w ⟨hruns, hmem.symm, hinput, rfl⟩
  exact ⟨ys, w', hends, hperm, hsorted, hc.output, hc.input⟩

end

/-- A process with the three prompts in its memory and two numbers to read. -/
def twoNumbers : World :=
  { callWith 0 0 0 [] (literal "2\n9 -4\n!") with
    machine := { twoPageMachine with
      mainMemory := fun a =>
        (0 :: (promptCount ++ 0 :: (promptNumbers ++ 0 :: (promptSorted ++ [0])))).getD
          (a - 5 * PageSize) 0 } }

def nineAndMinusFour : List Typed := [⟨[], 9, 0x20⟩, ⟨[], -4, 0x0a⟩]

/-- It prints `-4 9` and leaves the `!`. -/
theorem sort_sorts_two : ∃ w', Program.Ends (Serves noOther) (sort 1 34 62) twoNumbers () w' ∧
    w'.sent = promptCount ++ promptNumbers ++ promptSorted ++ [0x2d, 0x34, 0x20, 0x39, 0x0a] ∧
    text w'.stream = [0x21] := by
  have hruns : Runs twoPages twoNumbers.machine :=
    ⟨twoPages, ⟨rfl, rfl, by decide, by decide, by decide, by decide⟩, rfl⟩
  have hcount : Typed.Ok ⟨[], 2, 0x0a⟩ := ⟨by decide, by decide, by decide⟩
  have hgs : ∀ g ∈ nineAndMinusFour, g.Ok := by
    simp only [nineAndMinusFour, List.forall_mem_cons]
    exact ⟨⟨by decide, by decide, by decide⟩, ⟨by decide, by decide, by decide⟩, by simp⟩
  have h₁ : (1 : Word) ≠ 0 ∧ StringAt twoPages twoNumbers.machine 1 promptCount :=
    ⟨by decide, by decide +kernel, (flat twoPages twoNumbers.machine).drop 34, by decide +kernel⟩
  have h₂ : (34 : Word) ≠ 0 ∧ StringAt twoPages twoNumbers.machine 34 promptNumbers :=
    ⟨by decide, by decide +kernel, (flat twoPages twoNumbers.machine).drop 62, by decide +kernel⟩
  have h₃ : (62 : Word) ≠ 0 ∧ StringAt twoPages twoNumbers.machine 62 promptSorted :=
    ⟨by decide, by decide +kernel, (flat twoPages twoNumbers.machine).drop 106, by decide +kernel⟩
  obtain ⟨ys, w', hends, hperm, hsorted, hout, hin⟩ := @sort_sorts _ [0x21] _ noOther 1 34 62 hruns
    h₁ h₂ h₃ _ nineAndMinusFour ⟨hcount, rfl⟩ hgs (by decide) (by decide +kernel)
  have hys : ys = [-4, 9] :=
    List.Perm.eq_of_pairwise (fun _ _ _ _ => le_antisymm) hsorted (by decide)
      (hperm.trans (List.Perm.swap _ _ _))
  subst hys
  exact ⟨w', hends, hout, hin⟩

end Nachos.Syscall
