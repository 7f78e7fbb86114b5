import Nachos.Userprog.Transfer

/-!
# Userprog — ReadString

`SyscallReadString` (userprog/exception.cc) with its kernel buffer: `readString` runs the handler and
`SynchConsole::Read` on a `Buffer`, which keeps the indices that are used.  It ends as the handler of
`Exception` ends (`readString_eq`).

The handler takes the answer of `Read` for the index of the terminator, and a Ctrl-A answers -1; it
does not look at its length argument before it allocates, and what it takes may hold a zero.
`read_string_iff` says exactly when the call does what its documentation says.
-/

namespace Nachos.Syscall
open Lib Machine SynchConsole

/-! ### The kernel buffer -/

/-- The kernel buffer, by the distance from its first byte, and the indices used so far. -/
structure Buffer where
  bytes : Int → Byte
  used : List Int

namespace Buffer

def put (b : Buffer) (i : Int) (c : Byte) : Buffer := ⟨Function.update b.bytes i c, i :: b.used⟩

/-- `memset` with 0, and the first loop of `SynchConsole::Read`. -/
def zero (b : Buffer) : (len : Nat) → Buffer
  | 0 => b
  | len + 1 => (b.zero len).put len 0

/-- The buffer behind a `System2User` of `len` bytes, if no address of the user is wrong. -/
def read (b : Buffer) (len : Nat) : Buffer :=
  { b with used :=
      (List.range (toUser (fun i => b.bytes i) len 0).length).map Int.ofNat ++ b.used }

end Buffer

/-- The loop of `SynchConsole::Read` with its stores.  It ends with the number of characters, the last
one looked at, and what is left, or it waits. -/
def readInto (numBytes : Int) : (stream : List Byte) → (into : Buffer) → (loop : Nat) → (ch : Byte) →
    Buffer × Option (Nat × Byte × List Byte)
  | [], into, loop, ch => (into, if (loop : Int) < numBytes then none else some (loop, ch, []))
  | c :: stream, into, loop, ch =>
      if (loop : Int) < numBytes then
        if c = EOF then readInto numBytes stream into loop c
        else if isEoln c then (into, some (loop, c, stream))
        else readInto numBytes stream (into.put loop c) (loop + 1) c
      else (into, some (loop, ch, c :: stream))

/-- The handler, behind the `Read`. -/
def copyString (strAddr : Word) (len realLen : Int) (kernelBuff : Buffer) (w : World) :
    Outcome × List Int :=
  if len < realLen then (.aborted, kernelBuff.used)
  else
    let kernelBuff := kernelBuff.put realLen 0
    (.ofResult w (Machine.system2User strAddr (realLen + 1) (fun i => kernelBuff.bytes i) w.machine)
      fun _ w => .returned (w.resume 0), (kernelBuff.read (realLen + 1).toNat).used)

/-- `SyscallReadString`, and the indices it uses on its kernel buffer; `heap` is what was there
before.  With a negative `len` the allocation or the `memset` does not return. -/
def readString (heap : Int → Byte) (w : World) : Outcome × List Int :=
  let strAddr := w.machine.registers 4
  let len := w.machine.registers 5
  if strAddr = 0 then (.returned (w.resume (-1)), [])
  else if (len + 1).toInt < 0 then (.aborted, [])
  else if len.toInt < 0 then (.aborted, [])
  else
    match readInto len.toInt w.stream (((Buffer.mk heap []).zero len.toNat).zero len.toNat) 0 w.ch with
    | (kernelBuff, none) => (.blocked w, kernelBuff.used)
    | (kernelBuff, some (loop, ch, stream)) =>
        copyString strAddr len.toInt (if ch = 0x01 ∧ loop = 0 then -1 else loop) kernelBuff
          { w with stream := stream }

/-! ### The indices -/

/-- The buffer begins with `dst`, and no index but the first `n` has been used. -/
structure Buffer.Holds (n : Nat) (dst : List Byte) (b : Buffer) : Prop where
  bytes : ∀ i < dst.length, b.bytes i = dst.getD i 0
  used : ∀ i ∈ b.used, 0 ≤ i ∧ i < n
  le : dst.length ≤ n

section
variable {n : Nat} {dst : List Byte} {b : Buffer}

theorem Buffer.used_zero (h : ∀ i ∈ b.used, 0 ≤ i ∧ i < n) {len : Nat} (hlen : len ≤ n) :
    ∀ i ∈ (b.zero len).used, 0 ≤ i ∧ i < n := by
  induction len with
  | zero => exact h
  | succ len ih =>
      intro i hi
      rcases List.mem_cons.mp hi with rfl | hi
      · omega
      · exact ih (by omega) i hi

theorem Buffer.Holds.start (heap : Int → Byte) (n : Nat) :
    Holds n [] (((Buffer.mk heap []).zero n).zero n) where
  bytes i hi := absurd hi (Nat.not_lt_zero i)
  used := used_zero (used_zero (fun _ hi => absurd hi List.not_mem_nil) (Nat.le_refl n))
    (Nat.le_refl n)
  le := Nat.zero_le n

/-- A byte is stored behind those that are there. -/
theorem Buffer.put_bytes (h : ∀ i < dst.length, b.bytes i = dst.getD i 0) (c : Byte) {i : Nat}
    (hi : i ≤ dst.length) : (b.put dst.length c).bytes i = (dst ++ [c]).getD i 0 := by
  show Function.update b.bytes _ c (i : Int) = _
  by_cases he : i = dst.length
  · subst he
    simp [List.getD_eq_getElem?_getD]
  · rw [Function.update_of_ne (by omega), h i (by omega), List.getD_eq_getElem?_getD,
      List.getD_eq_getElem?_getD, List.getElem?_append_left (by omega)]

theorem Buffer.Holds.put (h : Holds n dst b) (hn : dst.length < n) (c : Byte) :
    Holds n (dst ++ [c]) (b.put dst.length c) where
  bytes i hi := by
    rw [List.length_append, List.length_singleton] at hi
    exact put_bytes h.bytes c (by omega)
  used i hi := by
    rcases List.mem_cons.mp hi with rfl | hi
    · omega
    · exact h.used i hi
  le := by
    rw [List.length_append, List.length_singleton]
    omega

/-- How the loop with its stores ends when the loop without them ends in that way. -/
inductive Stores (n : Nat) :
    Option (List Byte × Byte × List Byte) → Buffer × Option (Nat × Byte × List Byte) → Prop where
  | ends {dst : List Byte} {b : Buffer} {c : Byte} {rest : List Byte} (h : b.Holds n dst) :
      Stores n (some (dst, c, rest)) (b, some (dst.length, c, rest))
  | blocks {dst : List Byte} {b : Buffer} (h : b.Holds n dst) : Stores n none (b, none)

theorem readInto_stores (h : b.Holds n dst) (stream : List Byte) (ch : Byte) :
    Stores n (readLoop n stream dst ch) (readInto n stream b dst.length ch) := by
  induction stream generalizing dst b ch with
  | nil =>
      rw [readLoop, readInto]
      split
      · exact .blocks h
      · exact .ends h
  | cons c stream ih =>
      rw [readLoop, readInto]
      split
      · split
        · exact ih h c
        · split
          · exact .ends h
          · have hput := ih (h.put (by omega) c) c
            rwa [List.length_append, List.length_singleton] at hput
      · exact .ends h

end

/-! ### The same end -/

section
variable {v : Word} {m : Machine}

/-- The copy looks at the bytes it is asked for only. -/
theorem system2UserLoop_congr {buffer buffer' : Nat → Byte} {rest i : Nat}
    (h : ∀ j, i ≤ j → j ≤ i + rest → buffer j = buffer' j) :
    system2UserLoop v buffer rest i = system2UserLoop v buffer' rest i := by
  have hi : buffer i = buffer' i := h i (Nat.le_refl i) (Nat.le_add_right i rest)
  induction rest generalizing i with
  | zero => rw [system2UserLoop_last (.inl rfl), system2UserLoop_last (.inl rfl), hi]
  | succ rest ih =>
      by_cases h0 : buffer i = 0
      · rw [system2UserLoop_last (.inr h0), system2UserLoop_last (.inr (hi ▸ h0)), hi]
      · rw [system2UserLoop_more h0, system2UserLoop_more (hi ▸ h0), hi,
          ih (fun j hj hj' => h j (by omega) (by omega)) (h (i + 1) (by omega) (by omega))]

theorem system2User_congr {buffer buffer' : Nat → Byte} {len : Int}
    (h : ∀ j : Nat, (j : Int) < len → buffer j = buffer' j) :
    system2User v len buffer = system2User v len buffer' := by
  unfold system2User
  split
  · rfl
  · split
    · rfl
    · rw [system2UserLoop_congr fun j _ hj => h j (by omega)]

end

section
variable {other : Call → World → Effect} {pageTable : List TranslationEntry} {w : World}
  {v n fid : Word}

theorem consoleRead_of_loop {numBytes : Int} {ch c : Byte} {stream dst rest : List Byte}
    (h : readLoop numBytes stream [] ch = some (dst, c, rest)) :
    consoleRead numBytes ch stream =
      some (⟨if c = 0x01 ∧ dst.length = 0 then -1 else dst.length,
        dst ++ List.replicate (numBytes.toNat - dst.length) 0⟩, rest) := by
  rw [consoleRead, h]
  rfl

/-- The handler ends as `copyString` does, behind a `Read` that has taken `dst`. -/
theorem exec_copyString {len : Int} {b : Buffer} {dst : List Byte} {ch : Byte}
    (hb : ∀ i < dst.length, b.bytes i = dst.getD i 0) {r : Answer}
    (hvalue : r.value = if ch = 0x01 ∧ dst.length = 0 then -1 else (dst.length : Int))
    (hbytes : ∃ t, r.bytes = dst ++ t) :
    (copyString v len r.value b w).1 = exec other (if len < r.value then .abort
      else .system2User v (r.value + 1) (r.bytes.take r.value.toNat ++ [0]) (.returns 0)) w := by
  rw [copyString]
  split
  · rfl
  · rw [exec]
    dsimp only
    rw [system2User_congr fun i hi => ?_]
    · rfl
    obtain ⟨t, ht⟩ := hbytes
    by_cases hA : ch = 0x01 ∧ dst.length = 0
    · rw [if_pos hA] at hvalue
      omega
    rw [if_neg hA] at hvalue
    rw [hvalue, Int.toNat_natCast, ht, List.take_left]
    exact Buffer.put_bytes hb 0 (by omega)

/-- **`readString` ends as the handler does.** -/
theorem readString_eq (heap : Int → Byte) :
    (readString heap w).1 = exec other SyscallReadString w := by
  rw [readString, SyscallReadString, exec]
  split
  · rfl
  rw [exec, Prog.newBuffer]
  split
  · rfl
  split
  · rfl
  next hlen =>
    have hint : ((w.machine.registers 5).toNat : Int) = (w.machine.registers 5).toInt :=
      (toInt_eq_toNat (by omega)).symm
    have hst := readInto_stores (.start heap (w.machine.registers 5).toNat) w.stream w.ch
    rw [hint, List.length_nil] at hst
    generalize hloop : readLoop (w.machine.registers 5).toInt w.stream [] w.ch = o at hst
    generalize readInto _ _ _ _ _ = p at hst ⊢
    cases hst with
    | blocks => rw [exec_call_blocks (call_read_blocks (by rw [consoleRead, hloop]; rfl))]
    | ends hb =>
        rw [exec_call (call_read (consoleRead_of_loop hloop))]
        exact exec_copyString (r := ⟨_, _⟩) hb.bytes rfl ⟨_, rfl⟩

/-! ### What it leaves -/

/-- What the documentation says of a `ReadString` that is not refused: the characters it has taken
are in the buffer as a string, at most `n`, and nothing behind `buffer + n` is changed. -/
structure StringRead (pageTable : List TranslationEntry) (w : World) (v : Word) (n : Nat)
    (w' : World) : Prop where
  string : ∃ dst, Consumed w.stream w'.stream dst ∧ dst.length ≤ n ∧ 0 ∉ dst ∧
    ∀ i ≤ dst.length, (flat pageTable w'.machine)[v.toNat + i]? = (dst ++ [0])[i]?
  others : ∀ x, x < v.toNat ∨ v.toNat + n < x →
    (flat pageTable w'.machine)[x]? = (flat pageTable w.machine)[x]?

/-- The request is refused, and no memory is touched. -/
structure Refused (pageTable : List TranslationEntry) (w w' : World) : Prop where
  r2 : (w'.machine.registers 2).toInt = -1
  memory : flat pageTable w'.machine = flat pageTable w.machine

/-- What `SynchConsole::Read` takes for the end of the stream: a Ctrl-A in the first place.  A `Read`
of no character finds on its stack what was there. -/
def CtrlA (w : World) (n : Nat) : Prop :=
  if n = 0 then w.ch = 0x01 else (text w.stream).head? = some 0x01

/-- The ways `SyscallReadString` ends, with the indices it uses. -/
inductive StringEnds (pageTable : List TranslationEntry) (w : World) (v : Word) (n : Nat)
    (dst : List Byte) : Outcome × List Int → Prop where
  | blocks {used : List Int} (h : ¬ Suffices n w.stream) (hused : ∀ i ∈ used, 0 ≤ i ∧ i ≤ n) :
      StringEnds pageTable w v n dst (.blocked w, used)
  | ctrlA {o : Outcome × List Int} (h : Suffices n w.stream) (hA : CtrlA w n) (hused : -1 ∈ o.2) :
      StringEnds pageTable w v n dst o
  | outside {which : ExceptionType} {w' : World} {used : List Int} (h : Suffices n w.stream)
      (hfit : pageTable.length * PageSize < v.toNat + (through isNul (dst ++ [0])).length) :
      StringEnds pageTable w v n dst (.raised which w', used)
  | taken {rest : List Byte} {m' : Machine} {used : List Int} (h : Suffices n w.stream)
      (hA : ¬ CtrlA w n) (hused : ∀ i ∈ used, 0 ≤ i ∧ i ≤ n) (hdst : Consumed w.stream rest dst)
      (hfit : v.toNat + (through isNul (dst ++ [0])).length ≤ pageTable.length * PageSize)
      (hflat : flat pageTable m' =
        overlay (flat pageTable w.machine) v.toNat (through isNul (dst ++ [0]))) :
      StringEnds pageTable w v n dst
        (.returned ({ w with stream := rest, machine := m' }.resume 0), used)

theorem head?_line {stream : List Byte} {c : Byte} (h : line stream ≠ []) :
    (text stream).head? = some c → isEoln c = false := by
  intro hc
  obtain ⟨t, ht⟩ := List.takeWhile_prefix (l := text stream) fun ch => !isEoln ch
  obtain ⟨a, l, hl⟩ := List.exists_cons_of_ne_nil h
  rw [← ht, show (text stream).takeWhile _ = line stream from rfl, hl] at hc
  cases hc
  exact line_not_eoln (by rw [hl]; exact List.mem_cons_self)

/-- What the loop of `Read` has at its end. -/
theorem readLoop_taken {n : Nat} {dst rest : List Byte} {c : Byte}
    (h : readLoop n w.stream [] w.ch = some (dst, c, rest)) :
    Suffices n w.stream ∧ dst = (line w.stream).take n ∧ (c = 0x01 ∧ dst.length = 0 ↔ CtrlA w n) ∧
      Consumed w.stream rest dst := by
  rcases Nat.eq_zero_or_pos n with rfl | hn
  · rw [readLoop_full _ _ _ (by decide)] at h
    cases h
    exact ⟨.inl (Nat.zero_le _), rfl, by simp [CtrlA], fun _ hc => absurd hc List.not_mem_nil, .inl rfl⟩
  have hends := readLoop_ends w.stream [] w.ch hn
  rw [List.length_nil, Nat.cast_zero, Int.zero_add, h] at hends
  generalize ho : some (dst, c, rest) = o at hends
  unfold CtrlA
  rw [if_neg (Nat.ne_of_gt hn)]
  cases hends with
  | blocks => cases ho
  | full hline hc hrest =>
      cases ho
      have hlen : ((line w.stream).take n).length = n := List.length_take_of_le hline
      have hne : line w.stream ≠ [] := List.ne_nil_of_length_pos (by omega)
      rw [List.nil_append]
      refine ⟨.inl hline, rfl, iff_of_false (fun h => by omega) fun hA => ?_,
        .full hline hrest⟩
      exact absurd (head?_line hne hA) (by decide)
  | line hline hc htext =>
      cases ho
      rw [List.nil_append]
      refine ⟨.inr (text_ne_line htext), (List.take_of_length_le (Nat.le_of_lt hline)).symm, ?_,
        .line hc htext⟩
      by_cases hl : line w.stream = []
      · rw [htext, hl]
        simp
      · refine iff_of_false (fun h => hl (List.length_eq_zero_iff.mp h.2)) fun hA => ?_
        exact absurd (head?_line hl hA) (by decide)

theorem readLoop_waits {n : Nat} (h : readLoop n w.stream [] w.ch = none) :
    ¬ Suffices n w.stream := by
  rcases Nat.eq_zero_or_pos n with rfl | hn
  · rw [readLoop_full _ _ _ (by decide)] at h
    cases h
  have hends := readLoop_ends w.stream [] w.ch hn
  rw [List.length_nil, Nat.cast_zero, Int.zero_add, h] at hends
  cases hends with
  | blocks hline htext => exact not_or.mpr ⟨by omega, not_not.mpr htext⟩

/-- The indices that are used for the terminator and for the copy. -/
theorem used_copyString {len realLen : Int} {b : Buffer} (h : ¬ len < realLen) (i : Int) :
    i ∈ (copyString v len realLen b w).2 ↔
      (∃ j < (toUser (fun i => (b.put realLen 0).bytes i) (realLen + 1).toNat 0).length, ↑j = i) ∨
        i = realLen ∨ i ∈ b.used := by
  rw [copyString, if_neg h]
  simp [Buffer.read, Buffer.put]

/-- The copy of `dst` with its terminator, from a buffer that holds it. -/
theorem toUser_put {n : Nat} {b : Buffer} {dst : List Byte} (hb : b.Holds n dst) :
    toUser (fun i => (b.put dst.length 0).bytes i) (dst.length + 1) 0 =
      through isNul (dst ++ [0]) := by
  rw [toUser, map_buffer fun i hi => Buffer.put_bytes hb.bytes 0 hi]

/-- **How `SyscallReadString` ends.** -/
theorem readString_ends (heap : Int → Byte) (ha : Args pageTable w v n fid) (hv : v ≠ 0)
    (hn : 0 ≤ n.toInt) (hmax : n.toInt < 2 ^ 31 - 1) :
    StringEnds pageTable w v n.toNat ((line w.stream).take n.toNat) (readString heap w) := by
  have hint := toInt_eq_toNat hn
  have hsucc : ¬ (n + 1).toInt < 0 := by
    have hlt := n.isLt
    rw [BitVec.toInt_eq_toNat_cond, BitVec.toNat_add, show (1 : Word).toNat = 1 from rfl]
    split <;> omega
  have hst := readInto_stores (.start heap n.toNat) w.stream w.ch
  rw [readString, ha.r4, ha.r5, if_neg hv, if_neg hsucc, if_neg (by omega), hint]
  generalize hloop : readLoop n.toNat w.stream [] w.ch = o at hst
  rw [List.length_nil] at hst
  generalize readInto _ _ _ _ _ = p at hst ⊢
  cases hst with
  | blocks hb =>
      exact .blocks (readLoop_waits hloop) fun i hi => ⟨(hb.used i hi).1, Int.le_of_lt (hb.used i hi).2⟩
  | @ends dst b c rest hb =>
      obtain ⟨hs, hdst, hA, hcons⟩ := readLoop_taken hloop
      rw [← hdst]
      dsimp only
      have hle := hb.le
      by_cases hc : c = 0x01 ∧ dst.length = 0
      · rw [if_pos hc]
        exact .ctrlA hs (hA.mp hc) ((used_copyString (by omega) _).mpr (.inr (.inl rfl)))
      · have hput := toUser_put hb
        have hthrough := length_through_le (p := isNul) (l := dst ++ [0])
        rw [List.length_append, List.length_singleton] at hthrough
        have hnat : ((dst.length : Int) + 1).toNat = dst.length + 1 := by omega
        rw [if_neg hc]
        generalize ho : copyString v n.toNat dst.length b { w with stream := rest } = o
        have hused : ∀ i ∈ o.2, 0 ≤ i ∧ i ≤ n.toNat := by
          intro i hi
          rw [← ho, used_copyString (by omega), hnat, hput] at hi
          rcases hi with ⟨j, hj, rfl⟩ | rfl | hi
          · omega
          · omega
          · have := hb.used i hi
            omega
        rw [copyString, if_neg (by omega)] at ho
        by_cases hfit : v.toNat + (through isNul (dst ++ [0])).length ≤ pageTable.length * PageSize
        · obtain ⟨m', e, -, -, hflat⟩ := system2User_eq (v := v) ha.runs
            (fun i => (b.put dst.length 0).bytes i) (dst.length + 1) (by rw [hput]; exact hfit)
          rw [Nat.cast_succ] at e
          dsimp only at ho
          rw [e] at ho
          subst ho
          rw [hput] at hflat
          exact .taken hs (mt hA.mpr hc) hused hcons hfit hflat
        · rw [← hput] at hfit
          obtain ⟨m', e⟩ := system2User_raised ha.runs _ (Nat.not_le.mp hfit) (Nat.succ_ne_zero _)
          rw [hput] at hfit
          rw [Nat.cast_succ] at e
          dsimp only at ho
          rw [e] at ho
          subst ho
          exact .outside hs (by omega)

/-- What is said of `ReadString`: it waits, refuses the request, or does what its documentation says,
and every index it uses on its kernel buffer is in `[0, n]`. -/
def ReadStringContract (pageTable : List TranslationEntry) (w : World) (v n : Word)
    (o : Outcome × List Int) : Prop :=
  (∀ i ∈ o.2, 0 ≤ i ∧ i ≤ n.toInt) ∧
    o.1.Finally w fun w' => Refused pageTable w w' ∨ StringRead pageTable w v n.toNat w'

theorem finally_aborted {P : World → Prop} : ¬ Outcome.aborted.Finally w P := by
  rintro (h | ⟨w', h, -⟩) <;> cases h

theorem finally_raised {which : ExceptionType} {w₁ : World} {P : World → Prop} :
    ¬ (Outcome.raised which w₁).Finally w P := by
  rintro (h | ⟨w', h, -⟩) <;> cases h

/-- When the characters taken are in the buffer as a string. -/
theorem stringRead_iff {dst rest : List Byte} {m' : Machine} {k : Nat} (hle : dst.length ≤ k)
    (hcons : Consumed w.stream rest dst)
    (hfit : v.toNat + (through isNul (dst ++ [0])).length ≤ pageTable.length * PageSize)
    (hflat : flat pageTable m' =
      overlay (flat pageTable w.machine) v.toNat (through isNul (dst ++ [0]))) :
    StringRead pageTable w v k ({ w with stream := rest, machine := m' }.resume 0) ↔ 0 ∉ dst := by
  have hlen : (flat pageTable w.machine).length = pageTable.length * PageSize := length_flat
  constructor
  · rintro ⟨⟨dst', hcons', -, hzero, -⟩, -⟩
    rwa [hcons'.unique hcons] at hzero
  · intro hzero
    have hall : through isNul (dst ++ [0]) = dst ++ [0] := through_string hzero []
    rw [hall, List.length_append, List.length_singleton] at hfit
    rw [hall] at hflat
    refine ⟨⟨dst, hcons, hle, hzero, fun i hi => ?_⟩, fun x hx => ?_⟩
    · show (flat pageTable m')[v.toNat + i]? = _
      rw [hflat, getElem?_overlay, List.length_append, List.length_singleton, if_pos (by omega),
        Nat.add_sub_cancel_left]
    · show (flat pageTable m')[x]? = _
      rw [hflat, getElem?_overlay, List.length_append, List.length_singleton, if_neg (by omega)]

/-- A length that cannot be allocated. -/
theorem readString_aborts (heap : Int → Byte) (ha : Args pageTable w v n fid) (hv : v ≠ 0)
    (hn : ¬ (0 ≤ n.toInt ∧ n.toInt < 2 ^ 31 - 1)) : readString heap w = (.aborted, []) := by
  rw [readString, ha.r4, ha.r5, if_neg hv]
  split
  · rfl
  next hsucc =>
    have hlt := n.isLt
    have hint := BitVec.toInt_eq_toNat_cond n
    rw [BitVec.toInt_eq_toNat_cond, BitVec.toNat_add, show (1 : Word).toNat = 1 from rfl] at hsucc
    rw [if_pos (by split at hint <;> split at hsucc <;> omega)]

variable (other) in
/-- **`ReadString`** waits, refuses, or does what its documentation says, with every index in its
kernel buffer, if and only if the buffer is at 0; or the length is one that can be allocated, and
what it takes, unless it waits, has no zero in it, does not begin with a Ctrl-A, and has room with
its terminator in the memory of the caller. -/
theorem read_string_iff (heap : Int → Byte) (ha : Args pageTable w v n fid) {dst : List Byte}
    (hdst : dst = (line w.stream).take n.toNat) :
    exec other SyscallReadString w = (readString heap w).1 ∧
    (ReadStringContract pageTable w v n (readString heap w) ↔
      (v = 0 ∨ (0 ≤ n.toInt ∧ n.toInt < 2 ^ 31 - 1 ∧ (Suffices n.toNat w.stream →
        0 ∉ dst ∧ ¬ CtrlA w n.toNat ∧ v.toNat + dst.length < pageTable.length * PageSize)))) := by
  refine ⟨(readString_eq heap).symm, ?_⟩
  by_cases hv : v = 0
  · subst hv
    refine iff_of_true ?_ (.inl rfl)
    rw [readString, ha.r4, if_pos rfl]
    refine ⟨fun _ hi => absurd hi List.not_mem_nil, finally_returned.mpr (.inl ⟨?_, rfl⟩)⟩
    exact resume_toInt w (by decide) (by decide)
  rw [or_iff_right hv, ← and_assoc]
  by_cases hn : 0 ≤ n.toInt ∧ n.toInt < 2 ^ 31 - 1
  swap
  · refine iff_of_false (fun h => ?_) fun h => hn h.1
    rw [readString_aborts heap ha hv hn] at h
    exact finally_aborted h.2
  rw [and_iff_right hn]
  have hint := toInt_eq_toNat hn.1
  have hends := readString_ends heap ha hv hn.1 hn.2
  rw [← hdst] at hends
  generalize readString heap w = o at hends
  -- the terminator is copied if no zero comes before it
  have hlen : 0 ∉ dst → (through isNul (dst ++ [0])).length = dst.length + 1 := by
    intro h
    rw [through_string h, List.length_append, List.length_singleton]
  cases hends with
  | blocks h hused =>
      rw [← hint] at hused
      exact iff_of_true ⟨hused, .inl rfl⟩ fun hs => absurd hs h
  | ctrlA h hA hused =>
      refine iff_of_false (fun hc => ?_) fun hc => (hc h).2.1 hA
      exact absurd (hc.1 (-1) hused).1 (by decide)
  | outside h hfit =>
      refine iff_of_false (fun hc => finally_raised hc.2) fun hc => ?_
      have := hlen (hc h).1
      have := (hc h).2.2
      omega
  | taken h hA hused hcons hfit hflat =>
      have hle : dst.length ≤ n.toNat := by
        rw [hdst]
        exact List.length_take_le ..
      rw [ReadStringContract, finally_returned, stringRead_iff hle hcons hfit hflat, hint,
        and_iff_right hused, imp_iff_right h]
      constructor
      · rintro (hr | hzero)
        · have := hr.r2
          rw [resume_toInt _ (by decide) (by decide)] at this
          cases this
        · have := hlen hzero
          exact ⟨hzero, hA, by omega⟩
      · rintro ⟨hzero, -⟩
        exact .inr hzero

/-- A Ctrl-A: the terminator goes in front of the kernel buffer, and the buffer of the caller is left
without one. -/
theorem read_string_ctrlA : ∃ w',
    readString (fun _ => 7) (callWith 16 2 0 [] [0x01]) = (.returned w', [-1, 1, 0, 1, 0]) ∧
    flat twoPages w'.machine = flat twoPages (callWith 16 2 0 [] [0x01]).machine ∧
    0 ∉ flat twoPages w'.machine ∧
    ¬ ReadStringContract twoPages (callWith 16 2 0 [] [0x01]) 16 2
      (readString (fun _ => 7) (callWith 16 2 0 [] [0x01])) := by
  refine ⟨_, rfl, rfl, by decide +kernel, fun h => ?_⟩
  exact absurd (h.1 (-1) (by decide)).1 (by decide)

/-- A line that fills the request. -/
theorem read_string_fills :
    exec noOther SyscallReadString (callWith 16 2 0 [] [0x61, 0x62, 0x0A]) =
      (readString (fun _ => 7) (callWith 16 2 0 [] [0x61, 0x62, 0x0A])).1 ∧
    ReadStringContract twoPages (callWith 16 2 0 [] [0x61, 0x62, 0x0A]) 16 2
      (readString (fun _ => 7) (callWith 16 2 0 [] [0x61, 0x62, 0x0A])) := by
  have h := read_string_iff noOther (fun _ => 7) (callWith_args 16 2 0 [] [0x61, 0x62, 0x0A])
    (show [0x61, 0x62] = _ by decide)
  exact ⟨h.1, h.2.mpr (.inr ⟨by decide, by decide, fun _ =>
    ⟨by decide, by unfold CtrlA; decide, by decide⟩⟩)⟩

end

end Nachos.Syscall
