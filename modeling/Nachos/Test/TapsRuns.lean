import Nachos.Lib.Lock
import Nachos.Lib.Words
import Nachos.Test.Taps

/-!
# Test — voinuoc sees whole numbers

`done` are the numbers `sinhvien` has written with their blank, `cur` the digits of the one it is at,
and `fin` its end mark; `seen` are those `voinuoc` has read.  Who is between `Wait` and `Signal` is
alone there, so `cur` is empty while `voinuoc` reads: it finds a whole number, the end of the file or
the end mark, and `seen` stays a prefix of `done`.
-/

namespace Nachos.Taps
open Lib
open Syscall (isDigit digit writeFile)

/-- Numbers as they are written, each with a blank. -/
def enc (ts : List (List Byte)) : List Byte := ts.flatMap fun t => t ++ [blank]

/-- The numbers of an input: its longest runs of digits. -/
def numbers (inp : List Byte) : List (List Byte) := chunks isDigit inp

/-- What `sinhvien` has written at its place, and what is left of its input, `rest`. -/
def SvOk (inp rest : List Byte) (done : List (List Byte)) (cur fin : List Byte) : SvPC → Prop
  | .openSv | .openVn => rest = inp ∧ done = [] ∧ cur = [] ∧ fin = []
  | .read => numbers inp = done ++ numbers rest ∧ cur = [] ∧ fin = []
  | .wait c => numbers inp = done ++ (c :: rest.takeWhile isDigit) ::
      numbers (rest.dropWhile isDigit) ∧ cur = [] ∧ fin = []
  | .write c => numbers inp = done ++ (cur ++ c :: rest.takeWhile isDigit) ::
      numbers (rest.dropWhile isDigit) ∧ fin = []
  | .readNext => numbers inp = done ++ (cur ++ rest.takeWhile isDigit) ::
      numbers (rest.dropWhile isDigit) ∧ fin = []
  | .writeBlank more => numbers inp = done ++ cur :: numbers rest ∧ (more = false → rest = []) ∧
      fin = []
  | .signal more => numbers inp = done ++ numbers rest ∧ (more = false → rest = []) ∧ cur = [] ∧
      fin = []
  | .waitEnd | .writeEnd => numbers inp = done ∧ cur = [] ∧ fin = []
  | .signalEnd | .close | .exit | .finished =>
      numbers inp = done ∧ cur = [] ∧ fin = [minus, newline]
  | .failed => done = [] ∧ cur = [] ∧ fin = []

/-- How far `voinuoc` has read. -/
def VoOk (voIn : Nat) (done : List (List Byte)) (fin : List Byte) (seen : List (List Byte)) :
    VoPC → Prop
  | .digits res => ∃ part q unseen, done = seen ++ (part ++ q) :: unseen ∧
      res = BitVec.ofNat 32 (decimal part) ∧ voIn = (enc seen ++ part).length
  | .signal n => (n = -1 ∧ done = seen ∧ fin ≠ []) ∨
      (n ≠ -1 ∧ seen <+: done ∧ voIn = (enc seen).length)
  | .writeEnd | .closeVn | .closeTmp | .finished => done = seen ∧ fin ≠ []
  | _ => seen <+: done ∧ voIn = (enc seen).length

/-- The loads are those of `x`. -/
def Sums (s : State) (x : Loads) : Prop :=
  s.s₁ = BitVec.ofNat 32 x.one ∧ s.s₂ = BitVec.ofNat 32 x.two

/-- The file holds what has been written of `out`. -/
def Wrote (s : State) (out : List Byte) : Prop := s.tmp = out ∧ s.voOut = out.length

/-- What `voinuoc` has made of the numbers it has seen, where `x` is the assignment of these. -/
def OutOk (s : State) (x : Loads) : VoPC → Prop
  | .openVn | .createTmp => x.out = [] ∧ s.voOut = 0 ∧ Sums s x
  | .signal n => ∃ y, Sums s y ∧ Wrote s y.out ∧ ((n = -1 ∨ n = 0) ∧ y = x ∨
      ∃ k, 0 < k ∧ n = BitVec.ofNat 32 k ∧ n ≠ -1 ∧ y.add k = x)
  | .writeTap tap => Sums s x ∧ ∃ out, Wrote s out ∧ out ++ [tap, blank] = x.out
  | .closeVn | .closeTmp | .finished => s.tmp = x.out ++ [newline]
  | .failed => True
  | _ => Sums s x ∧ Wrote s x.out

/-! ### Files and numbers -/

section
variable {content bytes : List Byte} {off : Nat} {ts : List (List Byte)} {t : List Byte}

theorem drop_of_some {c : Byte} (h : content[off]? = some c) :
    content.drop off = c :: content.drop (off + 1) := by
  obtain ⟨hlt, hc⟩ := List.getElem?_eq_some_iff.mp h
  rw [List.drop_eq_getElem_cons hlt, hc]

theorem drop_of_none (h : content[off]? = none) : content.drop off = [] :=
  List.drop_eq_nil_of_le (List.getElem?_eq_none_iff.mp h)

theorem enc_append (ts us : List (List Byte)) : enc (ts ++ us) = enc ts ++ enc us :=
  List.flatMap_append

theorem enc_cons (t : List Byte) (ts : List (List Byte)) : enc (t :: ts) = t ++ blank :: enc ts := by
  rw [enc, List.flatMap_cons, List.append_assoc]
  rfl

theorem enc_snoc (ts : List (List Byte)) (t : List Byte) : enc (ts ++ [t]) = enc ts ++ t ++ [blank] := by
  rw [enc_append, enc_cons, List.append_assoc]
  rfl

theorem decimal_snoc (t : List Byte) (c : Byte) :
    decimal (t ++ [c]) = decimal t * 10 + (c.toNat - 0x30) := by
  rw [decimal, List.foldl_append]
  rfl

theorem positives_snoc (ts : List (List Byte)) (t : List Byte) : positives (ts ++ [t]) =
    positives ts ++ if 0 < decimal t then [decimal t] else [] := by
  unfold positives
  rw [List.map_append, List.filter_append]
  congr 1
  split <;> rename_i h <;> simp [h]

theorem greedy_snoc (ns : List Nat) (n : Nat) : greedy (ns ++ [n]) = (greedy ns).add n := by
  rw [greedy, List.foldl_append]
  rfl

theorem greedy_sum (ns : List Nat) : (greedy ns).one + (greedy ns).two = ns.sum := by
  induction ns using List.reverseRecOn with
  | nil => rfl
  | append_singleton ns n ih =>
      rw [greedy_snoc, List.sum_append, List.sum_singleton, Loads.add]
      split <;> simp only <;> omega

theorem positives_sum (ts : List (List Byte)) : (positives ts).sum = (ts.map decimal).sum := by
  unfold positives
  induction ts with
  | nil => rfl
  | cons t ts ih =>
      rw [List.map_cons, List.sum_cons, List.filter_cons]
      split
      · rw [List.sum_cons, ih]
      · rename_i h
        rw [decide_eq_true_eq] at h
        omega

theorem sum_mono {us : List (List Byte)} (h : ts <+: us) :
    (ts.map decimal).sum ≤ (us.map decimal).sum := by
  obtain ⟨vs, rfl⟩ := h
  rw [List.map_append, List.sum_append]
  exact Nat.le_add_right ..

end

/-! ### The invariant -/

inductive Program where
  | sinhvien | voinuoc

/-- Between `Wait` and `Signal`. -/
def SvPC.inside : SvPC → Bool
  | write _ | readNext | writeBlank _ | signal _ | writeEnd | signalEnd => true
  | _ => false

def VoPC.inside : VoPC → Bool
  | skip | digits _ | signal _ => true
  | _ => false

def Inside (svPc : SvPC) (voPc : VoPC) : Program → Prop
  | .sinhvien => svPc.inside = true
  | .voinuoc => voPc.inside = true

structure Inv (inp : List Byte) (s : State) (done : List (List Byte)) (cur fin : List Byte)
    (seen : List (List Byte)) : Prop where
  lock : Lock (Inside s.svPc s.voPc) s.lock
  vn : s.vn = enc done ++ cur ++ fin
  svOut : s.svOut = s.vn.length
  sv : SvOk inp (inp.drop s.svIn) done cur fin s.svPc
  vo : VoOk s.voIn done fin seen s.voPc
  out : OutOk s (greedy (positives seen)) s.voPc
  got : (s.got.map BitVec.toNat).filter (0 < ·) = positives seen

section
variable {inp : List Byte} {s s' : State} {ok : Bool} {done done' seen : List (List Byte)}
  {cur cur' fin fin' rest : List Byte}

theorem init_inv (inp tmp : List Byte) : Inv inp (init tmp) [] [] [] [] where
  lock := .free fun p => by cases p <;> exact Bool.noConfusion
  vn := rfl
  svOut := rfl
  sv := ⟨rfl, rfl, rfl, rfl⟩
  vo := ⟨List.nil_prefix, rfl⟩
  out := ⟨rfl, rfl, rfl, rfl⟩
  got := rfl

/-- `sinhvien` going on does not change what `voinuoc` has read. -/
theorem VoOk.mono {voIn : Nat} {pc : VoPC} (h : VoOk voIn done [] seen pc) (hd : done <+: done') :
    VoOk voIn done' fin' seen pc := by
  obtain ⟨more, rfl⟩ := hd
  cases pc with
  | digits res =>
      obtain ⟨part, q, unseen, he, hr, hv⟩ := h
      refine ⟨part, q, unseen ++ more, ?_, hr, hv⟩
      rw [he, List.append_assoc, List.cons_append]
  | signal n =>
      rcases h with ⟨-, -, hf⟩ | ⟨hn, hp, hv⟩
      · exact absurd rfl hf
      · exact .inr ⟨hn, hp.trans (List.prefix_append ..), hv⟩
  | writeEnd => exact absurd rfl h.2
  | closeVn => exact absurd rfl h.2
  | closeTmp => exact absurd rfl h.2
  | finished => exact absurd rfl h.2
  | _ => exact ⟨h.1.trans (List.prefix_append ..), h.2⟩

/-- A step of `sinhvien`. -/
theorem Inv.sinhvien (h : Inv inp s done cur fin seen) {lock : Int} {vn : List Byte} {pc : SvPC}
    {svIn svOut : Nat} (hlock : Lock (Inside pc s.voPc) lock)
    (hvn : vn = enc done' ++ cur' ++ fin') (hout : svOut = vn.length)
    (hsv : SvOk inp (inp.drop svIn) done' cur' fin' pc)
    (hvo : done' = done ∧ fin' = fin ∨ fin = [] ∧ done <+: done') :
    Inv inp { s with lock := lock, vn := vn, svPc := pc, svIn := svIn, svOut := svOut } done' cur'
      fin' seen where
  lock := hlock
  vn := hvn
  svOut := hout
  sv := hsv
  vo := by
    rcases hvo with ⟨rfl, rfl⟩ | ⟨rfl, hd⟩
    · exact h.vo
    · exact h.vo.mono hd
  out := h.out
  got := h.got

/-- It stays inside, or outside. -/
theorem Inv.lock_sv (h : Inv inp s done cur fin seen) {pc : SvPC}
    (hpc : pc.inside = s.svPc.inside) : Lock (Inside pc s.voPc) s.lock := by
  refine h.lock.congr fun p => ?_
  cases p with
  | sinhvien => rw [Inside, Inside, hpc]
  | voinuoc => exact Iff.rfl

/-- It passes `Wait`. -/
theorem Inv.enter_sv (h : Inv inp s done cur fin seen) {pc : SvPC} (hl : s.lock ≠ 0)
    (hpc : pc.inside = true) : Lock (Inside pc s.voPc) (s.lock - 1) := by
  refine h.lock.enter (t := .sinhvien) hl hpc fun p hp hin => ?_
  cases p with
  | sinhvien => exact absurd rfl hp
  | voinuoc => exact hin

/-- It calls `Signal`. -/
theorem Inv.leave_sv (h : Inv inp s done cur fin seen) {pc : SvPC} (hin : s.svPc.inside = true)
    (hpc : pc.inside = false) : Lock (Inside pc s.voPc) (s.lock + 1) := by
  refine h.lock.leave (t := .sinhvien) hin ?_ fun p hp hin => ?_
  · rw [Inside, hpc]
    exact Bool.noConfusion
  · cases p with
    | sinhvien => exact absurd rfl hp
    | voinuoc => exact hin

theorem wait_ok {f : State → State} (h : s.wait.map f = .ok s') :
    s.lock ≠ 0 ∧ s' = f { s with lock := s.lock - 1 } := by
  unfold State.wait at h
  split at h
  · cases h
  · rename_i hl
    cases h
    exact ⟨hl, rfl⟩

/-- `sinhvien` reads a byte, or finds the end of its input. -/
theorem read_cases (inp : List Byte) (k : Nat) :
    (∃ c, inp[k]? = some c ∧ inp.drop k = c :: inp.drop (k + 1)) ∨
      (inp[k]? = none ∧ inp.drop k = []) := by
  cases h : inp[k]? with
  | none => exact .inr ⟨rfl, drop_of_none h⟩
  | some c => exact .inl ⟨c, rfl, drop_of_some h⟩

theorem Inv.append_vn (h : Inv inp s done cur fin seen) (bytes : List Byte) :
    (s.writeVn bytes).vn = enc done ++ cur ++ fin ++ bytes ∧
      (s.writeVn bytes).svOut = (s.writeVn bytes).vn.length := by
  unfold State.writeVn
  dsimp only
  rw [h.svOut, Syscall.writeFile_end, List.length_append]
  exact ⟨by rw [h.vn], rfl⟩

/-! ### The calls of sinhvien -/

theorem Inv.sv_open (h : Inv inp s done cur fin seen) (hpc : s.svPc = .openSv ∨ s.svPc = .openVn)
    (hs : s.sinhvien inp ok = .ok s') : Inv inp s' done cur fin seen := by
  have hsv := h.sv
  rcases hpc with hpc | hpc <;> rw [hpc] at hsv <;> simp only [State.sinhvien, hpc] at hs <;>
    obtain ⟨hrest, rfl, rfl, rfl⟩ := hsv <;> cases hs
  · refine h.sinhvien (h.lock_sv ?_) h.vn h.svOut ?_ (.inl ⟨rfl, rfl⟩)
    · rw [hpc]; cases ok <;> rfl
    · cases ok
      · exact ⟨rfl, rfl, rfl⟩
      · exact ⟨hrest, rfl, rfl, rfl⟩
  · refine h.sinhvien (h.lock_sv ?_) h.vn h.svOut ?_ (.inl ⟨rfl, rfl⟩)
    · rw [hpc]; cases ok <;> rfl
    · cases ok
      · exact ⟨rfl, rfl, rfl⟩
      · exact ⟨by rw [hrest, List.nil_append], rfl, rfl⟩

/-- The outer loop looks for a number. -/
theorem Inv.sv_read (h : Inv inp s done cur fin seen) (hpc : s.svPc = .read)
    (hs : s.sinhvien inp ok = .ok s') : Inv inp s' done cur fin seen := by
  have hsv := h.sv
  rw [hpc] at hsv
  simp only [State.sinhvien, hpc] at hs
  obtain ⟨hnum, rfl, rfl⟩ := hsv
  rcases read_cases inp s.svIn with ⟨c, hc, hrest⟩ | ⟨hc, hrest⟩ <;> rw [hc] at hs <;> cases hs <;>
    rw [hrest] at hnum
  · refine h.sinhvien (h.lock_sv ?_) h.vn h.svOut ?_ (.inl ⟨rfl, rfl⟩)
    · rw [hpc]; split <;> rfl
    · cases hd : isDigit c with
      | true => exact ⟨by rw [hnum, numbers, chunks_cons_of_pos _ hd]; rfl, rfl, rfl⟩
      | false => exact ⟨by rw [hnum, numbers, chunks_cons_of_neg _ hd]; rfl, rfl, rfl⟩
  · refine h.sinhvien (h.lock_sv (by rw [hpc]; rfl)) h.vn h.svOut ⟨?_, rfl, rfl⟩ (.inl ⟨rfl, rfl⟩)
    rw [hnum, numbers, chunks_nil, List.append_nil]

theorem Inv.sv_wait (h : Inv inp s done cur fin seen)
    (hpc : (∃ c, s.svPc = .wait c) ∨ s.svPc = .waitEnd) (hs : s.sinhvien inp ok = .ok s') :
    Inv inp s' done cur fin seen := by
  have hsv := h.sv
  rcases hpc with ⟨c, hpc⟩ | hpc <;> rw [hpc] at hsv <;> simp only [State.sinhvien, hpc] at hs <;>
    obtain ⟨hnum, rfl, rfl⟩ := hsv <;> obtain ⟨hl, rfl⟩ := wait_ok hs
  · exact h.sinhvien (h.enter_sv hl rfl) h.vn h.svOut ⟨hnum, rfl⟩ (.inl ⟨rfl, rfl⟩)
  · exact h.sinhvien (h.enter_sv hl rfl) h.vn h.svOut ⟨hnum, rfl, rfl⟩ (.inl ⟨rfl, rfl⟩)

/-- A digit is written. -/
theorem Inv.sv_write (h : Inv inp s done cur fin seen) {c : Byte} (hpc : s.svPc = .write c)
    (hs : s.sinhvien inp ok = .ok s') : Inv inp s' done (cur ++ [c]) fin seen := by
  have hsv := h.sv
  rw [hpc] at hsv
  simp only [State.sinhvien, hpc] at hs
  obtain ⟨hnum, rfl⟩ := hsv
  cases hs
  obtain ⟨hvn, hlen⟩ := h.append_vn [c]
  refine h.sinhvien (h.lock_sv (by rw [hpc]; rfl)) ?_ hlen ⟨?_, rfl⟩ (.inl ⟨rfl, rfl⟩)
  · rw [hvn, List.append_nil, List.append_nil, List.append_assoc]
  · rw [hnum, List.append_assoc, List.singleton_append]
    rfl

/-- The inner loop goes on with the number, or has come to its end. -/
theorem Inv.sv_readNext (h : Inv inp s done cur fin seen) (hpc : s.svPc = .readNext)
    (hs : s.sinhvien inp ok = .ok s') : Inv inp s' done cur fin seen := by
  have hsv := h.sv
  rw [hpc] at hsv
  simp only [State.sinhvien, hpc] at hs
  obtain ⟨hnum, rfl⟩ := hsv
  rcases read_cases inp s.svIn with ⟨c, hc, hrest⟩ | ⟨hc, hrest⟩ <;> rw [hc] at hs <;> cases hs <;>
    rw [hrest] at hnum
  · refine h.sinhvien (h.lock_sv ?_) h.vn h.svOut ?_ (.inl ⟨rfl, rfl⟩)
    · rw [hpc]; split <;> rfl
    · cases hd : isDigit c with
      | true =>
          rw [List.takeWhile_cons_of_pos hd, List.dropWhile_cons_of_pos hd] at hnum
          exact ⟨hnum, rfl⟩
      | false =>
          have hd' : ¬ isDigit c = true := by rw [hd]; exact Bool.noConfusion
          rw [List.takeWhile_cons_of_neg hd', List.dropWhile_cons_of_neg hd', List.append_nil,
            numbers, numbers, chunks_cons_of_neg _ hd] at hnum
          exact ⟨hnum, Bool.noConfusion, rfl⟩
  · refine h.sinhvien (h.lock_sv (by rw [hpc]; rfl)) h.vn h.svOut ⟨?_, fun _ => hrest, rfl⟩
      (.inl ⟨rfl, rfl⟩)
    rw [List.takeWhile_nil, List.dropWhile_nil, List.append_nil] at hnum
    rw [hrest]
    exact hnum

/-- With its blank the number is one of those written. -/
theorem Inv.sv_writeBlank (h : Inv inp s done cur fin seen) {more : Bool}
    (hpc : s.svPc = .writeBlank more) (hs : s.sinhvien inp ok = .ok s') :
    Inv inp s' (done ++ [cur]) [] fin seen := by
  have hsv := h.sv
  rw [hpc] at hsv
  simp only [State.sinhvien, hpc] at hs
  obtain ⟨hnum, hmore, rfl⟩ := hsv
  cases hs
  obtain ⟨hvn, hlen⟩ := h.append_vn [blank]
  refine h.sinhvien (h.lock_sv (by rw [hpc]; rfl)) ?_ hlen ⟨?_, hmore, rfl, rfl⟩
    (.inr ⟨rfl, List.prefix_append ..⟩)
  · rw [hvn, enc_snoc, List.append_nil, List.append_nil, List.append_nil]
  · rw [hnum, List.append_assoc, List.singleton_append]
    rfl

theorem Inv.sv_signal (h : Inv inp s done cur fin seen) {more : Bool} (hpc : s.svPc = .signal more)
    (hs : s.sinhvien inp ok = .ok s') : Inv inp s' done cur fin seen := by
  have hsv := h.sv
  rw [hpc] at hsv
  simp only [State.sinhvien, hpc] at hs
  obtain ⟨hnum, hmore, rfl, rfl⟩ := hsv
  cases hs
  refine h.sinhvien (h.leave_sv (by rw [hpc]; rfl) ?_) h.vn h.svOut ?_ (.inl ⟨rfl, rfl⟩)
  · cases more <;> rfl
  · cases more
    · rw [hmore rfl, numbers, numbers, chunks_nil, List.append_nil] at hnum
      exact ⟨hnum, rfl, rfl⟩
    · exact ⟨hnum, rfl, rfl⟩

/-- The end mark. -/
theorem Inv.sv_writeEnd (h : Inv inp s done cur fin seen) (hpc : s.svPc = .writeEnd)
    (hs : s.sinhvien inp ok = .ok s') : Inv inp s' done cur [minus, newline] seen := by
  have hsv := h.sv
  rw [hpc] at hsv
  simp only [State.sinhvien, hpc] at hs
  obtain ⟨hnum, rfl, rfl⟩ := hsv
  cases hs
  obtain ⟨hvn, hlen⟩ := h.append_vn [minus, newline]
  refine h.sinhvien (h.lock_sv (by rw [hpc]; rfl)) ?_ hlen ⟨hnum, rfl, rfl⟩
    (.inr ⟨rfl, List.prefix_rfl⟩)
  rw [hvn, List.append_nil (enc done ++ [])]

theorem Inv.sv_end (h : Inv inp s done cur fin seen)
    (hpc : s.svPc = .signalEnd ∨ s.svPc = .close ∨ s.svPc = .exit)
    (hs : s.sinhvien inp ok = .ok s') : Inv inp s' done cur fin seen := by
  have hsv := h.sv
  rcases hpc with hpc | hpc | hpc <;> rw [hpc] at hsv <;> simp only [State.sinhvien, hpc] at hs <;>
    obtain ⟨hnum, rfl, rfl⟩ := hsv <;> cases hs
  · exact h.sinhvien (h.leave_sv (by rw [hpc]; rfl) rfl) h.vn h.svOut ⟨hnum, rfl, rfl⟩
      (.inl ⟨rfl, rfl⟩)
  · exact h.sinhvien (h.lock_sv (by rw [hpc]; rfl)) h.vn h.svOut ⟨hnum, rfl, rfl⟩ (.inl ⟨rfl, rfl⟩)
  · exact h.sinhvien (h.lock_sv (by rw [hpc]; rfl)) h.vn h.svOut ⟨hnum, rfl, rfl⟩ (.inl ⟨rfl, rfl⟩)

/-- **A step of `sinhvien` keeps the invariant.** -/
theorem sinhvien_inv (h : Inv inp s done cur fin seen) (hs : s.sinhvien inp ok = .ok s') :
    ∃ done' cur' fin', Inv inp s' done' cur' fin' seen := by
  cases hpc : s.svPc with
  | openSv => exact ⟨_, _, _, h.sv_open (.inl hpc) hs⟩
  | openVn => exact ⟨_, _, _, h.sv_open (.inr hpc) hs⟩
  | read => exact ⟨_, _, _, h.sv_read hpc hs⟩
  | wait c => exact ⟨_, _, _, h.sv_wait (.inl ⟨c, hpc⟩) hs⟩
  | write c => exact ⟨_, _, _, h.sv_write hpc hs⟩
  | readNext => exact ⟨_, _, _, h.sv_readNext hpc hs⟩
  | writeBlank more => exact ⟨_, _, _, h.sv_writeBlank hpc hs⟩
  | signal more => exact ⟨_, _, _, h.sv_signal hpc hs⟩
  | waitEnd => exact ⟨_, _, _, h.sv_wait (.inr hpc) hs⟩
  | writeEnd => exact ⟨_, _, _, h.sv_writeEnd hpc hs⟩
  | signalEnd => exact ⟨_, _, _, h.sv_end (.inl hpc) hs⟩
  | close => exact ⟨_, _, _, h.sv_end (.inr (.inl hpc)) hs⟩
  | exit => exact ⟨_, _, _, h.sv_end (.inr (.inr hpc)) hs⟩
  | finished =>
      simp only [State.sinhvien, hpc] at hs
      cases hs
  | failed =>
      simp only [State.sinhvien, hpc] at hs
      cases hs

/-! ### voinuoc -/

theorem SvOk.prefix_numbers {pc : SvPC} (h : SvOk inp rest done cur fin pc) : done <+: numbers inp := by
  cases pc with
  | openSv => rw [h.2.1]; exact List.nil_prefix
  | openVn => rw [h.2.1]; exact List.nil_prefix
  | failed => rw [h.1]; exact List.nil_prefix
  | waitEnd => rw [h.1]
  | writeEnd => rw [h.1]
  | signalEnd => rw [h.1]
  | close => rw [h.1]
  | exit => rw [h.1]
  | finished => rw [h.1]
  | _ => rw [h.1]; exact List.prefix_append ..

/-- Outside, `sinhvien` has not begun with a number. -/
theorem SvOk.cur_nil {pc : SvPC} (h : SvOk inp rest done cur fin pc) (hpc : pc.inside = false) :
    cur = [] := by
  cases pc with
  | openSv => exact h.2.2.1
  | openVn => exact h.2.2.1
  | write c => cases hpc
  | readNext => cases hpc
  | writeBlank more => cases hpc
  | signal more => cases hpc
  | _ => exact h.2.1

/-- The end mark is written when there are no more numbers. -/
theorem SvOk.fin_cases {pc : SvPC} (h : SvOk inp rest done cur fin pc) :
    fin = [] ∨ fin = [minus, newline] := by
  cases pc with
  | openSv => exact .inl h.2.2.2
  | openVn => exact .inl h.2.2.2
  | write c => exact .inl h.2
  | readNext => exact .inl h.2
  | signal more => exact .inl h.2.2.2
  | signalEnd => exact .inr h.2.2
  | close => exact .inr h.2.2
  | exit => exact .inr h.2.2
  | finished => exact .inr h.2.2
  | _ => exact .inl h.2.2

/-- A step of `voinuoc`. -/
theorem Inv.voinuoc {seen' : List (List Byte)} (h : Inv inp s done cur fin seen)
    (hsame : s'.vn = s.vn ∧ s'.svPc = s.svPc ∧ s'.svIn = s.svIn ∧ s'.svOut = s.svOut)
    (hlock : Lock (Inside s.svPc s'.voPc) s'.lock) (hvo : VoOk s'.voIn done fin seen' s'.voPc)
    (hout : OutOk s' (greedy (positives seen')) s'.voPc)
    (hgot : (s'.got.map BitVec.toNat).filter (0 < ·) = positives seen') :
    Inv inp s' done cur fin seen' := by
  obtain ⟨h₁, h₂, h₃, h₄⟩ := hsame
  refine ⟨by rw [h₂]; exact hlock, by rw [h₁]; exact h.vn, by rw [h₄, h₁]; exact h.svOut, ?_, hvo,
    hout, hgot⟩
  rw [h₂, h₃]
  exact h.sv

theorem Inv.lock_vo (h : Inv inp s done cur fin seen) {pc : VoPC}
    (hpc : pc.inside = s.voPc.inside) : Lock (Inside s.svPc pc) s.lock := by
  refine h.lock.congr fun p => ?_
  cases p with
  | sinhvien => exact Iff.rfl
  | voinuoc => rw [Inside, Inside, hpc]

theorem Inv.enter_vo (h : Inv inp s done cur fin seen) {pc : VoPC} (hl : s.lock ≠ 0)
    (hpc : pc.inside = true) : Lock (Inside s.svPc pc) (s.lock - 1) := by
  refine h.lock.enter (t := .voinuoc) hl hpc fun p hp hin => ?_
  cases p with
  | sinhvien => exact hin
  | voinuoc => exact absurd rfl hp

theorem Inv.leave_vo (h : Inv inp s done cur fin seen) {pc : VoPC} (hin : s.voPc.inside = true)
    (hpc : pc.inside = false) : Lock (Inside s.svPc pc) (s.lock + 1) := by
  refine h.lock.leave (t := .voinuoc) hin ?_ fun p hp hin => ?_
  · rw [Inside, hpc]
    exact Bool.noConfusion
  · cases p with
    | sinhvien => exact hin
    | voinuoc => exact absurd rfl hp

/-- While `voinuoc` is inside, the file holds whole numbers. -/
theorem Inv.vn_inside (h : Inv inp s done cur fin seen) (hin : s.voPc.inside = true) :
    s.vn = enc done ++ fin := by
  have hsv : s.svPc.inside = false := by
    by_contra hsv
    have := h.lock.unique (t := Program.voinuoc) (u := Program.sinhvien) hin
      ((Bool.not_eq_false _).mp hsv)
    cases this
  rw [h.vn, h.sv.cur_nil hsv, List.append_nil]

theorem getElem?_behind (pre post : List Byte) : (pre ++ post)[pre.length]? = post.head? := by
  rw [List.getElem?_append_right le_rfl, Nat.sub_self, List.head?_eq_getElem?]

theorem isDigit_minus : isDigit minus = false := by decide
theorem isDigit_blank : isDigit blank = false := by decide

/-- **What `voinuoc` finds at the start of a `read_unsigned_integer`: nothing, the end mark, or the
first digit of a number.** -/
theorem Inv.skip_cases (h : Inv inp s done cur fin seen) (hpc : s.voPc = .skip) :
    s.vn[s.voIn]? = none ∨ (s.vn[s.voIn]? = some minus ∧ done = seen ∧ fin ≠ []) ∨
      ∃ c q unseen, s.vn[s.voIn]? = some c ∧ isDigit c = true ∧
        done = seen ++ ([c] ++ q) :: unseen := by
  have hvo := h.vo
  rw [hpc] at hvo
  obtain ⟨⟨unseen, hd⟩, hv⟩ := hvo
  have hread : s.vn[s.voIn]? = (enc unseen ++ fin).head? := by
    rw [h.vn_inside (by rw [hpc]; rfl), ← hd, enc_append, List.append_assoc, hv, getElem?_behind]
  rw [hread]
  cases unseen with
  | nil =>
      rw [List.append_nil] at hd
      rcases h.sv.fin_cases with rfl | rfl
      · exact .inl rfl
      · exact .inr (.inl ⟨rfl, hd.symm, List.cons_ne_nil _ _⟩)
  | cons t unseen =>
      have ht : t ∈ numbers inp := h.sv.prefix_numbers.subset (by rw [← hd]; simp)
      obtain ⟨hne, hdig⟩ := mem_chunks ht
      cases t with
      | nil => exact absurd rfl hne
      | cons c q =>
          refine .inr (.inr ⟨c, q, unseen, ?_, hdig c List.mem_cons_self, hd.symm⟩)
          rw [enc_cons]
          rfl

/-- **And in a number: its next digit, or the blank behind it.** -/
theorem Inv.digits_read (h : Inv inp s done cur fin seen) (hin : s.voPc.inside = true)
    {part q : List Byte} {unseen : List (List Byte)} (hd : done = seen ++ (part ++ q) :: unseen)
    (hv : s.voIn = (enc seen ++ part).length) :
    s.vn[s.voIn]? = some (q.headD blank) := by
  have hvn : s.vn = (enc seen ++ part) ++ (q ++ blank :: (enc unseen ++ fin)) := by
    rw [h.vn_inside hin, hd, enc_append, enc_cons]
    simp only [List.append_assoc, List.cons_append]
  rw [hvn, hv, getElem?_behind]
  cases q <;> rfl

theorem ofNat_ne_neg_one {k : Nat} (hk : k < 2 ^ 31) : BitVec.ofNat 32 k ≠ -1 := by
  intro h
  have := congrArg BitVec.toInt h
  rw [toInt_ofNat hk] at this
  have hneg : (-1 : Word).toInt = -1 := by decide
  omega

/-- The assignment of a positive number. -/
theorem assign_pos {x y : Loads} {k : Nat} (hs : Sums s y) (hw : Wrote s y.out) (hk : 0 < k)
    (hx : y.add k = x) (hsum : x.one + x.two < 2 ^ 31) :
    ∃ tap, (s.assign (BitVec.ofNat 32 k)).voPc = .writeTap tap ∧
      OutOk (s.assign (BitVec.ofNat 32 k)) x (.writeTap tap) := by
  have hle : y.one + y.two + k = x.one + x.two := by
    rw [← hx, Loads.add]
    split <;> simp only <;> omega
  have hint : (BitVec.ofNat 32 k).toInt = k := toInt_ofNat (by omega)
  have hcmp : s.s₁.toInt ≤ s.s₂.toInt ↔ y.one ≤ y.two := by
    rw [hs.1, hs.2, toInt_ofNat (by omega), toInt_ofNat (by omega)]
    omega
  unfold State.assign
  rw [hint, if_pos (show (0 : Int) < k by omega), if_pos (show (0 : Int) < k by omega)]
  by_cases hxy : y.one ≤ y.two
  · rw [if_pos (hcmp.mpr hxy)]
    rw [Loads.add, if_pos hxy] at hx
    subst hx
    refine ⟨0x31, rfl, ⟨?_, hs.2⟩, y.out, hw, rfl⟩
    show s.s₁ + BitVec.ofNat 32 k = BitVec.ofNat 32 (y.one + k)
    rw [hs.1, ← BitVec.ofNat_add]
  · rw [if_neg fun hle => hxy (hcmp.mp hle)]
    rw [Loads.add, if_neg hxy] at hx
    subst hx
    refine ⟨0x32, rfl, ⟨hs.1, ?_⟩, y.out, hw, rfl⟩
    show s.s₂ + BitVec.ofNat 32 k = BitVec.ofNat 32 (y.two + k)
    rw [hs.2, ← BitVec.ofNat_add]

/-- A zero changes nothing. -/
theorem assign_zero {x : Loads} (hs : Sums s x) (hw : Wrote s x.out) :
    (s.assign 0).voPc = .wait ∧ OutOk (s.assign 0) x .wait := by
  have hint : ¬ (0 : Int) < (0 : Word).toInt := by decide
  unfold State.assign
  rw [if_neg hint, if_neg hint]
  split
  · exact ⟨rfl, ⟨by show s.s₁ + 0 = _; exact (BitVec.add_zero _).trans hs.1, hs.2⟩, hw⟩
  · exact ⟨rfl, ⟨hs.1, by show s.s₂ + 0 = _; exact (BitVec.add_zero _).trans hs.2⟩, hw⟩

theorem assign_same (s : State) (n : Word) : (s.assign n).vn = s.vn ∧ (s.assign n).svPc = s.svPc ∧
    (s.assign n).svIn = s.svIn ∧ (s.assign n).svOut = s.svOut ∧ (s.assign n).lock = s.lock ∧
    (s.assign n).voIn = s.voIn ∧ (s.assign n).got = s.got := by
  unfold State.assign
  split <;> exact ⟨rfl, rfl, rfl, rfl, rfl, rfl, rfl⟩

/-- What the loads of a part of the numbers come to. -/
theorem loads_lt (hsum : ((numbers inp).map decimal).sum < 2 ^ 31) (h : seen <+: numbers inp) :
    (greedy (positives seen)).one + (greedy (positives seen)).two < 2 ^ 31 := by
  rw [greedy_sum, positives_sum]
  exact Nat.lt_of_le_of_lt (sum_mono h) hsum

/-- A number of the input. -/
theorem decimal_lt (hsum : ((numbers inp).map decimal).sum < 2 ^ 31) {ts : List (List Byte)}
    {t : List Byte} (h : ts ++ [t] <+: numbers inp) : decimal t < 2 ^ 31 := by
  have := sum_mono h
  rw [List.map_append, List.sum_append, List.map_singleton, List.sum_singleton] at this
  omega

/-- **A number has been read to its end.** -/
theorem returns_inv (hsum : ((numbers inp).map decimal).sum < 2 ^ 31)
    (h : Inv inp s done cur fin seen) {part : List Byte} {unseen : List (List Byte)}
    (hpc : s.voPc = .digits (BitVec.ofNat 32 (decimal part))) (hd : done = seen ++ part :: unseen)
    (hv : s.voIn = (enc seen ++ part).length) :
    Inv inp ((s.readVo .skip).returns (BitVec.ofNat 32 (decimal part))) done cur fin
      (seen ++ [part]) := by
  have hpre : seen ++ [part] <+: done :=
    ⟨unseen, by rw [hd, List.append_assoc, List.singleton_append]⟩
  have hlt : decimal part < 2 ^ 31 := decimal_lt hsum (hpre.trans h.sv.prefix_numbers)
  have hout := h.out
  rw [hpc] at hout
  obtain ⟨hsums, hwrote⟩ := hout
  refine h.voinuoc ⟨rfl, rfl, rfl, rfl⟩ (h.lock_vo (by rw [hpc]; rfl))
    (.inr ⟨ofNat_ne_neg_one hlt, hpre, ?_⟩) ⟨_, hsums, hwrote, ?_⟩ ?_
  · show s.voIn + 1 = _
    rw [hv, enc_snoc]
    simp only [List.length_append, List.length_singleton]
  · by_cases h₀ : 0 < decimal part
    · refine .inr ⟨decimal part, h₀, rfl, ofNat_ne_neg_one hlt, ?_⟩
      rw [positives_snoc, if_pos h₀, greedy_snoc]
    · refine .inl ⟨.inr ?_, ?_⟩
      · rw [Nat.eq_zero_of_not_pos h₀]
        rfl
      · rw [positives_snoc, if_neg h₀, List.append_nil]
  · show ((s.got ++ [BitVec.ofNat 32 (decimal part)]).map BitVec.toNat).filter (0 < ·) = _
    have hnat : (BitVec.ofNat 32 (decimal part)).toNat = decimal part := by
      rw [BitVec.toNat_ofNat, Nat.mod_eq_of_lt (by omega)]
    rw [List.map_append, List.filter_append, h.got, positives_snoc]
    congr 1
    rw [List.map_singleton, hnat]
    split <;> rename_i h₀ <;> simp [h₀]

/-- `read_unsigned_integer` has found nothing. -/
theorem returns_nothing (h : Inv inp s done cur fin seen) (hpc : s.voPc = .skip) :
    Inv inp (s.returns 0) done cur fin seen := by
  have hvo := h.vo
  have hout := h.out
  rw [hpc] at hvo hout
  refine h.voinuoc ⟨rfl, rfl, rfl, rfl⟩ (h.lock_vo (by rw [hpc]; rfl))
    (.inr ⟨by decide, hvo⟩) ⟨_, hout.1, hout.2, .inl ⟨.inr rfl, rfl⟩⟩ ?_
  show ((s.got ++ [0]).map BitVec.toNat).filter (0 < ·) = _
  rw [List.map_append, List.filter_append, h.got]
  exact List.append_nil _

/-- The `Signal` of `voinuoc`, and the assignment of the number it has read. -/
theorem signal_inv (hsum : ((numbers inp).map decimal).sum < 2 ^ 31)
    (h : Inv inp s done cur fin seen) {n : Word} (hpc : s.voPc = .signal n) :
    Inv inp (if n = -1 then s.signal.gotoVo .writeEnd else s.signal.assign n) done cur fin seen := by
  have hvo := h.vo
  have hout := h.out
  rw [hpc] at hvo hout
  have hin : s.voPc.inside = true := by rw [hpc]; rfl
  obtain ⟨y, hsums, hwrote, hy⟩ := hout
  rcases hvo with ⟨rfl, hd, hf⟩ | ⟨hn, hp, hv⟩
  · rw [if_pos rfl]
    refine h.voinuoc ⟨rfl, rfl, rfl, rfl⟩ (h.leave_vo hin rfl) ⟨hd, hf⟩ ?_ h.got
    rcases hy with ⟨-, rfl⟩ | ⟨k, -, -, hk, -⟩
    · exact ⟨hsums, hwrote⟩
    · exact absurd rfl hk
  · rw [if_neg hn]
    obtain ⟨h₁, h₂, h₃, h₄, h₅, h₆, h₇⟩ := assign_same s.signal n
    have hgot : ((s.signal.assign n).got.map BitVec.toNat).filter (0 < ·) = positives seen := by
      rw [h₇]
      exact h.got
    rcases hy with ⟨rfl | rfl, rfl⟩ | ⟨k, hk, rfl, -, hx⟩
    · exact absurd rfl hn
    · obtain ⟨hpc', hout'⟩ := assign_zero (s := s.signal) hsums hwrote
      refine h.voinuoc ⟨h₁, h₂, h₃, h₄⟩ ?_ ?_ ?_ hgot
      · rw [h₅, hpc']
        exact h.leave_vo hin rfl
      · rw [h₆, hpc']
        exact ⟨hp, hv⟩
      · rw [hpc']
        exact hout'
    · obtain ⟨tap, hpc', hout'⟩ := assign_pos (s := s.signal) hsums hwrote hk hx
        (loads_lt hsum (hp.trans h.sv.prefix_numbers))
      refine h.voinuoc ⟨h₁, h₂, h₃, h₄⟩ ?_ ?_ ?_ hgot
      · rw [h₅, hpc']
        exact h.leave_vo hin rfl
      · rw [h₆, hpc']
        exact ⟨hp, hv⟩
      · rw [hpc']
        exact hout'

/-- One more digit. -/
theorem digit_inv (h : Inv inp s done cur fin seen) {part q : List Byte}
    {unseen : List (List Byte)} {c : Byte}
    (hpc : s.voPc = .digits (BitVec.ofNat 32 (decimal part)))
    (hd : done = seen ++ (part ++ c :: q) :: unseen) (hv : s.voIn = (enc seen ++ part).length) :
    Inv inp (s.readVo (.digits (BitVec.ofNat 32 (decimal part) * 10 + digit c))) done cur fin
      seen := by
  have hout := h.out
  rw [hpc] at hout
  refine h.voinuoc ⟨rfl, rfl, rfl, rfl⟩ (h.lock_vo (by rw [hpc]; rfl))
    ⟨part ++ [c], q, unseen, ?_, ?_, ?_⟩ hout h.got
  · rw [hd, List.append_assoc, List.singleton_append]
  · rw [decimal_snoc, BitVec.ofNat_add, BitVec.ofNat_mul]
    rfl
  · show s.voIn + 1 = _
    rw [hv]
    simp only [List.length_append, List.length_singleton]
    omega

/-- **The reads of `voinuoc` keep the invariant.** -/
theorem skip_inv (h : Inv inp s done cur fin seen) (hpc : s.voPc = .skip)
    (hs : s.voinuoc ok = .ok s') : ∃ seen', Inv inp s' done cur fin seen' := by
  have hvo := h.vo
  have hout := h.out
  unfold State.voinuoc at hs
  rw [hpc] at hs hvo hout
  simp only at hs
  rcases h.skip_cases hpc with hc | ⟨hc, hd, hf⟩ | ⟨c, q, unseen, hc, hdig, hd⟩ <;> rw [hc] at hs <;>
    cases hs
  · exact ⟨seen, returns_nothing h hpc⟩
  · rw [if_pos rfl]
    exact ⟨seen, h.voinuoc ⟨rfl, rfl, rfl, rfl⟩ (h.lock_vo (by rw [hpc]; rfl))
      (.inl ⟨rfl, hd, hf⟩) ⟨_, hout.1, hout.2, .inl ⟨.inl rfl, rfl⟩⟩ h.got⟩
  · have hne : c ≠ minus := by
      rintro rfl
      rw [isDigit_minus] at hdig
      cases hdig
    rw [if_neg hne, if_pos hdig]
    refine ⟨seen, h.voinuoc ⟨rfl, rfl, rfl, rfl⟩ (h.lock_vo (by rw [hpc]; rfl))
      ⟨[c], q, unseen, hd, ?_, ?_⟩ hout h.got⟩
    · rw [digit, decimal, List.foldl_cons, List.foldl_nil, Nat.zero_mul, Nat.zero_add]
    · show s.voIn + 1 = _
      rw [hvo.2, List.length_append]
      rfl

theorem digits_inv (hsum : ((numbers inp).map decimal).sum < 2 ^ 31)
    (h : Inv inp s done cur fin seen) {res : Word} (hpc : s.voPc = .digits res)
    (hs : s.voinuoc ok = .ok s') : ∃ seen', Inv inp s' done cur fin seen' := by
  have hvo := h.vo
  unfold State.voinuoc at hs
  rw [hpc] at hs hvo
  simp only at hs
  obtain ⟨part, q, unseen, hd, rfl, hv⟩ := hvo
  rw [h.digits_read (by rw [hpc]; rfl) hd hv] at hs
  cases hs
  cases q with
  | nil =>
      rw [List.headD_nil, if_neg (by rw [isDigit_blank]; exact Bool.noConfusion)]
      rw [List.append_nil] at hd
      exact ⟨_, returns_inv hsum h hpc hd hv⟩
  | cons c q =>
      have hmem : part ++ c :: q ∈ numbers inp := h.sv.prefix_numbers.subset (by rw [hd]; simp)
      have hdig := (mem_chunks hmem).2 c (by simp)
      rw [List.headD_cons, if_pos hdig]
      exact ⟨seen, digit_inv h hpc hd hv⟩

theorem Wrote.append {out : List Byte} (h : Wrote s out) (bytes : List Byte) :
    Wrote (s.writeTmp bytes) (out ++ bytes) := by
  obtain ⟨rfl, hv⟩ := h
  unfold State.writeTmp Wrote
  dsimp only
  rw [hv, Syscall.writeFile_end, List.length_append]
  exact ⟨rfl, rfl⟩

theorem Inv.vo_open (h : Inv inp s done cur fin seen) (hpc : s.voPc = .openVn ∨ s.voPc = .openTmp)
    (hs : s.voinuoc ok = .ok s') : Inv inp s' done cur fin seen := by
  have hvo := h.vo
  have hout := h.out
  rcases hpc with hpc | hpc <;> rw [hpc] at hvo hout <;> simp only [State.voinuoc, hpc] at hs <;>
    cases hs
  · refine h.voinuoc ⟨rfl, rfl, rfl, rfl⟩ (h.lock_vo ?_) ?_ ?_ h.got
    · rw [hpc]; cases ok <;> rfl
    · cases ok <;> exact hvo
    · cases ok
      · trivial
      · exact hout
  · refine h.voinuoc ⟨rfl, rfl, rfl, rfl⟩ (h.lock_vo ?_) ?_ ?_ h.got
    · rw [hpc]; cases ok <;> rfl
    · cases ok <;> exact hvo
    · cases ok
      · trivial
      · exact hout

/-- `tmp.txt` is there, and empty. -/
theorem Inv.vo_createTmp (h : Inv inp s done cur fin seen) (hpc : s.voPc = .createTmp)
    (hs : s.voinuoc ok = .ok s') : Inv inp s' done cur fin seen := by
  have hvo := h.vo
  have hout := h.out
  rw [hpc] at hvo hout
  simp only [State.voinuoc, hpc] at hs
  cases hs
  obtain ⟨hx, hv, hsums⟩ := hout
  cases ok
  · exact h.voinuoc ⟨rfl, rfl, rfl, rfl⟩ (h.lock_vo (by rw [hpc]; rfl)) hvo trivial h.got
  · refine h.voinuoc ⟨rfl, rfl, rfl, rfl⟩ (h.lock_vo (by rw [hpc]; rfl)) hvo ⟨hsums, hx.symm, ?_⟩ h.got
    rw [hx]
    exact hv

theorem Inv.vo_wait (h : Inv inp s done cur fin seen) (hpc : s.voPc = .wait)
    (hs : s.voinuoc ok = .ok s') : Inv inp s' done cur fin seen := by
  have hvo := h.vo
  have hout := h.out
  rw [hpc] at hvo hout
  simp only [State.voinuoc, hpc] at hs
  obtain ⟨hl, rfl⟩ := wait_ok hs
  exact h.voinuoc ⟨rfl, rfl, rfl, rfl⟩ (h.enter_vo hl rfl) hvo hout h.got

/-- The tap of the last number is written. -/
theorem Inv.vo_writeTap (h : Inv inp s done cur fin seen) {tap : Byte} (hpc : s.voPc = .writeTap tap)
    (hs : s.voinuoc ok = .ok s') : Inv inp s' done cur fin seen := by
  have hvo := h.vo
  have hout := h.out
  rw [hpc] at hvo hout
  simp only [State.voinuoc, hpc] at hs
  cases hs
  obtain ⟨hsums, out, hw, hx⟩ := hout
  refine h.voinuoc ⟨rfl, rfl, rfl, rfl⟩ (h.lock_vo (by rw [hpc]; rfl)) hvo ⟨hsums, ?_⟩ h.got
  rw [← hx]
  exact hw.append [tap, blank]

theorem Inv.vo_end (h : Inv inp s done cur fin seen)
    (hpc : s.voPc = .writeEnd ∨ s.voPc = .closeVn ∨ s.voPc = .closeTmp)
    (hs : s.voinuoc ok = .ok s') : Inv inp s' done cur fin seen := by
  have hvo := h.vo
  have hout := h.out
  rcases hpc with hpc | hpc | hpc <;> rw [hpc] at hvo hout <;> simp only [State.voinuoc, hpc] at hs <;>
    cases hs
  · exact h.voinuoc ⟨rfl, rfl, rfl, rfl⟩ (h.lock_vo (by rw [hpc]; rfl)) hvo
      (hout.2.append [newline]).1 h.got
  · exact h.voinuoc ⟨rfl, rfl, rfl, rfl⟩ (h.lock_vo (by rw [hpc]; rfl)) hvo hout h.got
  · exact h.voinuoc ⟨rfl, rfl, rfl, rfl⟩ (h.lock_vo (by rw [hpc]; rfl)) hvo hout h.got

/-- **A step of `voinuoc` keeps the invariant.** -/
theorem voinuoc_inv (hsum : ((numbers inp).map decimal).sum < 2 ^ 31)
    (h : Inv inp s done cur fin seen) (hs : s.voinuoc ok = .ok s') :
    ∃ seen', Inv inp s' done cur fin seen' := by
  cases hpc : s.voPc with
  | openVn => exact ⟨seen, h.vo_open (.inl hpc) hs⟩
  | createTmp => exact ⟨seen, h.vo_createTmp hpc hs⟩
  | openTmp => exact ⟨seen, h.vo_open (.inr hpc) hs⟩
  | wait => exact ⟨seen, h.vo_wait hpc hs⟩
  | skip => exact skip_inv h hpc hs
  | digits res => exact digits_inv hsum h hpc hs
  | signal n =>
      simp only [State.voinuoc, hpc] at hs
      cases hs
      exact ⟨seen, signal_inv hsum h hpc⟩
  | writeTap tap => exact ⟨seen, h.vo_writeTap hpc hs⟩
  | writeEnd => exact ⟨seen, h.vo_end (.inl hpc) hs⟩
  | closeVn => exact ⟨seen, h.vo_end (.inr (.inl hpc)) hs⟩
  | closeTmp => exact ⟨seen, h.vo_end (.inr (.inr hpc)) hs⟩
  | finished =>
      simp only [State.voinuoc, hpc] at hs
      cases hs
  | failed =>
      simp only [State.voinuoc, hpc] at hs
      cases hs

theorem run_inv (hsum : ((numbers inp).map decimal).sum < 2 ^ 31) {tmp : List Byte}
    (h : Steps (step inp) always (init tmp) s) : ∃ done cur fin seen, Inv inp s done cur fin seen := by
  refine h.inv (I := fun s => ∃ done cur fin seen, Inv inp s done cur fin seen)
    ⟨[], [], [], [], init_inv inp tmp⟩ ?_
  rintro s a s' ⟨done, cur, fin, seen, hinv⟩ - hs
  cases a with
  | sinhvien ok =>
      obtain ⟨done', cur', fin', hinv'⟩ := sinhvien_inv hinv hs
      exact ⟨done', cur', fin', seen, hinv'⟩
  | voinuoc ok =>
      obtain ⟨seen', hinv'⟩ := voinuoc_inv hsum hinv hs
      exact ⟨done, cur, fin, seen', hinv'⟩

/-- What `voinuoc` has seen are the first numbers of the input. -/
theorem Inv.prefix_numbers (h : Inv inp s done cur fin seen) : seen <+: numbers inp := by
  refine List.IsPrefix.trans ?_ h.sv.prefix_numbers
  have hvo := h.vo
  cases hpc : s.voPc <;> rw [hpc] at hvo
  case digits res =>
    obtain ⟨part, q, unseen, rfl, -, -⟩ := hvo
    exact List.prefix_append ..
  case signal n =>
    rcases hvo with ⟨-, rfl, -⟩ | ⟨-, hp, -⟩
    · exact List.prefix_rfl
    · exact hp
  case writeEnd => rw [hvo.1]
  case closeVn => rw [hvo.1]
  case closeTmp => rw [hvo.1]
  case finished => rw [hvo.1]
  all_goals exact hvo.1

/-- **The programs compute the greedy assignment.**  `ts` are the numbers of the line, which are
separated by blanks and may be followed by a newline.  However the two programs are interleaved, the
positive numbers that `voinuoc` has read are the first ones of the line; and when both have finished,
`tmp.txt` holds the assignment of them all. -/
theorem taps_greedy {ts : List (List Byte)} {tail tmp : List Byte}
    (hts : ∀ t ∈ ts, t ≠ [] ∧ ∀ c ∈ t, isDigit c = true) (htail : tail = [] ∨ tail = [newline])
    (hsum : (ts.map decimal).sum < 2 ^ 31)
    (h : Steps (step (join blank tail ts)) always (init tmp) s) :
    (s.got.map BitVec.toNat).filter (0 < ·) <+: positives ts ∧
      (s.svPc = .finished → s.voPc = .finished →
        s.tmp = (greedy (positives ts)).out ++ [newline]) := by
  have hnum : numbers (join blank tail ts) = ts := by
    refine chunks_join isDigit_blank (fun c hc => ?_) hts
    rcases htail with rfl | rfl
    · cases hc
    · rw [List.mem_singleton.mp hc]
      rfl
  obtain ⟨done, cur, fin, seen, hinv⟩ := run_inv (by rw [hnum]; exact hsum) h
  refine ⟨?_, fun hsv hvo => ?_⟩
  · have hp := hinv.prefix_numbers
    rw [hnum] at hp
    obtain ⟨unseen, rfl⟩ := hp
    rw [hinv.got, positives, positives, List.map_append, List.filter_append]
    exact List.prefix_append ..
  · have h₁ := hinv.sv
    have h₂ := hinv.vo
    have h₃ := hinv.out
    rw [hsv] at h₁
    rw [hvo] at h₂ h₃
    rw [← hnum, h₁.1, h₂.1]
    exact h₃

end

/-- The line `4 2 1`, of which `voinuoc` sees nothing at first. -/
theorem taps_greedy_line : ∃ s,
    run (step (join blank [newline] [[0x34], [0x32], [0x31]])) always (init [])
      (List.replicate 6 (.voinuoc true) ++ List.replicate 26 (.sinhvien true) ++
        List.replicate 21 (.voinuoc true)) = some s ∧
    s.svPc = .finished ∧ s.voPc = .finished ∧
    s.tmp = [0x31, blank, 0x32, blank, 0x32, blank, newline] := by
  obtain ⟨s, hs, hsv, hvo⟩ : ∃ s,
      run (step (join blank [newline] [[0x34], [0x32], [0x31]])) always (init [])
        (List.replicate 6 (.voinuoc true) ++ List.replicate 26 (.sinhvien true) ++
          List.replicate 21 (.voinuoc true)) = some s ∧
      s.svPc = .finished ∧ s.voPc = .finished := ⟨_, rfl, rfl, rfl⟩
  exact ⟨s, hs, hsv, hvo, (taps_greedy (by decide) (.inr rfl) (by decide) (.of_run hs)).2 hsv hvo⟩

end Nachos.Taps
