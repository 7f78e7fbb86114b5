import Nachos.Lib.Lock
import Nachos.Threads.SynchConsole

/-!
# Threads — Read loses and doubles nothing

The keyboard has a buffer of one character, whose `EOF` for "empty" is also a byte it can deliver.
Such a byte is counted by `synchReadAvail` and not seen in the buffer, so the counter can run ahead;
the reader finds `EOF` and waits again.  What `ReadInv` keeps is the text that is still to be
read: what the reader in the loop has stored, what is in the buffer, and what the host has.
-/

namespace Nachos.SynchConsole
open Lib

/-- What one `Read` takes from the text `r`, and leaves of it: a piece of at most `numBytes`
characters without newline and Ctrl-A, with the character that ends it when the piece is shorter. -/
def Takes (l : Line) (r r' : List Byte) : Prop :=
  (∀ ch ∈ l.dst, isEoln ch = false) ∧
    (((l.dst.length : Int) = l.numBytes ∧ r = l.dst ++ r' ∧ l.ret = l.dst.length) ∨
      ((l.dst.length : Int) < l.numBytes ∧ ∃ ch, isEoln ch = true ∧ r = l.dst ++ ch :: r' ∧
        l.ret = if ch = 0x01 ∧ l.dst.length = 0 then -1 else (l.dst.length : Int)))

/-- Reads that take consecutive pieces of a text. -/
inductive Serial : List Byte → List Line → List Byte → Prop where
  | nil {r : List Byte} : Serial r [] r
  | snoc {r r' r'' : List Byte} {ls : List Line} {l : Line} : Serial r ls r' → Takes l r' r'' →
      Serial r (ls ++ [l]) r''

/-- The bytes of a stream that are characters. -/
def text (stream : List Byte) : List Byte := stream.filter (· ≠ EOF)

/-- What the buffer of the keyboard holds. -/
def State.buffered (s : State) : List Byte := text [s.incoming]

namespace PC

/-- In the loop of `Read`, between `RLineBlock->P()` and `RLineBlock->V()`. -/
def inRead : PC → Bool
  | readNext _ _ _ | readChar _ _ | readGet _ _ => true
  | _ => false

end PC

/-- What is still to be read when the thread in the loop of `Read` has stored `dst`. -/
def State.rest (s : State) (dst : List Byte) : List Byte := dst ++ s.buffered ++ text s.stream

/-- The reader `t` in the loop of `Read` was asked for `numBytes` and has stored `dst`. -/
def Reading (input : List Byte) (s : State) (t : Tid) (numBytes : Int) (dst : List Byte) : Prop :=
  (dst.length : Int) < numBytes ∧ (∀ ch ∈ dst, isEoln ch = false) ∧
    s.reads = (s.lines.map fun l => (l.thread, l.numBytes)) ++ [(t, numBytes)] ∧
    Serial (text input) s.lines (s.rest dst)

/-- What a thread in the loop of `Read` knows at its place. -/
def ReadOk (input : List Byte) (s : State) (t : Tid) : PC → Prop
  | .readLine numBytes _ => 0 < numBytes
  | .readNext numBytes dst _ | .readChar numBytes dst | .readGet numBytes dst =>
      Reading input s t numBytes dst
  | _ => True

structure ReadInv (input : List Byte) (s : State) : Prop where
  lock : Lock (fun t => (s.pc t).inRead = true) (s.value .RLineBlock)
  free : (∀ t, (s.pc t).inRead = false) →
    s.reads = (s.lines.map fun l => (l.thread, l.numBytes)) ∧
      Serial (text input) s.lines (s.rest [])
  holder : ∀ t, ReadOk input s t (s.pc t)
  nonneg : 0 ≤ s.value .synchReadAvail
  /-- A character in the buffer has a `V` to be consumed, or a reader about to take it. -/
  avail : s.incoming ≠ EOF → 0 < s.value .synchReadAvail ∨ ∃ t n dst, s.pc t = .readGet n dst

section
variable {input : List Byte} {s s' : State} {t u : Tid} {n : Int} {dst : List Byte} {ch : Byte}

/-- Two states that show a reader the same keyboard. -/
structure SameRead (s s' : State) : Prop where
  lock : s'.value .RLineBlock = s.value .RLineBlock
  avail : s'.value .synchReadAvail = s.value .synchReadAvail
  keyboard : s'.incoming = s.incoming ∧ s'.stream = s.stream
  reads : s'.reads = s.reads ∧ s'.lines = s.lines

/-- What a reader knows depends on the text still to be read only. -/
theorem ReadOk.congr (hreads : s'.reads = s.reads) (hlines : s'.lines = s.lines)
    (hrest : ∀ dst, s'.rest dst = s.rest dst) {pc : PC} (ho : ReadOk input s t pc) :
    ReadOk input s' t pc := by
  have hr : ∀ {n dst}, Reading input s t n dst → Reading input s' t n dst := by
    rintro n dst ⟨h₁, h₂, h₃, h₄⟩
    exact ⟨h₁, h₂, by rw [hreads, hlines, h₃], by rw [hlines, hrest]; exact h₄⟩
  cases pc with
  | readLine => exact ho
  | readNext | readChar | readGet => exact hr ho
  | _ => trivial

theorem SameRead.rest (h : SameRead s s') : s'.rest dst = s.rest dst := by
  rw [State.rest, State.rest, State.buffered, State.buffered, h.keyboard.1, h.keyboard.2]

theorem SameRead.readOk (h : SameRead s s') {pc : PC} (ho : ReadOk input s t pc) :
    ReadOk input s' t pc := ho.congr h.reads.1 h.reads.2 fun _ => h.rest

/-- A step outside the loop of `Read`. -/
theorem ReadInv.outside {q : PC} (h : ReadInv input s) (hpc : s'.pc = Function.update s.pc t q)
    (hs : SameRead s s') (ht : (s.pc t).inRead = false) (hq : q.inRead = false)
    (hok : ReadOk input s' t q) : ReadInv input s' := by
  have hin : ∀ u, (s'.pc u).inRead = (s.pc u).inRead := fun u => by
    rw [hpc]
    by_cases e : u = t
    · rw [e, Function.update_self, ht, hq]
    · rw [Function.update_of_ne e]
  refine ⟨hs.lock ▸ h.lock.congr fun u => by rw [hin], fun hn => ?_, fun u => ?_,
    hs.avail ▸ h.nonneg, fun hi => ?_⟩
  · obtain ⟨h₁, h₂⟩ := h.free fun u => by rw [← hin]; exact hn u
    exact ⟨by rw [hs.reads.1, hs.reads.2, h₁], by rw [hs.reads.2, hs.rest]; exact h₂⟩
  · rw [hpc]
    by_cases e : u = t
    · rw [e, Function.update_self]; exact hok
    · rw [Function.update_of_ne e]; exact hs.readOk (h.holder u)
  · rw [hs.avail]
    refine (h.avail (hs.keyboard.1 ▸ hi)).imp_right fun ⟨u, n, dst, hu⟩ => ⟨u, n, dst, ?_⟩
    have e : u ≠ t := by
      rintro rfl
      rw [hu] at ht
      cases ht
    rw [hpc, Function.update_of_ne e, hu]

/-- A step that moves nobody. -/
theorem ReadInv.congr (h : ReadInv input s) (hpc : s'.pc = s.pc) (hs : SameRead s s') :
    ReadInv input s' := by
  refine ⟨hs.lock ▸ hpc ▸ h.lock, fun hn => ?_, fun u => hpc ▸ hs.readOk (h.holder u),
    hs.avail ▸ h.nonneg, fun hi => ?_⟩
  · obtain ⟨h₁, h₂⟩ := h.free (hpc ▸ hn)
    exact ⟨by rw [hs.reads.1, hs.reads.2, h₁], by rw [hs.reads.2, hs.rest]; exact h₂⟩
  · rw [hs.avail, hpc]
    exact h.avail (hs.keyboard.1 ▸ hi)

/-- The threads that are not in the loop know nothing of it. -/
theorem readOk_outside {pc : PC} (h : pc.inRead = false)
    (hl : ReadOk input s t pc) : ReadOk input s' t pc := by
  cases pc <;> trivial

/-- A step of the reader that has the lock. -/
theorem ReadInv.inside {q : PC} (h : ReadInv input s) (hpc : s'.pc = Function.update s.pc t q)
    (hlock : s'.value .RLineBlock = s.value .RLineBlock) (ht : (s.pc t).inRead = true)
    (hq : q.inRead = true) (hok : ReadOk input s' t q) (hnn : 0 ≤ s'.value .synchReadAvail)
    (havail : s'.incoming ≠ EOF → 0 < s'.value .synchReadAvail ∨ ∃ n dst, q = .readGet n dst) :
    ReadInv input s' := by
  have hin : ∀ u, (s'.pc u).inRead = (s.pc u).inRead := fun u => by
    rw [hpc]
    by_cases e : u = t
    · rw [e, Function.update_self, ht, hq]
    · rw [Function.update_of_ne e]
  refine ⟨hlock ▸ h.lock.congr fun u => by rw [hin], fun hn => ?_, fun u => ?_, hnn, fun hi => ?_⟩
  · have := hn t
    rw [hin, ht] at this
    cases this
  · rw [hpc]
    by_cases e : u = t
    · rw [e, Function.update_self]; exact hok
    · rw [Function.update_of_ne e]
      refine readOk_outside ?_ (h.holder u)
      by_contra hu
      exact e (h.lock.unique ht ((Bool.not_eq_false _).mp hu))
  · refine (havail hi).imp_right fun ⟨n, dst, e⟩ => ⟨t, n, dst, ?_⟩
    rw [hpc, Function.update_self, e]

/-- `P`, in any place. -/
theorem ReadInv.P (h : ReadInv input s) : ReadInv input (s.P t) := by
  have hok := h.holder t
  cases hpc : s.pc t with
  | readLine n ch =>
      rw [hpc] at hok
      rcases P_cases (s := s) (t := t) (r := .RLineBlock) (by rw [hpc]; rfl) with
        ⟨-, y, hy, e⟩ | ⟨hv, y, hy, hy', e⟩
      · rw [e]; exact h.congr rfl ⟨hy _, hy _, ⟨rfl, rfl⟩, ⟨rfl, rfl⟩⟩
      · -- nobody has the lock, so the text before the buffer has been read
        obtain ⟨-, hno⟩ := h.lock.empty_of_value hv
        obtain ⟨hreads, hserial⟩ := h.free fun u => by simpa using hno u
        have hval : (y.sems .synchReadAvail).value = s.value .synchReadAvail :=
          hy' _ (by decide)
        rw [e, hpc]
        refine ⟨?_, fun hn => ?_, fun u => ?_, ?_, fun hi => ?_⟩
        · show Lock _ (y.sems .RLineBlock).value
          rw [hy]
          refine h.lock.enter (t := t) hv (by rw [goto_pc_self]; rfl) fun u hu hin => ?_
          rwa [goto_pc_ne _ _ hu] at hin
        · have := hn t
          rw [goto_pc_self] at this
          cases this
        · by_cases eu : u = t
          · rw [eu, goto_pc_self]
            refine ⟨hok, by simp, ?_, hserial⟩
            show s.reads ++ [(t, n)] = _
            rw [hreads]
            rfl
          · rw [goto_pc_ne _ _ eu]
            have hu : (s.pc u).inRead = false := by simpa using hno u
            exact readOk_outside hu (h.holder u)
        · show 0 ≤ (y.sems .synchReadAvail).value
          rw [hval]
          exact h.nonneg
        · left
          show 0 < (y.sems .synchReadAvail).value
          rw [hval]
          rcases h.avail hi with h₀ | ⟨u, n', dst, hu⟩
          · exact h₀
          · exact absurd (by rw [hu]; rfl) (hno u)
  | readChar n dst =>
      rw [hpc] at hok
      rcases P_cases (s := s) (t := t) (r := .synchReadAvail) (by rw [hpc]; rfl) with
        ⟨-, y, hy, e⟩ | ⟨hv, y, hy, hy', e⟩
      · rw [e]; exact h.congr rfl ⟨hy _, hy _, ⟨rfl, rfl⟩, ⟨rfl, rfl⟩⟩
      · rw [e, hpc]
        refine h.inside (q := .readGet n dst) rfl (hy' _ (by decide)) (by rw [hpc]; rfl) rfl hok
          ?_ fun _ => .inr ⟨n, dst, rfl⟩
        have h₀ := h.nonneg
        show 0 ≤ (y.sems .synchReadAvail).value
        rw [hy]
        omega
  | writeLine src n =>
      rcases P_cases (s := s) (t := t) (r := .WLineBlock) (by rw [hpc]; rfl) with
        ⟨-, y, hy, e⟩ | ⟨-, y, -, hy', e⟩
      · rw [e]; exact h.congr rfl ⟨hy _, hy _, ⟨rfl, rfl⟩, ⟨rfl, rfl⟩⟩
      · rw [e, hpc]
        exact h.outside (q := .writeNext src n 0) rfl
          ⟨hy' _ (by decide), hy' _ (by decide), ⟨rfl, rfl⟩, ⟨rfl, rfl⟩⟩ (by rw [hpc]; rfl) rfl
          trivial
  | writeChar src n loop =>
      rcases P_cases (s := s) (t := t) (r := .synchWriteAvail) (by rw [hpc]; rfl) with
        ⟨-, y, hy, e⟩ | ⟨-, y, -, hy', e⟩
      · rw [e]; exact h.congr rfl ⟨hy _, hy _, ⟨rfl, rfl⟩, ⟨rfl, rfl⟩⟩
      · rw [e, hpc]
        exact h.outside (q := .writeNext src n (loop + 1)) rfl
          ⟨hy' _ (by decide), hy' _ (by decide), ⟨rfl, rfl⟩, ⟨rfl, rfl⟩⟩ (by rw [hpc]; rfl) rfl
          trivial
  | _ =>
      have e : s.P t = s := by simp [State.P, hpc, PC.sem]
      rw [e]; exact h

/-! ### The steps -/

theorem buffered_of_ne (h : s.incoming ≠ EOF) : s.buffered = [s.incoming] := by
  simp [State.buffered, text, h]

/-- The reader has taken what was in the buffer: the end of `Read`. -/
theorem ReadInv.readEnd (h : ReadInv input s) (hpc : s.pc t = .readGet n dst) {dst' : List Byte}
    (ht : Takes ⟨t, n, dst', if ch = 0x01 ∧ dst'.length = 0 then -1 else dst'.length⟩ (s.rest dst)
      (text s.stream)) : ReadInv input ({ s with incoming := EOF }.readEnd t n dst' ch) := by
  obtain ⟨-, -, hreads, hserial⟩ : ReadOk input s t (.readGet n dst) := hpc ▸ h.holder t
  have hin : (s.pc t).inRead = true := by rw [hpc]; rfl
  have hout : ∀ u, (({ s with incoming := EOF }.readEnd t n dst' ch).pc u).inRead = false := by
    intro u
    by_cases e : u = t
    · rw [e, State.readEnd, goto_pc_self]; rfl
    · rw [State.readEnd, goto_pc_ne _ _ e]
      by_contra hu
      exact e (h.lock.unique hin ((Bool.not_eq_false _).mp hu))
  refine ⟨?_, fun _ => ⟨?_, hserial.snoc ht⟩, fun u => ?_, ?_, fun hi => absurd rfl hi⟩
  · have hlock : Lock (fun u =>
        (({ s with incoming := EOF }.readEnd t n dst' ch).pc u).inRead = true)
        (s.value .RLineBlock + 1) :=
      h.lock.leave (t := t) hin (by simp only [hout]; simp)
        fun u _ hu => by simp only [hout] at hu; cases hu
    exact (V_value_self { s with lines := _, incoming := _ } .RLineBlock).symm ▸ hlock
  · show s.reads = (s.lines ++ [_]).map _
    rw [hreads, List.map_append]
    rfl
  · by_cases e : u = t
    · rw [e, State.readEnd, goto_pc_self]; trivial
    · have hu := hout u
      rw [State.readEnd, goto_pc_ne _ _ e] at hu ⊢
      exact readOk_outside hu (h.holder u)
  · exact (V_value_ne (s := { s with lines := _, incoming := _ }) (r := .RLineBlock)
      (k := .synchReadAvail) (by decide)).symm ▸ h.nonneg

/-- The reader has taken what was in the buffer, and goes on waiting. -/
theorem ReadInv.more (h : ReadInv input s) (hpc : s.pc t = .readGet n dst) {dst' : List Byte}
    (hlt : (dst'.length : Int) < n) (hdst : ∀ ch ∈ dst', isEoln ch = false)
    (hrest : s.rest dst = dst' ++ text s.stream) :
    ReadInv input ({ s with incoming := EOF }.goto t (.readChar n dst')) := by
  obtain ⟨-, -, hreads, hserial⟩ : ReadOk input s t (.readGet n dst) := hpc ▸ h.holder t
  refine h.inside (q := .readChar n dst') rfl rfl (by rw [hpc]; rfl) rfl
    ⟨hlt, hdst, hreads, ?_⟩ h.nonneg fun hi => absurd rfl hi
  have e : State.rest ({ s with incoming := EOF }.goto t (.readChar n dst')) dst' = s.rest dst := by
    rw [hrest, State.rest]
    show dst' ++ [] ++ text s.stream = _
    rw [List.append_nil]
  rw [e]
  exact hserial

theorem ReadInv.readGet (h : ReadInv input s) (hpc : s.pc t = .readGet n dst) :
    ReadInv input (s.readGet t n dst) := by
  obtain ⟨hlt, hdst, -, -⟩ : ReadOk input s t (.readGet n dst) := hpc ▸ h.holder t
  unfold State.readGet State.getChar
  dsimp only
  by_cases hch : s.incoming = EOF
  · -- the counter ran ahead, and there is nothing in the buffer
    rw [if_pos hch]
    refine (h.more hpc hlt hdst ?_).P
    rw [State.rest, State.buffered, hch]
    show dst ++ [] ++ text s.stream = _
    rw [List.append_nil]
  have hrest : s.rest dst = dst ++ s.incoming :: text s.stream := by
    rw [State.rest, buffered_of_ne hch, List.append_assoc]
    rfl
  rw [if_neg hch]
  by_cases heoln : isEoln s.incoming = true
  · rw [if_pos heoln]
    exact h.readEnd hpc ⟨hdst, .inr ⟨hlt, s.incoming, heoln, hrest, rfl⟩⟩
  rw [if_neg heoln]
  have hdst' : ∀ ch ∈ dst ++ [s.incoming], isEoln ch = false := by
    intro ch hmem
    rcases List.mem_append.mp hmem with hm | hm
    · exact hdst ch hm
    · rw [List.mem_singleton.mp hm]
      exact (Bool.not_eq_true _).mp heoln
  have hrest' : s.rest dst = dst ++ [s.incoming] ++ text s.stream := by
    rw [hrest, List.append_assoc]
    rfl
  unfold State.readNext
  split
  · rename_i hmore
    exact (h.more hpc hmore hdst' hrest').P
  · rename_i hfull
    have hlen : ((dst ++ [s.incoming]).length : Int) = n := by
      rw [List.length_append, List.length_singleton] at hfull ⊢
      omega
    refine h.readEnd hpc ⟨hdst', .inl ⟨hlen, hrest', if_neg ?_⟩⟩
    rintro ⟨-, h0⟩
    simp at h0

/-- The first character of a line is waited for. -/
theorem ReadInv.readNext (h : ReadInv input s) (hpc : s.pc t = .readNext n dst ch) :
    ReadInv input (s.readNext t n dst ch) := by
  have hr : Reading input s t n dst := by
    have := h.holder t
    rwa [hpc] at this
  unfold State.readNext
  rw [if_pos hr.1]
  suffices hg : ReadInv input (s.goto t (.readChar n dst)) from hg.P
  refine h.inside (q := .readChar n dst) rfl rfl (by rw [hpc]; rfl) rfl hr h.nonneg
    fun hi => .inl ?_
  rcases h.avail hi with h₀ | ⟨u, n', dst', hu⟩
  · exact h₀
  · -- the one thread in the loop is not at `GetChar`
    have e := h.lock.unique (t := t) (by simp [hpc, PC.inRead]) (u := u) (by simp [hu, PC.inRead])
    rw [e, hpc] at hu
    cases hu

/-- The keyboard delivers a byte. -/
theorem ReadInv.poll {stream : List Byte} (h : ReadInv input s) (hi : s.incoming = EOF)
    (hs : s.stream = ch :: stream) :
    ReadInv input ({ s with incoming := ch, stream := stream }.V .synchReadAvail) := by
  have hrest : ∀ dst, State.rest ({ s with incoming := ch, stream := stream }.V .synchReadAvail)
      dst = s.rest dst := fun dst => by
    have e : text (ch :: stream) = text [ch] ++ text stream := List.filter_append [ch] stream
    rw [State.rest, State.rest, State.buffered, State.buffered, hi, hs, e]
    show dst ++ text [ch] ++ text stream = dst ++ [] ++ (text [ch] ++ text stream)
    rw [List.append_nil, List.append_assoc]
  have hval := V_value_self { s with incoming := ch, stream := stream } .synchReadAvail
  have hnn : 0 < s.value .synchReadAvail + 1 := Int.lt_add_one_of_le h.nonneg
  refine ⟨?_, fun hn => ?_, fun u => ?_, ?_, fun _ => .inl ?_⟩
  · exact (V_value_ne (s := { s with incoming := ch, stream := stream }) (r := .synchReadAvail)
      (k := .RLineBlock) (by decide)).symm ▸ h.lock
  · obtain ⟨h₁, h₂⟩ := h.free hn
    exact ⟨h₁, by rw [hrest]; exact h₂⟩
  · refine ReadOk.congr (s := s) ?_ ?_ hrest (h.holder u) <;> rfl
  · rw [hval]; exact hnn.le
  · rw [hval]; exact hnn

theorem ReadInv.putChar {src : List Byte} {loop : Nat} {s₁ : State} (h : ReadInv input s)
    (hpc : s.pc t = .writeNext src n loop) (hok : s.putChar ch = .ok s₁) :
    ReadInv input (s₁.goto t (.writeChar src n loop)) := by
  unfold State.putChar at hok
  split at hok
  · cases hok
  · cases hok
    exact h.outside (q := .writeChar src n loop) rfl ⟨rfl, rfl, ⟨rfl, rfl⟩, ⟨rfl, rfl⟩⟩
      (by rw [hpc]; rfl) rfl trivial

theorem resume_read (h : ReadInv input s) (hok : s.resume t = .ok s') : ReadInv input s' := by
  have hmove : ∀ {q}, (s.pc t).inRead = false → q.inRead = false → ReadOk input s t q →
      ReadInv input (s.goto t q) := fun h₁ h₂ h₃ =>
    h.outside rfl ⟨rfl, rfl, ⟨rfl, rfl⟩, ⟨rfl, rfl⟩⟩ h₁ h₂
      (h₃.congr rfl rfl fun _ => rfl)
  unfold State.resume at hok
  cases hpc : s.pc t with
  | writeLine | writeChar | readLine | readChar => rw [hpc] at hok; cases hok; exact h.P
  | writeDone | readDone =>
      rw [hpc] at hok
      cases hok
      exact hmove (by rw [hpc]; rfl) rfl trivial
  | readNext => rw [hpc] at hok; cases hok; exact h.readNext hpc
  | readGet => rw [hpc] at hok; cases hok; exact h.readGet hpc
  | idle => rw [hpc] at hok; cases hok
  | writeNext src n loop =>
      rw [hpc] at hok
      dsimp only [State.writeNext] at hok
      split at hok
      · split at hok
        · cases hok
        · split at hok
          · cases hok
          · rename_i hs₁
            cases hok
            exact (h.putChar hpc hs₁).P
      · cases hok
        exact h.outside (q := .writeDone n) rfl
          ⟨V_value_ne (by decide), V_value_ne (by decide), ⟨rfl, rfl⟩, ⟨rfl, rfl⟩⟩
          (by rw [hpc]; rfl) rfl trivial

/-- `Read` is called with room for a character. -/
def ReadsSome (_ : State) : Action → Prop
  | .read _ numBytes _ => 1 ≤ numBytes
  | _ => True

instance (s : State) : (a : Action) → Decidable (ReadsSome s a)
  | .read _ numBytes _ => inferInstanceAs (Decidable (1 ≤ numBytes))
  | .write _ _ _ | .resume _ | .writeDone | .checkCharAvail _ => inferInstanceAs (Decidable True)

theorem step_read {a : Action} (h : ReadInv input s) (ha : ReadsSome s a)
    (hok : step s a = .ok s') : ReadInv input s' := by
  have hmove : ∀ {t q}, s.pc t = .idle → q.inRead = false → ReadOk input s t q →
      ReadInv input (s.goto t q) := fun h₁ h₂ h₃ =>
    h.outside rfl ⟨rfl, rfl, ⟨rfl, rfl⟩, ⟨rfl, rfl⟩⟩ (by rw [h₁]; rfl) h₂
      (h₃.congr rfl rfl fun _ => rfl)
  cases a with
  | write t src n =>
      simp only [step] at hok
      split at hok
      · rename_i hg; cases hok; exact (hmove (q := .writeLine src n) hg.2 rfl trivial).P
      · cases hok
  | read t n ch =>
      simp only [step] at hok
      split at hok
      · rename_i hg; cases hok; exact (hmove (q := .readLine n ch) hg.2 rfl ha).P
      · cases hok
  | resume t =>
      simp only [step] at hok
      split at hok
      · exact resume_read h hok
      · cases hok
  | writeDone =>
      simp only [step] at hok
      split at hok
      · cases hok
        exact h.congr rfl ⟨V_value_ne (s := { s with pending := _, putBusy := _ }) (by decide),
          V_value_ne (s := { s with pending := _, putBusy := _ }) (by decide), ⟨rfl, rfl⟩,
          ⟨rfl, rfl⟩⟩
      · cases hok
  | checkCharAvail avail =>
      simp only [step, State.checkCharAvail] at hok
      split at hok
      · cases hok; exact h
      · rename_i hi
        split at hok
        · cases hok
        · rename_i hs
          cases hok
          exact h.poll (by by_contra hne; exact hi (.inl hne)) hs

theorem init_read (input : List Byte) : ReadInv input (init input) :=
  ⟨.free fun _ => by simp [init, PC.inRead], fun _ => ⟨rfl, .nil⟩, fun _ => trivial, le_rfl,
    fun h => absurd rfl h⟩

/-- **Input is neither lost nor doubled.**  In every state of every run in which `Read` is called
with room for a character: the `Read`s that are over, in the order in which they obtained
`RLineBlock`, have taken consecutive pieces of the input without its bytes `0xFF`; what is left of
it is what the one thread in the loop of `Read` (the next in that order, when there is one) has
stored, the buffer of the keyboard, and what the keyboard has not delivered; and a character in the
buffer is counted by `synchReadAvail` or about to be taken. -/
theorem read_serial (h : Steps step ReadsSome (init input) s) :
    (∃ cur dst, s.reads = (s.lines.map fun l => (l.thread, l.numBytes)) ++ cur ∧
      Serial (text input) s.lines (dst ++ s.buffered ++ text s.stream) ∧
      (((∀ t, (s.pc t).inRead = false) ∧ cur = [] ∧ dst = []) ∨
        ∃ t numBytes ch, cur = [(t, numBytes)] ∧ (∀ u, (s.pc u).inRead = true → u = t) ∧
          (s.pc t = .readNext numBytes dst ch ∨ s.pc t = .readChar numBytes dst ∨
            s.pc t = .readGet numBytes dst))) ∧
    (s.incoming ≠ EOF → 0 < s.value .synchReadAvail ∨ ∃ t n dst, s.pc t = .readGet n dst) := by
  have hI : ReadInv input s := h.inv (init_read input) fun _ _ _ hI ha hok => step_read hI ha hok
  refine ⟨?_, hI.avail⟩
  by_cases hn : ∀ t, (s.pc t).inRead = false
  · obtain ⟨h₁, h₂⟩ := hI.free hn
    exact ⟨[], [], by rw [h₁, List.append_nil], h₂, .inl ⟨hn, rfl, rfl⟩⟩
  push Not at hn
  obtain ⟨t, ht⟩ := hn
  have ht' : (s.pc t).inRead = true := by simpa using ht
  have hu : ∀ u, (s.pc u).inRead = true → u = t := fun u hu => hI.lock.unique ht' hu
  have hok := hI.holder t
  cases hpc : s.pc t with
  | readNext n dst ch =>
      rw [hpc] at hok
      obtain ⟨-, -, h₁, h₂⟩ := hok
      exact ⟨_, dst, h₁, h₂, .inr ⟨t, n, ch, rfl, hu, .inl hpc⟩⟩
  | readChar n dst =>
      rw [hpc] at hok
      obtain ⟨-, -, h₁, h₂⟩ := hok
      exact ⟨_, dst, h₁, h₂, .inr ⟨t, n, 0, rfl, hu, .inr (.inl hpc)⟩⟩
  | readGet n dst =>
      rw [hpc] at hok
      obtain ⟨-, -, h₁, h₂⟩ := hok
      exact ⟨_, dst, h₁, h₂, .inr ⟨t, n, 0, rfl, hu, .inr (.inr hpc)⟩⟩
  | _ => rw [hpc] at ht'; cases ht'

end

/-- Two readers in front of an input that begins with a `0xFF`. -/
def twoReaders : List Action :=
  [.read 0 5 0, .resume 0, .read 1 1 0, .checkCharAvail true, .resume 0, .resume 0,
    .checkCharAvail true, .resume 0, .resume 0, .checkCharAvail true, .resume 0, .resume 0,
    .resume 1, .resume 1, .checkCharAvail true, .resume 1, .resume 1]

/-- The first takes a line of one character, the second the Ctrl-A behind it. -/
theorem read_serial_two : ∃ s,
    run step ReadsSome (init [0xFF, 0x61, 0x0A, 0x01]) twoReaders = some s ∧
    s.lines = [⟨0, 5, [0x61], 1⟩, ⟨1, 1, [], -1⟩] ∧
    ∃ cur dst, s.reads = [(0, 5), (1, 1)] ++ cur ∧
      Serial [0x61, 0x0A, 0x01] s.lines (dst ++ s.buffered ++ text s.stream) := by
  obtain ⟨s, hs, hp⟩ := (Option.any_eq_true ..).mp (show (run step ReadsSome
    (init [0xFF, 0x61, 0x0A, 0x01]) twoReaders).any
      (fun s => s.lines = [⟨0, 5, [0x61], 1⟩, ⟨1, 1, [], -1⟩]) = true by decide +kernel)
  have hl := of_decide_eq_true hp
  obtain ⟨⟨cur, dst, h₁, h₂, -⟩, -⟩ := read_serial (Steps.of_run hs)
  rw [hl] at h₁
  exact ⟨s, hs, hl, cur, dst, h₁, h₂⟩

end Nachos.SynchConsole
