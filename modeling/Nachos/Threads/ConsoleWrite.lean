import Nachos.Lib.Lock
import Nachos.Threads.SynchConsole

/-!
# Threads — Write is atomic

`WLineBlock` lets one writer at a time into the loop of `Write`, and `synchWriteAvail` keeps it
there from each `PutChar` to the interrupt that ends it.  `WriteInv` says how lock, counter and
device stand to each other; what has been sent is then one buffer after the other.
-/

namespace Nachos.SynchConsole
open Lib

/-- In the loop of `Write`, between `WLineBlock->P()` and `WLineBlock->V()`. -/
def PC.inWrite : PC → Bool
  | writeNext _ _ _ | writeChar _ _ _ => true
  | _ => false

/-- No character is on its way, and none has departed that nobody has waited for. -/
def Quiet (s : State) : Prop :=
  s.putBusy = false ∧ s.pending = 0 ∧ s.value .synchWriteAvail = 0

/-- A character is on its way, or has departed. -/
def Put (s : State) : Prop :=
  (s.putBusy = true ∧ s.pending = 1 ∧ s.value .synchWriteAvail = 0) ∨
    (s.putBusy = false ∧ s.pending = 0 ∧ s.value .synchWriteAvail = 1)

/-- The display has received all buffers but the last, and of this the first `k` bytes. -/
def Sent (s : State) (buf : List Byte) (k : Nat) : Prop :=
  ∃ done, s.writes = done ++ [buf] ∧ s.sent = done.flatten ++ buf.take k

/-- What a thread in the loop of `Write` knows at its place. -/
def WriteOk (s : State) : PC → Prop
  | .writeNext src numBytes loop => Quiet s ∧ Sent s (buffer src numBytes) loop
  | .writeChar src numBytes loop => Put s ∧ Sent s (buffer src numBytes) (loop + 1)
  | _ => True

structure WriteInv (s : State) : Prop where
  lock : Lock (fun t => (s.pc t).inWrite = true) (s.value .WLineBlock)
  free : (∀ t, (s.pc t).inWrite = false) → Quiet s ∧ s.sent = s.writes.flatten
  holder : ∀ t, WriteOk s (s.pc t)

section
variable {s s' : State} {t u : Tid}

/-- Two states that show a writer the same device. -/
structure SameWrite (s s' : State) : Prop where
  lock : s'.value .WLineBlock = s.value .WLineBlock
  avail : s'.value .synchWriteAvail = s.value .synchWriteAvail
  device : s'.putBusy = s.putBusy ∧ s'.pending = s.pending
  sent : s'.sent = s.sent ∧ s'.writes = s.writes

theorem SameWrite.quiet (h : SameWrite s s') (hq : Quiet s) : Quiet s' := by
  unfold Quiet at hq ⊢
  rw [h.device.1, h.device.2, h.avail]
  exact hq

theorem SameWrite.put (h : SameWrite s s') (hp : Put s) : Put s' := by
  unfold Put at hp ⊢
  rw [h.device.1, h.device.2, h.avail]
  exact hp

theorem SameWrite.writeOk (h : SameWrite s s') {pc : PC} (ho : WriteOk s pc) : WriteOk s' pc := by
  have hs : ∀ {buf k}, Sent s buf k → Sent s' buf k := fun hs => by
    unfold Sent at hs ⊢
    rw [h.sent.1, h.sent.2]
    exact hs
  cases pc with
  | writeNext src n loop => exact ⟨h.quiet ho.1, hs ho.2⟩
  | writeChar src n loop => exact ⟨h.put ho.1, hs ho.2⟩
  | _ => trivial

theorem writeOk_outside {pc : PC} (h : pc.inWrite = false) : WriteOk s pc := by
  cases pc <;> trivial

/-- A step outside the loop of `Write`. -/
theorem WriteInv.outside {q : PC} (h : WriteInv s) (hpc : s'.pc = Function.update s.pc t q)
    (hs : SameWrite s s') (ht : (s.pc t).inWrite = false) (hq : q.inWrite = false) :
    WriteInv s' := by
  have hin : ∀ u, (s'.pc u).inWrite = (s.pc u).inWrite := fun u => by
    rw [hpc]
    by_cases e : u = t
    · rw [e, Function.update_self, ht, hq]
    · rw [Function.update_of_ne e]
  refine ⟨hs.lock ▸ h.lock.congr fun u => by rw [hin], fun hn => ?_, fun u => ?_⟩
  · obtain ⟨h₁, h₂⟩ := h.free fun u => by rw [← hin]; exact hn u
    exact ⟨hs.quiet h₁, by rw [hs.sent.1, hs.sent.2, h₂]⟩
  · rw [hpc]
    by_cases e : u = t
    · rw [e, Function.update_self]
      exact writeOk_outside hq
    · rw [Function.update_of_ne e]
      exact hs.writeOk (h.holder u)

/-- A step that moves nobody. -/
theorem WriteInv.congr (h : WriteInv s) (hpc : s'.pc = s.pc) (hs : SameWrite s s') :
    WriteInv s' := by
  refine ⟨hs.lock ▸ hpc ▸ h.lock, fun hn => ?_, fun u => hpc ▸ hs.writeOk (h.holder u)⟩
  obtain ⟨h₁, h₂⟩ := h.free (hpc ▸ hn)
  exact ⟨hs.quiet h₁, by rw [hs.sent.1, hs.sent.2, h₂]⟩

/-- A step of the writer that has the lock. -/
theorem WriteInv.inside {q : PC} (h : WriteInv s) (hpc : s'.pc = Function.update s.pc t q)
    (hlock : s'.value .WLineBlock = s.value .WLineBlock) (ht : (s.pc t).inWrite = true)
    (hq : q.inWrite = true) (hok : WriteOk s' q) : WriteInv s' := by
  have hin : ∀ u, (s'.pc u).inWrite = (s.pc u).inWrite := fun u => by
    rw [hpc]
    by_cases e : u = t
    · rw [e, Function.update_self, ht, hq]
    · rw [Function.update_of_ne e]
  refine ⟨hlock ▸ h.lock.congr fun u => by rw [hin], fun hn => ?_, fun u => ?_⟩
  · have := hn t
    rw [hin, ht] at this
    cases this
  · rw [hpc]
    by_cases e : u = t
    · rw [e, Function.update_self]; exact hok
    · rw [Function.update_of_ne e]
      refine writeOk_outside ?_
      by_contra hu
      exact e (h.lock.unique ht ((Bool.not_eq_false _).mp hu))

/-- `P`, in any place. -/
theorem WriteInv.P (h : WriteInv s) : WriteInv (s.P t) := by
  cases hpc : s.pc t with
  | writeLine src n =>
      rcases P_cases (s := s) (t := t) (r := .WLineBlock) (by rw [hpc]; rfl) with
        ⟨-, y, hy, e⟩ | ⟨hv, y, hy, hy', e⟩
      · rw [e]; exact h.congr rfl ⟨hy _, hy _, ⟨rfl, rfl⟩, ⟨rfl, rfl⟩⟩
      · -- nobody has the lock, so the device is quiet and every buffer has been sent
        obtain ⟨-, hno⟩ := h.lock.empty_of_value hv
        obtain ⟨⟨h₁, h₂, h₃⟩, hsent⟩ := h.free fun u => by simpa using hno u
        rw [e, hpc]
        refine ⟨?_, fun hn => ?_, fun u => ?_⟩
        · show Lock _ (y.sems .WLineBlock).value
          rw [hy]
          refine h.lock.enter (t := t) hv (by rw [goto_pc_self]; rfl) fun u hu hin => ?_
          rwa [goto_pc_ne _ _ hu] at hin
        · have := hn t
          rw [goto_pc_self] at this
          cases this
        · by_cases eu : u = t
          · rw [eu, goto_pc_self]
            refine ⟨⟨h₁, h₂, ?_⟩, s.writes, rfl, ?_⟩
            · exact (hy' .synchWriteAvail (by decide)).trans h₃
            · rw [List.take_zero, List.append_nil]; exact hsent
          · rw [goto_pc_ne _ _ eu]
            exact writeOk_outside ((Bool.not_eq_true _).mp (hno u))
  | writeChar src n loop =>
      have hok := h.holder t
      rw [hpc] at hok
      rcases P_cases (s := s) (t := t) (r := .synchWriteAvail) (by rw [hpc]; rfl) with
        ⟨-, y, hy, e⟩ | ⟨hv, y, hy, hy', e⟩
      · rw [e]; exact h.congr rfl ⟨hy _, hy _, ⟨rfl, rfl⟩, ⟨rfl, rfl⟩⟩
      · rw [e, hpc]
        refine h.inside (q := .writeNext src n (loop + 1)) rfl (hy' _ (by decide))
          (by rw [hpc]; rfl) rfl ⟨?_, hok.2⟩
        rcases hok.1 with ⟨-, -, h0⟩ | ⟨h₁, h₂, h₃⟩
        · exact absurd h0 hv
        · exact ⟨h₁, h₂, hy.trans (by rw [h₃]; rfl)⟩
  | readLine n ch =>
      rcases P_cases (s := s) (t := t) (r := .RLineBlock) (by rw [hpc]; rfl) with
        ⟨-, y, hy, e⟩ | ⟨-, y, -, hy', e⟩
      · rw [e]; exact h.congr rfl ⟨hy _, hy _, ⟨rfl, rfl⟩, ⟨rfl, rfl⟩⟩
      · rw [e, hpc]
        exact h.outside (q := .readNext n [] ch) rfl
          ⟨hy' _ (by decide), hy' _ (by decide), ⟨rfl, rfl⟩, ⟨rfl, rfl⟩⟩ (by rw [hpc]; rfl) rfl
  | readChar n dst =>
      rcases P_cases (s := s) (t := t) (r := .synchReadAvail) (by rw [hpc]; rfl) with
        ⟨-, y, hy, e⟩ | ⟨-, y, -, hy', e⟩
      · rw [e]; exact h.congr rfl ⟨hy _, hy _, ⟨rfl, rfl⟩, ⟨rfl, rfl⟩⟩
      · rw [e, hpc]
        exact h.outside (q := .readGet n dst) rfl
          ⟨hy' _ (by decide), hy' _ (by decide), ⟨rfl, rfl⟩, ⟨rfl, rfl⟩⟩ (by rw [hpc]; rfl) rfl
  | _ =>
      have e : s.P t = s := by simp [State.P, hpc, PC.sem]
      rw [e]; exact h

/-! ### The steps -/

/-- The loop of `Write` goes on to the next character. -/
theorem WriteInv.putChar {src : List Byte} {n : Int} {loop : Nat} {ch : Byte} (h : WriteInv s)
    (hpc : s.pc t = .writeNext src n loop) (hlt : loop < n) (hch : src[loop]? = some ch) :
    ∃ s₁, s.putChar ch = .ok s₁ ∧ WriteInv (s₁.goto t (.writeChar src n loop)) := by
  obtain ⟨⟨h₁, h₂, h₃⟩, done, hw, hs⟩ : WriteOk s (.writeNext src n loop) := hpc ▸ h.holder t
  refine ⟨_, by rw [State.putChar, if_neg (by rw [h₁]; decide)], ?_⟩
  refine h.inside (q := .writeChar src n loop) rfl rfl (by rw [hpc]; rfl) rfl
    ⟨.inl ⟨rfl, ?_, h₃⟩, done, hw, ?_⟩
  · show s.pending + 1 = 1
    rw [h₂]
  · have hbuf : (buffer src n)[loop]? = some ch := by
      rw [buffer, List.getElem?_take_of_lt (by omega), hch]
    show s.sent ++ [ch] = done.flatten ++ (buffer src n).take (loop + 1)
    rw [hs, List.take_add_one, hbuf, List.append_assoc]
    rfl

/-- The loop of `Write` is over, and the lock is given up. -/
theorem WriteInv.release {src : List Byte} {n : Int} {loop : Nat} (h : WriteInv s)
    (hpc : s.pc t = .writeNext src n loop) (hge : ¬ loop < n) :
    WriteInv ((s.V .WLineBlock).goto t (.writeDone n)) := by
  obtain ⟨⟨h₁, h₂, h₃⟩, done, hw, hs⟩ : WriteOk s (.writeNext src n loop) := hpc ▸ h.holder t
  have ht : (s.pc t).inWrite = true := by rw [hpc]; rfl
  have hout : ∀ u, (((s.V .WLineBlock).goto t (.writeDone n)).pc u).inWrite = false := by
    intro u
    by_cases e : u = t
    · rw [e, goto_pc_self]; rfl
    · rw [goto_pc_ne _ _ e]
      by_contra hu
      exact e (h.lock.unique ht ((Bool.not_eq_false _).mp hu))
  refine ⟨?_, fun _ => ⟨⟨h₁, h₂, ?_⟩, ?_⟩, fun u => ?_⟩
  · have hlock : Lock (fun u => (((s.V .WLineBlock).goto t (.writeDone n)).pc u).inWrite = true)
        (s.value .WLineBlock + 1) :=
      h.lock.leave (t := t) ht (by simp only [hout]; simp)
        fun u _ hu => by simp only [hout] at hu; cases hu
    exact (V_value_self s .WLineBlock).symm ▸ hlock
  · exact (V_value_ne (by decide)).trans h₃
  · show s.sent = s.writes.flatten
    have hlen : (buffer src n).length ≤ loop := by
      rw [buffer, List.length_take]
      omega
    rw [hs, hw, List.take_of_length_le hlen, List.flatten_append, List.flatten_singleton]
  · exact writeOk_outside (hout u)

theorem WriteInv.readEnd {n : Int} {dst : List Byte} {ch : Byte} (h : WriteInv s)
    (ht : (s.pc t).inWrite = false) : WriteInv (s.readEnd t n dst ch) :=
  h.outside rfl ⟨V_value_ne (s := { s with lines := _ }) (by decide),
    V_value_ne (s := { s with lines := _ }) (by decide), ⟨rfl, rfl⟩, ⟨rfl, rfl⟩⟩ ht rfl

theorem WriteInv.readNext {n : Int} {dst : List Byte} {ch : Byte} (h : WriteInv s)
    (ht : (s.pc t).inWrite = false) : WriteInv (s.readNext t n dst ch) := by
  unfold State.readNext
  split
  · have hg : WriteInv (s.goto t (.readChar n dst)) :=
      h.outside rfl ⟨rfl, rfl, ⟨rfl, rfl⟩, ⟨rfl, rfl⟩⟩ ht rfl
    exact hg.P
  · exact h.readEnd ht

theorem WriteInv.readGet {n : Int} {dst : List Byte} (h : WriteInv s)
    (ht : (s.pc t).inWrite = false) : WriteInv (s.readGet t n dst) := by
  have h' : WriteInv { s with incoming := EOF } :=
    h.congr rfl ⟨rfl, rfl, ⟨rfl, rfl⟩, ⟨rfl, rfl⟩⟩
  unfold State.readGet State.getChar
  dsimp only
  split
  · have hg : WriteInv ({ s with incoming := EOF }.goto t (.readChar n dst)) :=
      h'.outside rfl ⟨rfl, rfl, ⟨rfl, rfl⟩, ⟨rfl, rfl⟩⟩ ht rfl
    exact hg.P
  · split
    · exact h'.readEnd ht
    · exact h'.readNext ht

/-- The interrupt comes for the character a writer has put. -/
theorem WriteInv.writeDone (h : WriteInv s) (hp : 0 < s.pending) :
    WriteInv { s with pending := s.pending - 1 }.writeDone := by
  have hbusy : ∀ t src n loop, s.pc t = .writeChar src n loop → s.pending = 1 ∧
      s.value .synchWriteAvail = 0 := by
    intro t src n loop hpc
    obtain ⟨⟨-, h₁, h₂⟩ | ⟨-, h₀, -⟩, -⟩ : WriteOk s (.writeChar src n loop) := hpc ▸ h.holder t
    · exact ⟨h₁, h₂⟩
    · omega
  refine ⟨?_, fun hn => ?_, fun t => ?_⟩
  · exact (V_value_ne (s := { s with pending := _, putBusy := _ }) (r := .synchWriteAvail)
      (k := .WLineBlock) (by decide)).symm ▸ h.lock
  · obtain ⟨⟨-, h₀, -⟩, -⟩ := h.free hn
    omega
  · have hok := h.holder t
    show WriteOk _ (s.pc t)
    cases hpc : s.pc t with
    | writeNext src n loop =>
        rw [hpc] at hok
        obtain ⟨-, h₀, -⟩ := hok.1
        omega
    | writeChar src n loop =>
        rw [hpc] at hok
        obtain ⟨h₁, h₂⟩ := hbusy t src n loop hpc
        refine ⟨.inr ⟨rfl, by show s.pending - 1 = 0; omega, ?_⟩, hok.2⟩
        refine (V_value_self _ .synchWriteAvail).trans ?_
        show s.value .synchWriteAvail + 1 = 1
        rw [h₂]
        rfl
    | _ => trivial

/-- A step keeps the invariant, and no `ASSERT` of `PutChar` fails. -/
theorem resume_write (h : WriteInv s) :
    s.resume t ≠ .error .assertFails ∧ ∀ s', s.resume t = .ok s' → WriteInv s' := by
  have hok : ∀ {x : State}, WriteInv x → (Except.ok x : Except Stop State) ≠ .error .assertFails ∧
      ∀ s', (Except.ok x : Except Stop State) = .ok s' → WriteInv s' := fun hx =>
    ⟨by simp, fun _ e => by cases e; exact hx⟩
  have hmove : ∀ {q}, (s.pc t).inWrite = false → q.inWrite = false → WriteInv (s.goto t q) :=
    fun h₁ h₂ => h.outside rfl ⟨rfl, rfl, ⟨rfl, rfl⟩, ⟨rfl, rfl⟩⟩ h₁ h₂
  unfold State.resume
  cases hpc : s.pc t with
  | writeLine | writeChar | readLine | readChar => exact hok h.P
  | writeDone | readDone => exact hok (hmove (by rw [hpc]; rfl) rfl)
  | readNext => exact hok (h.readNext (by rw [hpc]; rfl))
  | readGet => exact hok (h.readGet (by rw [hpc]; rfl))
  | idle => simp
  | writeNext src n loop =>
      dsimp only [State.writeNext]
      split
      · rename_i hlt
        split
        · simp
        · rename_i ch hch
          obtain ⟨s₁, hs₁, h₁⟩ := h.putChar hpc hlt hch
          rw [hs₁]
          exact hok h₁.P
      · rename_i hge
        exact hok (h.release hpc hge)

theorem step_write {a : Action} (h : WriteInv s) (hok : step s a = .ok s') : WriteInv s' := by
  have hmove : ∀ {t q}, s.pc t = .idle → q.inWrite = false → WriteInv (s.goto t q) :=
    fun h₁ h₂ => h.outside rfl ⟨rfl, rfl, ⟨rfl, rfl⟩, ⟨rfl, rfl⟩⟩ (by rw [h₁]; rfl) h₂
  cases a with
  | write t src n | read t n ch =>
      simp only [step] at hok
      split at hok
      · rename_i hg; cases hok; exact (hmove hg.2 rfl).P
      · cases hok
  | resume t =>
      simp only [step] at hok
      split at hok
      · exact (resume_write h).2 s' hok
      · cases hok
  | writeDone =>
      simp only [step] at hok
      split at hok
      · rename_i hg; cases hok; exact h.writeDone hg
      · cases hok
  | checkCharAvail avail =>
      simp only [step, State.checkCharAvail] at hok
      split at hok
      · cases hok; exact h
      split at hok
      · cases hok
      · cases hok
        exact h.congr rfl ⟨V_value_ne (s := { s with incoming := _, stream := _ }) (by decide),
          V_value_ne (s := { s with incoming := _, stream := _ }) (by decide), ⟨rfl, rfl⟩,
          ⟨rfl, rfl⟩⟩

theorem init_write (stream : List Byte) : WriteInv (init stream) :=
  ⟨.free fun _ => by simp [init, PC.inWrite], fun _ => ⟨⟨rfl, rfl, rfl⟩, rfl⟩, fun _ => trivial⟩

/-- **Output is atomic per `Write`.**  In every state of every run: the `ASSERT` of `PutChar` does
not fail in the next step of any thread; and the display has received the buffers of the writers in
the order in which they obtained `WLineBlock`, all of them complete when nobody is in the loop of
`Write`, and otherwise the last one, that of the one thread in the loop, up to some byte. -/
theorem write_atomic {stream : List Byte} (h : Steps step always (init stream) s) :
    (∀ t, step s (.resume t) ≠ .error .assertFails) ∧
    (((∀ t, (s.pc t).inWrite = false) ∧ s.sent = s.writes.flatten) ∨
      ∃ t src numBytes loop done pre,
        (s.pc t = .writeNext src numBytes loop ∨ s.pc t = .writeChar src numBytes loop) ∧
        (∀ u, (s.pc u).inWrite = true → u = t) ∧ s.writes = done ++ [buffer src numBytes] ∧
        pre <+: buffer src numBytes ∧ s.sent = done.flatten ++ pre) := by
  have hI : WriteInv s := h.inv (init_write stream) fun _ _ _ hI _ hok => step_write hI hok
  refine ⟨fun t => ?_, ?_⟩
  · simp only [step]
    split
    · exact (resume_write hI).1
    · simp
  · by_cases hn : ∀ t, (s.pc t).inWrite = false
    · exact .inl ⟨hn, (hI.free hn).2⟩
    · push Not at hn
      obtain ⟨t, ht⟩ := hn
      have ht' : (s.pc t).inWrite = true := by simpa using ht
      have hu : ∀ u, (s.pc u).inWrite = true → u = t := fun u hu => hI.lock.unique ht' hu
      have hok := hI.holder t
      cases hpc : s.pc t with
      | writeNext src n loop =>
          rw [hpc] at hok
          obtain ⟨-, done, hw, hs⟩ := hok
          exact .inr ⟨t, src, n, loop, done, _, .inl hpc, hu, hw, List.take_prefix _ _, hs⟩
      | writeChar src n loop =>
          rw [hpc] at hok
          obtain ⟨-, done, hw, hs⟩ := hok
          exact .inr ⟨t, src, n, loop, done, _, .inr hpc, hu, hw, List.take_prefix _ _, hs⟩
      | _ => rw [hpc] at ht'; cases ht'

end

/-- Two writers: while the first is at its second character, the second waits for the line. -/
theorem write_atomic_two : ∃ s,
    run step always (init []) [.write 0 [97, 98] 2, .write 1 [99] 1, .resume 0, .writeDone,
      .resume 0, .resume 0] = some s ∧ s.sent = [97, 98] ∧
      (∀ t, step s (.resume t) ≠ .error .assertFails) ∧ ¬ ∀ t, (s.pc t).inWrite = false := by
  obtain ⟨s, hs, hp⟩ := (Option.any_eq_true ..).mp (show (run step always (init [])
    [.write 0 [97, 98] 2, .write 1 [99] 1, .resume 0, .writeDone, .resume 0, .resume 0]).any
      (fun s => s.sent = [97, 98] ∧ (s.pc 0).inWrite = true) = true by decide +kernel)
  obtain ⟨h₁, h₂⟩ := of_decide_eq_true hp
  refine ⟨s, hs, h₁, (write_atomic (Steps.of_run hs)).1, fun hn => ?_⟩
  rw [hn 0] at h₂
  cases h₂

end Nachos.SynchConsole
