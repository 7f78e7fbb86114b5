import Mathlib.Algebra.Ring.Int.Defs
import Nachos.Filesys.Disk
import Nachos.Lib.Runs
import Nachos.Userprog.AddrSpace

/-!
# Machine — DiskTime

How long the disk takes (machine/disk.cc).  The surface turns by a sector in `RotationTime`, so in
the turn number `k`, from `k * RotationTime` on, the sectors number `k` modulo `SectorsPerTrack` pass
under the head; `head` says from the requests alone over which track it is, and since when.  The code
works with `lastSector` and `bufferInit` instead, and lets the track buffer answer a `ReadRequest`.

A request comes while no other is active, and its interrupt when it is due or later; `requests` are
those there have been.  The clock and all times are `int`s, and wrap (`asInt`); no request takes as
long as `MaxLatency`, so that nothing wraps while the clock stays so much below `2 ^ 31` (`InTime`).
-/

namespace Nachos.DiskTime
open Lib

def RotationTime : Int := 500
def SeekTime : Int := 500

/-- A request, with the time of the clock when it is made, and for which its interrupt is
scheduled. -/
structure Request where
  sectorNumber : Int
  writing : Bool
  issued : Int
  done : Int
  deriving DecidableEq

/-- The `Disk`, and the clock. -/
structure State where
  lastSector : Int
  bufferInit : Int
  active : Bool
  totalTicks : Int
  requests : List Request
  deriving DecidableEq

namespace State

/-- `Disk::Disk`. -/
def new : State where
  lastSector := 0
  bufferInit := 0
  active := false
  totalTicks := 0
  requests := []

/-- `Disk::TimeToSeek`: how long, and `*rotation`. -/
def TimeToSeek (s : State) (newSector : Int) : Int × Int :=
  let newTrack := newSector.tdiv SectorsPerTrack
  let oldTrack := s.lastSector.tdiv SectorsPerTrack
  let seek := asInt ((newTrack - oldTrack).natAbs * SeekTime)
  let over' := (asInt (s.totalTicks + seek)).tmod RotationTime
  (seek, if 0 < over' then RotationTime - over' else 0)

/-- `Disk::ModuloDiff`. -/
def ModuloDiff (to' fro : Int) : Int :=
  let toOffset := to'.tmod SectorsPerTrack
  let fromOffset := fro.tmod SectorsPerTrack
  ((toOffset - fromOffset) + SectorsPerTrack).tmod SectorsPerTrack

/-- `Disk::ComputeLatency`. -/
def ComputeLatency (s : State) (newSector : Int) (writing : Bool) : Int :=
  let (seek, rotation) := s.TimeToSeek newSector
  let timeAfter := asInt (s.totalTicks + seek + rotation)
  if writing = false ∧ seek = 0 ∧
      ModuloDiff newSector (s.bufferInit.tdiv RotationTime) <
        (asInt (timeAfter - s.bufferInit)).tdiv RotationTime then
    RotationTime
  else
    let rotation := rotation + ModuloDiff newSector (timeAfter.tdiv RotationTime) * RotationTime
    asInt (seek + rotation + RotationTime)

/-- `Disk::UpdateLast`. -/
def UpdateLast (s : State) (newSector : Int) : State :=
  let (seek, rotate) := s.TimeToSeek newSector
  { s with
    bufferInit := if seek ≠ 0 then asInt (s.totalTicks + seek + rotate) else s.bufferInit
    lastSector := newSector }

/-- `Disk::ReadRequest` and `Disk::WriteRequest`, with `Interrupt::Schedule`. -/
def request (s : State) (sectorNumber : Int) (writing : Bool) : Except Stop State :=
  let ticks := s.ComputeLatency sectorNumber writing
  if s.active then .error .assertFails
  else if ¬ (0 ≤ sectorNumber ∧ sectorNumber < NumSectors) then .error .assertFails
  -- the `ASSERT` of `Schedule`
  else if ¬ 0 < ticks then .error .assertFails
  else
    let when := asInt (s.totalTicks + ticks)
    .ok { s.UpdateLast sectorNumber with
      active := true
      requests := s.requests ++ [⟨sectorNumber, writing, s.totalTicks, when⟩] }

end State

inductive Action where
  /-- The clock goes on. -/
  | ticks (n : Nat)
  | request (sectorNumber : Int) (writing : Bool)
  /-- `Disk::HandleInterrupt`, for the last request. -/
  | interrupt

/-- One action.  An interrupt does not come before it is due. -/
def step (s : State) : Action → Except Stop State
  | .ticks n => .ok { s with totalTicks := asInt (s.totalTicks + n) }
  | .request sectorNumber writing => s.request sectorNumber writing
  | .interrupt =>
      match s.active, s.requests.getLast? with
      | true, some r =>
          if r.done ≤ s.totalTicks then .ok { s with active := false } else .error .disabled
      | _, _ => .error .disabled

/-- A seek over all tracks, a turn to its end, and a whole round. -/
def MaxLatency : Int := NumTracks * SeekTime + (1 + SectorsPerTrack) * RotationTime

/-- The clock stays clear of its end. -/
def InTime (s : State) : Action → Prop
  | .ticks n => s.totalTicks + n + MaxLatency < 2 ^ 31
  | _ => True

instance (s : State) : (a : Action) → Decidable (InTime s a)
  | .ticks n => inferInstanceAs (Decidable (s.totalTicks + n + MaxLatency < 2 ^ 31))
  | .request _ _ => inferInstanceAs (Decidable True)
  | .interrupt => inferInstanceAs (Decidable True)

/-! ### The head -/

/-- The head is over a track, or on its way there, and arrives at a time. -/
structure Head where
  track : Int
  since : Int

/-- A request sends the head to its track. -/
def Head.seek (h : Head) (r : Request) : Head :=
  let track := r.sectorNumber / SectorsPerTrack
  if track = h.track then h else ⟨track, r.issued + (track - h.track).natAbs * SeekTime⟩

/-- Where the requests have sent the head. -/
def head (l : List Request) : Head := l.foldl Head.seek ⟨0, 0⟩

/-- In the turn `k` the sector passes under the head that is over its track since `since`. -/
def PassesIn (sectorNumber since k : Int) : Prop :=
  k % SectorsPerTrack = sectorNumber % SectorsPerTrack ∧ since ≤ k * RotationTime

/-- **What is expected of the request `r` behind those of `l`.** -/
structure Served (l : List Request) (r : Request) : Prop where
  /-- No request is active any more. -/
  free : ∀ r' ∈ l, r'.done ≤ r.issued
  /-- When it is done, the sector has passed under the head; a sector that is written does so after
  the request. -/
  passed : ∃ k, PassesIn r.sectorNumber (head (l ++ [r])).since k ∧ (k + 1) * RotationTime ≤ r.done ∧
    (r.writing = true → r.issued ≤ k * RotationTime)
  /-- It is done at the latest when the sector next passes. -/
  next : ∀ k, PassesIn r.sectorNumber (head (l ++ [r])).since k → r.issued ≤ k * RotationTime →
    r.done ≤ (k + 1) * RotationTime
  /-- A sector that is in the track buffer is read in the time of its transfer. -/
  buffered : r.writing = false → (∃ k, PassesIn r.sectorNumber (head (l ++ [r])).since k ∧
    (k + 1) * RotationTime ≤ r.issued) → r.done = r.issued + RotationTime

/-! ### Times -/

/-- The start of the next turn. -/
def nextTurn (t : Int) : Int := (t + 499) / 500

/-- How long the head moves. -/
def seekTime (s : State) (newSector : Int) : Int :=
  (newSector / 32 - s.lastSector / 32).natAbs * 500

section
variable {s s' : State} {n : Int} {l : List Request} {r : Request}

/-- What is so of the clock and the head, for the next request to be in time. -/
structure Timely (s : State) : Prop where
  time : 0 ≤ s.totalTicks
  early : s.totalTicks + MaxLatency < 2 ^ 31
  sector : 0 ≤ s.lastSector ∧ s.lastSector < NumSectors

theorem MaxLatency_eq : MaxLatency = 32500 := rfl

theorem seekTime_le (hs : Timely s) (hn : 0 ≤ n ∧ n < NumSectors) :
    0 ≤ seekTime s n ∧ seekTime s n ≤ 15500 := by
  obtain ⟨h₁, h₂⟩ := hs.sector
  obtain ⟨hn₁, hn₂⟩ := hn
  rw [show (NumSectors : Int) = 1024 from rfl] at h₂ hn₂
  unfold seekTime
  omega

theorem TimeToSeek_eq (hs : Timely s) (hn : 0 ≤ n ∧ n < NumSectors) :
    s.TimeToSeek n = (seekTime s n,
      nextTurn (s.totalTicks + seekTime s n) * 500 - (s.totalTicks + seekTime s n)) := by
  obtain ⟨h₁, h₂⟩ := seekTime_le hs hn
  have ht := hs.time
  have hearly := hs.early
  rw [MaxLatency_eq] at hearly
  have hseek : asInt ((n.tdiv SectorsPerTrack - s.lastSector.tdiv SectorsPerTrack).natAbs * SeekTime) =
      seekTime s n := by
    rw [Int.tdiv_eq_ediv_of_nonneg hn.1, Int.tdiv_eq_ediv_of_nonneg hs.sector.1]
    exact asInt_eq (show _ ≤ seekTime s n by omega) (show seekTime s n < _ by omega)
  unfold State.TimeToSeek
  dsimp only
  rw [hseek, asInt_eq (by omega) (by omega), Int.tmod_eq_emod_of_nonneg (by omega)]
  unfold nextTurn RotationTime
  congr 1
  split <;> omega

theorem ModuloDiff_eq {a b : Int} (ha : 0 ≤ a) (hb : 0 ≤ b) : State.ModuloDiff a b = (a - b) % 32 := by
  unfold State.ModuloDiff
  dsimp only
  rw [Int.tmod_eq_emod_of_nonneg ha, Int.tmod_eq_emod_of_nonneg hb,
    show (SectorsPerTrack : Int) = 32 from rfl, Int.tmod_eq_emod_of_nonneg (by omega)]
  omega

/-- When a request is done. -/
theorem ComputeLatency_eq (hs : Timely s) (hn : 0 ≤ n ∧ n < NumSectors) (hb : 0 ≤ s.bufferInit)
    (hle : s.bufferInit ≤ s.totalTicks) (writing : Bool) {a : Int}
    (ha : a = nextTurn (s.totalTicks + seekTime s n)) :
    asInt (s.totalTicks + s.ComputeLatency n writing) =
      if writing = false ∧ seekTime s n = 0 ∧
          (n - s.bufferInit / 500) % 32 < (a * 500 - s.bufferInit) / 500 then s.totalTicks + 500
      else (a + (n - a) % 32 + 1) * 500 := by
  obtain ⟨hseek, hseek'⟩ := seekTime_le hs hn
  have ht := hs.time
  have hearly := hs.early
  rw [MaxLatency_eq] at hearly
  unfold nextTurn at ha
  have hafter : s.totalTicks + seekTime s n +
      (a * 500 - (s.totalTicks + seekTime s n)) = a * 500 := by omega
  unfold State.ComputeLatency
  rw [TimeToSeek_eq hs hn]
  unfold nextTurn
  rw [← ha]
  dsimp only
  unfold RotationTime
  rw [hafter, asInt_eq (i := a * 500) (by omega) (by omega),
    asInt_eq (i := a * 500 - s.bufferInit) (by omega) (by omega),
    Int.tdiv_eq_ediv_of_nonneg hb, Int.tdiv_eq_ediv_of_nonneg (by omega : 0 ≤ a * 500 - s.bufferInit),
    Int.tdiv_eq_ediv_of_nonneg (by omega : 0 ≤ a * 500), Int.mul_ediv_cancel _ (by decide),
    ModuloDiff_eq hn.1 (by omega), ModuloDiff_eq hn.1 (by omega)]
  split
  · exact asInt_eq (by omega) (by omega)
  · rw [asInt_eq (i := seekTime s n + _ + 500) (by omega) (by omega), asInt_eq (by omega) (by omega)]
    omega

/-! ### Every request -/

/-- **What holds between the steps.** -/
structure Inv (s : State) : Prop where
  timely : Timely s
  track : (head s.requests).track = s.lastSector / 32
  since : 0 ≤ (head s.requests).since
  buffer : s.bufferInit = nextTurn (head s.requests).since * 500
  idle : s.active = false → s.bufferInit ≤ s.totalTicks ∧ ∀ r ∈ s.requests, r.done ≤ s.totalTicks
  busy : s.active = true → ∃ l r, s.requests = l ++ [r] ∧ s.bufferInit ≤ r.done ∧
    ∀ r' ∈ l, r'.done ≤ r.done
  served : ∀ l r, l ++ [r] <+: s.requests → Served l r

theorem head_snoc (l : List Request) (r : Request) : head (l ++ [r]) = (head l).seek r := by
  rw [head, List.foldl_append]
  rfl

/-- The head behind a request. -/
theorem Inv.head_request (hi : Inv s) (hr : r = ⟨n, r.writing, s.totalTicks, r.done⟩) :
    (head (s.requests ++ [r])).track = n / 32 ∧
    (head (s.requests ++ [r])).since =
      if seekTime s n = 0 then (head s.requests).since else s.totalTicks + seekTime s n := by
  rw [head_snoc, Head.seek, hr]
  dsimp only
  rw [show (SectorsPerTrack : Int) = 32 from rfl, hi.track]
  unfold seekTime SeekTime
  by_cases h : n / 32 = s.lastSector / 32
  · rw [if_pos h, if_pos (by omega)]
    exact ⟨hi.track.trans h.symm, rfl⟩
  · rw [if_neg h, if_neg (by omega)]
    exact ⟨rfl, rfl⟩

/-- **A request that is accepted is served.** -/
theorem Inv.request_served (hi : Inv s) (hactive : s.active = false) (hn : 0 ≤ n ∧ n < NumSectors)
    (writing : Bool) :
    Served s.requests ⟨n, writing, s.totalTicks, asInt (s.totalTicks + s.ComputeLatency n writing)⟩ := by
  obtain ⟨hle, hdone⟩ := hi.idle hactive
  have hsince := hi.since
  have hbuffer := hi.buffer
  obtain ⟨hseek, -⟩ := seekTime_le hi.timely hn
  obtain ⟨a, ha⟩ : ∃ a, a = nextTurn (s.totalTicks + seekTime s n) := ⟨_, rfl⟩
  have hlatency := ComputeLatency_eq hi.timely hn (by unfold nextTurn at hbuffer; omega) hle writing ha
  obtain ⟨-, hhead⟩ := hi.head_request (r := ⟨n, writing, s.totalTicks,
    asInt (s.totalTicks + s.ComputeLatency n writing)⟩) rfl
  generalize asInt (s.totalTicks + s.ComputeLatency n writing) = d at *
  unfold nextTurn at ha hbuffer
  refine ⟨hdone, ?_, ?_, ?_⟩
  all_goals
    unfold PassesIn RotationTime
    dsimp only at *
    rw [hhead, show (SectorsPerTrack : Int) = 32 from rfl]
  · -- the turn is that of the buffer, or the next one
    by_cases hbuf : writing = false ∧ seekTime s n = 0 ∧
        (n - s.bufferInit / 500) % 32 < (a * 500 - s.bufferInit) / 500
    · obtain ⟨hread, hzero, hin⟩ := hbuf
      rw [if_pos ⟨hread, hzero, hin⟩] at hlatency
      rw [if_pos hzero]
      refine ⟨s.bufferInit / 500 + (n - s.bufferInit / 500) % 32, ⟨by omega, by omega⟩, by omega,
        fun h => ?_⟩
      rw [hread] at h
      cases h
    · rw [if_neg hbuf] at hlatency
      refine ⟨a + (n - a) % 32, ⟨by omega, ?_⟩, by omega, fun _ => by omega⟩
      split <;> omega
  · rintro k ⟨hk, hsincek⟩ hissued
    split at hlatency
    · omega
    · have hak : a ≤ k := by split at hsincek <;> omega
      omega
  · rintro hread ⟨k, ⟨hk, hsincek⟩, hpast⟩
    by_cases hzero : seekTime s n = 0
    · rw [if_pos hzero] at hsincek
      rw [if_pos ⟨hread, hzero, by omega⟩] at hlatency
      exact hlatency
    · rw [if_neg hzero] at hsincek
      omega

theorem UpdateLast_eq (hs : Timely s) (hn : 0 ≤ n ∧ n < NumSectors) :
    s.UpdateLast n = { s with
      bufferInit := if seekTime s n = 0 then s.bufferInit
        else nextTurn (s.totalTicks + seekTime s n) * 500
      lastSector := n } := by
  obtain ⟨h₁, h₂⟩ := seekTime_le hs hn
  have ht := hs.time
  have hearly := hs.early
  rw [MaxLatency_eq] at hearly
  unfold State.UpdateLast
  rw [TimeToSeek_eq hs hn]
  dsimp only
  congr 1
  by_cases h : seekTime s n = 0
  · rw [if_neg (not_not.mpr h), if_pos h]
  · unfold nextTurn
    rw [if_pos h, if_neg h, asInt_eq (by omega) (by omega)]
    omega

theorem Inv.request (hi : Inv s) (hactive : s.active = false) (hn : 0 ≤ n ∧ n < NumSectors)
    (writing : Bool) :
    Inv { s.UpdateLast n with
      active := true
      requests := s.requests ++
        [⟨n, writing, s.totalTicks, asInt (s.totalTicks + s.ComputeLatency n writing)⟩] } := by
  obtain ⟨hle, hdone⟩ := hi.idle hactive
  have ht := hi.timely.time
  have hsince := hi.since
  have hbuffer := hi.buffer
  have hserved := hi.request_served hactive hn writing
  obtain ⟨hseek, -⟩ := seekTime_le hi.timely hn
  have hlatency := ComputeLatency_eq hi.timely hn (by unfold nextTurn at hbuffer; omega) hle writing rfl
  obtain ⟨htrack, hhead⟩ := hi.head_request (r := ⟨n, writing, s.totalTicks,
    asInt (s.totalTicks + s.ComputeLatency n writing)⟩) rfl
  rw [UpdateLast_eq hi.timely hn]
  generalize asInt (s.totalTicks + s.ComputeLatency n writing) = d at *
  have hd : s.totalTicks ≤ d ∧ nextTurn (s.totalTicks + seekTime s n) * 500 ≤ d ∨
      s.totalTicks ≤ d ∧ seekTime s n = 0 := by
    unfold nextTurn at hlatency ⊢
    split at hlatency <;> omega
  refine ⟨⟨ht, hi.timely.early, hn⟩, htrack, ?_, ?_, fun h => Bool.noConfusion h,
    fun _ => ⟨_, _, rfl, ?_, ?_⟩, ?_⟩
  · rw [hhead]
    split <;> omega
  · rw [hhead]
    dsimp only
    split
    · exact hbuffer
    · rfl
  · dsimp only
    split <;> omega
  · intro r' hr'
    have := hdone r' hr'
    dsimp only
    omega
  · intro l r' hprefix
    rcases List.prefix_concat_iff.mp hprefix with heq | hprefix
    · obtain ⟨rfl, hr⟩ := List.append_inj' heq rfl
      cases hr
      exact hserved
    · exact hi.served l r' hprefix

/-- **Every step keeps the invariant.** -/
theorem step_inv {a : Action} (hi : Inv s) (hc : InTime s a) (h : step s a = .ok s') : Inv s' := by
  cases a with
  | ticks n =>
      have ht := hi.timely.time
      have hlate : s.totalTicks + n + MaxLatency < 2 ^ 31 := hc
      rw [MaxLatency_eq] at hlate
      unfold step at h
      dsimp only at h
      rw [asInt_eq (by omega) (by omega)] at h
      cases h
      exact ⟨⟨show 0 ≤ s.totalTicks + n by omega, hc, hi.timely.sector⟩, hi.track, hi.since, hi.buffer,
        fun ha => ⟨show s.bufferInit ≤ s.totalTicks + n by have := (hi.idle ha).1; omega,
          fun r hr => show r.done ≤ s.totalTicks + n by have := (hi.idle ha).2 r hr; omega⟩,
        hi.busy, hi.served⟩
  | request n writing =>
      unfold step State.request at h
      dsimp only at h
      split at h
      · cases h
      · rename_i hactive
        have hactive : s.active = false := by simpa using hactive
        split at h
        · cases h
        · rename_i hrange
          split at h
          · cases h
          · cases h
            exact hi.request hactive (not_not.mp hrange) writing
  | interrupt =>
      unfold step at h
      dsimp only at h
      split at h
      · rename_i r hactive hlast
        split at h
        · rename_i hdue
          cases h
          obtain ⟨l, r', hl, hb, hdone⟩ := hi.busy hactive
          rw [hl, List.getLast?_concat] at hlast
          cases hlast
          obtain ⟨ht, hearly, hs⟩ := hi.timely
          refine ⟨⟨ht, hearly, hs⟩, hi.track, hi.since, hi.buffer, fun _ => ⟨le_trans hb hdue, ?_⟩,
            fun h => Bool.noConfusion h, hi.served⟩
          intro r' hr'
          rw [show s.requests = l ++ [r] from hl] at hr'
          rcases List.mem_append.mp hr' with h | h
          · exact le_trans (hdone r' h) hdue
          · rw [List.mem_singleton.mp h]
            exact hdue
        · cases h
      · cases h

theorem new_inv : Inv .new where
  timely := ⟨le_refl 0, by decide, by decide⟩
  track := rfl
  since := le_refl 0
  buffer := rfl
  idle _ := ⟨le_refl 0, fun _ hr => absurd hr List.not_mem_nil⟩
  busy h := Bool.noConfusion h
  served l _ h :=
    absurd (List.prefix_nil.mp h) (List.append_ne_nil_of_right_ne_nil l (List.cons_ne_nil _ _))

/-- **No request is answered before its sector has passed under the head**, nor later than when it
next does, in every run of the disk in which the clock stays clear of its end: the track buffer has
only sectors that have passed since the head came to its track, and has all of them. -/
theorem requests_served (h : Steps step InTime .new s) :
    ∀ l r, l ++ [r] <+: s.requests → Served l r :=
  (h.inv new_inv fun _ _ _ hi hc hs => step_inv hi hc hs).served

/-- The sector 34 is read from the disk, and 33 then from the track buffer. -/
theorem requests_served_buffered : ∃ s, Steps step InTime .new s ∧
    s.requests = [⟨34, false, 0, 1500⟩, ⟨33, false, 20000, 20500⟩] ∧
    Served [⟨34, false, 0, 1500⟩] ⟨33, false, 20000, 20500⟩ := by
  have hrun : run step InTime .new [.request 34 false, .ticks 20000, .interrupt, .request 33 false] =
      some ⟨33, 500, true, 20000, [⟨34, false, 0, 1500⟩, ⟨33, false, 20000, 20500⟩]⟩ := by
    decide +kernel
  have h := Steps.of_run hrun
  exact ⟨_, h, rfl, requests_served h _ _ (List.prefix_refl _)⟩

end

end Nachos.DiskTime
