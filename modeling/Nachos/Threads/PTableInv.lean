import Nachos.Threads.PTable

/-!
# Threads — the invariant of the process table

What the table, the pids and the children have to do with each other depends on a thread's place
only through its `Phase`: whether it is building a slot, waiting for the thread it has made to be
forked, counted by its parent, past its `ExitWait`, and so on.  `TInv` is the invariant of a table
and the phases of its threads, and there is one lemma for each way the two change: `start`, `fail`,
`create`, `fork`, `takeOver`, `inc`, `pass`, `dec`, `finish`.
-/

namespace Nachos.Proc

/-- What matters of a thread's place to the process table. -/
inductive Phase where
  | unborn | created | running
  /-- Has marked the slot and not made the thread. -/
  | building (pid : Pid) (parentid : Option Pid)
  /-- Has made the thread and not forked it. -/
  | hatching (pid : Pid) (parentid : Option Pid)
  /-- Has forked the thread and not counted it. -/
  | hatched (parentid : Option Pid)
  /-- Past `ExitWait`. -/
  | waited
  /-- Past `DecNumWait`. -/
  | decd
  | dead
  deriving DecidableEq, Repr

def PC.phase : PC → Phase
  | unborn => .unborn
  | created => .created
  | boot | user | execBmsem _ | execEntered _ | execRet _ | bootRet => .running
  | joinWait _ _ _ | joinWoken _ _ _ | exitWait _ _ _ => .running
  | execMutex _ pid par | execLocked _ pid par | execFailed pid par => .building pid par
  | execAddrLock pid par | execSpace pid par | execBuilt pid par => .hatching pid par
  | execForked _ par | execUnlocked _ par => .hatched par
  | exitWaited _ _ _ | exitJoinReleased _ _ _ => .waited
  | exitReleased _ _ => .decd
  | done _ | gone => .dead

namespace Phase

/-- `DecNumWait` on the parent is still to come. -/
def undec : Phase → Bool
  | decd | dead => false
  | _ => true

/-- A child exists that `IncNumWait` has not counted. -/
def pend : Phase → Nat
  | hatching _ (some _) | hatched (some _) => 1
  | _ => 0

/-- `ExitWait` is done with. -/
def past : Phase → Bool
  | waited | decd | dead => true
  | _ => false

end Phase

/-- The children of `p` that have not executed `DecNumWait`. -/
def Table.undec (T : Table) (ph : Tid → Phase) (p : Tid) : Finset Tid :=
  (Finset.range T.nextTid).filter fun c => T.parent c = some p ∧ (ph c).undec = true

theorem Table.mem_undec {T : Table} {ph : Tid → Phase} {p c : Tid} :
    c ∈ T.undec ph p ↔ c < T.nextTid ∧ T.parent c = some p ∧ (ph c).undec = true := by
  simp [Table.undec]

/-- The invariant of the process table. -/
structure TInv (T : Table) (ph : Tid → Phase) : Prop where
  unborn : ∀ t, ph t = .unborn ↔ T.nextTid ≤ t
  noPid : ∀ t, T.pidOf t = none ↔ t = 0 ∨ T.nextTid ≤ t
  parent : ∀ c p, T.parent c = some p → T.pidOf c ≠ none ∧ T.pidOf p ≠ none
  root : ∀ c i, T.parent c = none → T.pidOf c = some i → i = 0
  slot : ∀ i b c, T.pcb i = some b → b.thread = some c →
    T.pidOf c = some i ∧ ph c ≠ .dead ∧ b.parentID = (T.parent c).bind T.pidOf
  owns : ∀ c i, T.pidOf c = some i → ph c ≠ .dead → ∃ b, T.pcb i = some b ∧ b.thread = some c
  bit : ∀ i, T.bm.test i = true ↔
    (∃ c, T.pidOf c = some i ∧ ph c ≠ .dead) ∨ ∃ t par, ph t = .building i par
  building : ∀ t i par, ph t = .building i par →
    T.pcb i = some PCB.new ∧ par = T.pidOf t ∧ (par = none → i = 0)
  building_unique : ∀ t t' i par par', ph t = .building i par → ph t' = .building i par' → t = t'
  hatching : ∀ t i par, ph t = .hatching i par →
    par = T.pidOf t ∧ ∃ c, ph c = .created ∧ T.pidOf c = some i ∧ T.parent c = par.map fun _ => t
  hatched : ∀ t j, ph t = .hatched (some j) → T.pidOf t = some j
  numwait : ∀ i b p, T.pcb i = some b → b.thread = some p →
    b.numwait + (ph p).pend = (T.undec ph p).card
  past : ∀ p, (ph p).past = true → T.undec ph p = ∅

namespace TInv
variable {T : Table} {ph : Tid → Phase} {t c p : Tid} {i j : Pid} {par : Option Pid} {b b' : PCB}

/-- A slot holds one thread. -/
theorem slot_unique (h : TInv T ph) (h₁ : T.pidOf c = some i) (d₁ : ph c ≠ .dead)
    (h₂ : T.pidOf p = some i) (d₂ : ph p ≠ .dead) : c = p := by
  obtain ⟨b, hb, hc⟩ := h.owns c i h₁ d₁
  obtain ⟨b', hb', hp⟩ := h.owns p i h₂ d₂
  rw [hb] at hb'
  cases hb'
  rw [hc] at hp
  exact Option.some.inj hp

/-- A thread that is not unborn has been made. -/
theorem lt_nextTid (h : TInv T ph) (ht : ph t ≠ .unborn) : t < T.nextTid := by
  by_contra hn
  exact ht ((h.unborn t).mpr (not_lt.mp hn))

/-- The loop over `pcb` finds the slot of a live process. -/
theorem find_eq (h : TInv T ph) (hd : ph t ≠ .dead) : T.find t = T.pidOf t := by
  cases hf : T.find t with
  | some i =>
      have hi := List.find?_some hf
      rw [Option.any_eq_true] at hi
      obtain ⟨b, hb, hbt⟩ := hi
      exact ((h.slot i b t hb (by simpa using hbt)).1).symm
  | none =>
      rw [Table.find, List.find?_eq_none] at hf
      cases hp : T.pidOf t with
      | none => rfl
      | some i =>
          obtain ⟨b, hb, hbt⟩ := h.owns t i hp hd
          exact absurd (by simp [hb, hbt]) (hf i (List.mem_finRange i))

/-- The slot of a live process, with its PCB. -/
theorem pcb_of_pid (h : TInv T ph) (hp : T.pidOf c = some i) (hd : ph c ≠ .dead)
    (hb : T.pcb i = some b) : b.thread = some c := by
  obtain ⟨b', hb', hc⟩ := h.owns c i hp hd
  rw [hb] at hb'
  cases hb'
  exact hc

/-- A process that has a child before `DecNumWait` is in its slot, and not past `ExitWait`. -/
theorem live_parent (h : TInv T ph) (hpar : T.parent c = some p) (hu : (ph c).undec = true) :
    c ∈ T.undec ph p ∧ (ph p).past = false ∧
      ∃ j b, T.pidOf p = some j ∧ T.pcb j = some b ∧ b.thread = some p := by
  obtain ⟨hc, hp⟩ := h.parent c p hpar
  have hlt : c < T.nextTid := by
    by_contra hle
    exact hc ((h.noPid c).mpr (.inr (not_lt.mp hle)))
  have hmem : c ∈ T.undec ph p := Table.mem_undec.mpr ⟨hlt, hpar, hu⟩
  have hpast : (ph p).past = false := by
    by_contra hn
    rw [h.past p (by simpa using hn)] at hmem
    cases hmem
  obtain ⟨j, hj⟩ := Option.ne_none_iff_exists'.mp hp
  obtain ⟨b, hb, hbp⟩ := h.owns p j hj fun e => by rw [e] at hpast; cases hpast
  exact ⟨hmem, hpast, j, b, hj, hb, hbp⟩

theorem undec_congr {T' : Table} {ph' : Tid → Phase} (hn : T'.nextTid = T.nextTid)
    (hp : T'.parent = T.parent)
    (h : ∀ c, T.parent c = some p → (ph' c).undec = (ph c).undec) :
    T'.undec ph' p = T.undec ph p := by
  ext c
  rw [Table.mem_undec, Table.mem_undec, hn, hp]
  constructor
  · rintro ⟨h₁, h₂, h₃⟩; exact ⟨h₁, h₂, by rwa [← h c h₂]⟩
  · rintro ⟨h₁, h₂, h₃⟩; exact ⟨h₁, h₂, by rwa [h c h₂]⟩

/-- One thread moves on, and stays before or behind its `DecNumWait`. -/
theorem undec_move {T' : Table} {ph' : Tid → Phase} {t : Tid} {q : Phase}
    (hn : T'.nextTid = T.nextTid) (hp : T'.parent = T.parent)
    (eph : ∀ u, ph' u = if u = t then q else ph u) (hq : q.undec = (ph t).undec) :
    T'.undec ph' p = T.undec ph p :=
  undec_congr hn hp fun c _ => by
    rw [eph]
    split
    · rename_i e; rw [e, hq]
    · rfl

/-! ### The changes

Each is stated for any bitmap, slots and phases that differ from those of `T` as it says. -/

variable {bm' : BitMap MAX_PROCESS} {pcb' : Pid → Option PCB} {ph' : Tid → Phase}

/-- A write to the PCB of the process `p`, with threads that change their phase. -/
theorem change (h : TInv T ph) (hb : T.pcb j = some b) (hp : b.thread = some p)
    (h₁ : b'.thread = b.thread) (h₂ : b'.parentID = b.parentID)
    (hunborn : ∀ u, ph' u = .unborn ↔ ph u = .unborn)
    (hdead : ∀ u k, T.pidOf u = some k → (ph' u = .dead ↔ ph u = .dead))
    (hbuild : ∀ u k q, ph' u = .building k q ↔ ph u = .building k q)
    (hhatching : ∀ u k q, ph' u = .hatching k q → ph u = .hatching k q)
    (hcreated : ∀ u, ph u = .created → ph' u = .created)
    (hhatched : ∀ u k, ph' u = .hatched (some k) → T.pidOf u = some k)
    (hnum : b'.numwait + (ph' p).pend = (T.undec ph' p).card)
    (hother : ∀ u, u ≠ p → (ph' u).pend = (ph u).pend ∧ T.undec ph' u = T.undec ph u)
    (hpast : ∀ u, (ph' u).past = true → T.undec ph' u = ∅) : TInv (T.setPcb j b') ph' := by
  have hslot : ∀ k d, (T.setPcb j b').pcb k = some d → ∃ d₀, T.pcb k = some d₀ ∧
      d.thread = d₀.thread ∧ d.parentID = d₀.parentID := by
    intro k d hd
    rcases Table.setPcb_cases hd with ⟨rfl, rfl⟩ | ⟨-, hd⟩
    · exact ⟨b, hb, h₁, h₂⟩
    · exact ⟨d, hd, rfl, rfl⟩
  refine ⟨fun u => (hunborn u).trans (h.unborn u), h.noPid, h.parent, h.root,
    fun k d c hd hc => ?_, fun c k hc hd => ?_, fun k => ?_, fun u k q hq => ?_,
    fun u u' k q q' hq hq' => ?_, fun u k q hq => ?_, hhatched, fun k d c hd hc => ?_,
    fun u hu => ?_⟩
  · obtain ⟨d₀, hd₀, e₁, e₂⟩ := hslot k d hd
    obtain ⟨g₁, g₂, g₃⟩ := h.slot k d₀ c hd₀ (e₁ ▸ hc)
    exact ⟨g₁, fun e => g₂ ((hdead c k g₁).mp e), e₂ ▸ g₃⟩
  · obtain ⟨d₀, hd₀, hc₀⟩ := h.owns c k hc fun e => hd ((hdead c k hc).mpr e)
    by_cases e : k = j
    · subst e
      rw [hb] at hd₀
      cases hd₀
      exact ⟨b', by simp, h₁.trans hc₀⟩
    · exact ⟨d₀, by simpa [Function.update_of_ne e] using hd₀, hc₀⟩
  · rw [Table.setPcb_bm, h.bit]
    simp only [hbuild]
    refine or_congr_left (exists_congr fun c => and_congr_right fun hc => ?_)
    rw [ne_eq, ne_eq, hdead c k hc]
  · obtain ⟨g₁, g₂, g₃⟩ := h.building u k q ((hbuild u k q).mp hq)
    have e : k ≠ j := by
      rintro rfl
      rw [hb] at g₁
      cases g₁
      cases hp
    exact ⟨by simpa [Function.update_of_ne e] using g₁, g₂, g₃⟩
  · exact h.building_unique u u' k q q' ((hbuild u k q).mp hq) ((hbuild u' k q').mp hq')
  · obtain ⟨g₁, c, g₂, g₃, g₄⟩ := h.hatching u k q (hhatching u k q hq)
    exact ⟨g₁, c, hcreated c g₂, g₃, g₄⟩
  · show _ = ((T.undec ph' c).card : Int)
    rcases Table.setPcb_cases hd with ⟨rfl, rfl⟩ | ⟨hk, hd⟩
    · rw [h₁, hp] at hc
      cases hc
      exact hnum
    · -- `p` is in no second slot
      have hcp : c ≠ p := by
        rintro rfl
        have g₁ := (h.slot k d c hd hc).1
        rw [(h.slot j b c hb hp).1] at g₁
        exact hk (Option.some.inj g₁).symm
      rw [(hother c hcp).1, (hother c hcp).2]
      exact h.numwait k d c hd hc
  · exact hpast u hu

/-- A write to the PCB of a process that keeps what the table's invariant reads of it. -/
theorem setPcb (h : TInv T ph) (hb : T.pcb i = some b) (hc : b.thread = some c)
    (h₁ : b'.thread = b.thread) (h₂ : b'.parentID = b.parentID) (h₃ : b'.numwait = b.numwait) :
    TInv (T.setPcb i b') ph :=
  h.change hb hc h₁ h₂ (fun _ => Iff.rfl) (fun _ _ _ => Iff.rfl) (fun _ _ _ => Iff.rfl)
    (fun _ _ _ => id) (fun _ => id) h.hatched (h₃ ▸ h.numwait i b c hb hc)
    (fun _ _ => ⟨rfl, rfl⟩) h.past

/-- Threads change their phase and the table stays. -/
theorem move (h : TInv T ph) (hunborn : ∀ u, ph' u = .unborn ↔ ph u = .unborn)
    (hdead : ∀ u k, T.pidOf u = some k → (ph' u = .dead ↔ ph u = .dead))
    (hbuild : ∀ u k q, ph' u = .building k q ↔ ph u = .building k q)
    (hundec : ∀ u q, T.parent u = some q → (ph' u).undec = (ph u).undec)
    (hpend : ∀ u k, T.pidOf u = some k → (ph' u).pend = (ph u).pend)
    (hpast : ∀ u, (ph' u).past = true → (ph u).past = true ∨ T.undec ph u = ∅)
    (hhatching : ∀ u k q, ph' u = .hatching k q → ph u = .hatching k q ∧
      ∀ c, ph c = .created → T.parent c = q.map (fun _ => u) → ph' c = .created)
    (hhatched : ∀ u k, ph' u = .hatched (some k) → T.pidOf u = some k) : TInv T ph' := by
  have hu : ∀ p, T.undec ph' p = T.undec ph p := fun p =>
    undec_congr rfl rfl fun c hc => hundec c p hc
  refine ⟨fun u => (hunborn u).trans (h.unborn u), h.noPid, h.parent, h.root,
    fun k d c hd hc => ?_, fun c k hc hd => ?_, fun k => ?_, fun u k q hq => ?_,
    fun u u' k q q' hq hq' => ?_, fun u k q hq => ?_, hhatched, fun k d c hd hc => ?_,
    fun c hc => ?_⟩
  · obtain ⟨g₁, g₂, g₃⟩ := h.slot k d c hd hc
    exact ⟨g₁, fun e => g₂ ((hdead c k g₁).mp e), g₃⟩
  · exact h.owns c k hc fun e => hd ((hdead c k hc).mpr e)
  · rw [h.bit]
    simp only [hbuild]
    refine or_congr_left (exists_congr fun c => and_congr_right fun hc => ?_)
    rw [ne_eq, ne_eq, hdead c k hc]
  · exact h.building u k q ((hbuild u k q).mp hq)
  · exact h.building_unique u u' k q q' ((hbuild u k q).mp hq) ((hbuild u' k q').mp hq')
  · obtain ⟨hq, hcr⟩ := hhatching u k q hq
    obtain ⟨g₁, c, g₂, g₃, g₄⟩ := h.hatching u k q hq
    exact ⟨g₁, c, hcr c g₂ g₄, g₃, g₄⟩
  · rw [hu, hpend c k (h.slot k d c hd hc).1]
    exact h.numwait k d c hd hc
  · rw [hu]
    exact (hpast c hc).elim (h.past c) id

/-- A thread starts to build a slot. -/
theorem start (h : TInv T ph) (ht : ph t = .running) (hi : T.bm.test i = false)
    (hpar : par = T.pidOf t) (h0 : par = none → i = 0)
    (ebm : ∀ k, bm'.test k = (decide (k = i) || T.bm.test k))
    (epcb : ∀ k, pcb' k = if k = i then some PCB.new else T.pcb k)
    (eph : ∀ u, ph' u = if u = t then .building i par else ph u) :
    TInv { T with bm := bm', pcb := pcb' } ph' := by
  have hfree : ∀ c, T.pidOf c = some i → ph c = .dead := fun c hc => by
    by_contra hd
    rw [(h.bit i).mpr (.inl ⟨c, hc, hd⟩)] at hi
    cases hi
  have hnb : ∀ u par, ph u ≠ .building i par := fun u par hu => by
    rw [(h.bit i).mpr (.inr ⟨u, par, hu⟩)] at hi
    cases hi
  have hu : ∀ p, ({ T with bm := bm', pcb := pcb' } : Table).undec ph' p = T.undec ph p :=
    fun p => undec_move rfl rfl eph (by rw [ht]; rfl)
  have hnew : PCB.new.thread = none := rfl
  constructor
  case unborn => have := h.unborn; grind
  case noPid => exact h.noPid
  case parent => exact h.parent
  case root => exact h.root
  case slot => have := h.slot; grind
  case owns => have := h.owns; grind
  case bit => have := h.bit; grind
  case building => have := h.building; grind
  case building_unique => have := h.building_unique; grind
  case hatching => have := h.hatching; grind
  case hatched => have := h.hatched; grind
  case numwait => have := h.numwait; grind [Phase.pend]
  case past => have := h.past; grind [Phase.past]

/-- A slot under construction is given up: the bit is cleared, and the PCB, which has no thread,
stays where it is. -/
theorem fail (h : TInv T ph) (ht : ph t = .building i par)
    (ebm : ∀ k, bm'.test k = (!decide (k = i) && T.bm.test k))
    (eph : ∀ u, ph' u = if u = t then .running else ph u) :
    TInv { T with bm := bm' } ph' := by
  obtain ⟨hpcb, -, -⟩ := h.building t i par ht
  -- the PCB of the slot is one nobody owns
  have hnone : ∀ c, T.pidOf c = some i → ph c = .dead := fun c hc => by
    by_contra hd
    cases h.pcb_of_pid hc hd hpcb
  have hu : ∀ p, ({ T with bm := bm' } : Table).undec ph' p = T.undec ph p :=
    fun p => undec_move rfl rfl eph (by rw [ht]; rfl)
  constructor
  case unborn => have := h.unborn; grind
  case noPid => exact h.noPid
  case parent => exact h.parent
  case root => exact h.root
  case slot => have := h.slot; grind
  case owns => have := h.owns; grind
  case bit => have := h.bit; have := h.building_unique; grind
  case building => have := h.building; grind
  case building_unique => have := h.building_unique; grind
  case hatching => have := h.hatching; grind
  case hatched => have := h.hatched; grind
  case numwait => have := h.numwait; grind [Phase.pend]
  case past => have := h.past; grind [Phase.past]

/-- A new thread is a child of the thread that makes it, and of nobody else. -/
theorem undec_create {U : Table} (h : TInv T ph) (hn : U.nextTid = T.nextTid + 1)
    (ht : ph t = .building i par)
    (epar : ∀ c, U.parent c = if c = T.nextTid then par.map (fun _ => t) else T.parent c)
    (eph : ∀ u, ph' u = if u = t then .hatching i par else
      if u = T.nextTid then .created else ph u) :
    U.undec ph' p =
      if par ≠ none ∧ p = t then insert T.nextTid (T.undec ph p) else T.undec ph p := by
  have htn : t < T.nextTid := h.lt_nextTid (by rw [ht]; simp)
  ext c
  rw [Table.mem_undec, hn]
  by_cases ec : c = T.nextTid
  · subst ec
    have hmem : T.nextTid ∉ T.undec ph p := fun hm => lt_irrefl _ (Table.mem_undec.mp hm).1
    rw [epar, eph, if_pos rfl, if_neg htn.ne', if_pos rfl]
    cases par <;> grind [Phase.undec]
  · have hund : (ph' c).undec = (ph c).undec := by grind [Phase.undec]
    have hlt : c < T.nextTid + 1 ↔ c < T.nextTid := by grind
    rw [epar, if_neg ec, hund, hlt]
    split
    · rw [Finset.mem_insert, or_iff_right ec, Table.mem_undec]
    · rw [Table.mem_undec]

/-! The thread of a slot under construction is made.  What this does to the table is the same in each
of the lemmas: `i` gets the PCB, the new thread its pid and its parent, and the thread that builds
the slot goes on to fork it. -/

section
variable {pidOf' : Tid → Option Pid} {parent' : Tid → Option Tid} (h : TInv T ph)
  (ht : ph t = .building i par) (hth : b.thread = some T.nextTid)
  (epcb : ∀ k, pcb' k = if k = i then some b else T.pcb k)
  (epid : ∀ c, pidOf' c = if c = T.nextTid then some i else T.pidOf c)
  (epar : ∀ c, parent' c = if c = T.nextTid then par.map (fun _ => t) else T.parent c)
  (eph : ∀ u, ph' u = if u = t then .hatching i par else
    if u = T.nextTid then .created else ph u)

include h in
theorem pidOf_nextTid : T.pidOf T.nextTid = none := (h.noPid _).mpr (.inr (le_refl _))

include h in
theorem parent_ne_nextTid (c : Tid) : T.parent c ≠ some T.nextTid :=
  fun hp => (h.parent c _ hp).2 h.pidOf_nextTid

include h in
theorem thread_ne_nextTid {k : Pid} {d : PCB} (hd : T.pcb k = some d) (hc : d.thread = some c) :
    c ≠ T.nextTid := by
  rintro rfl
  have hpid := (h.slot k d _ hd hc).1
  rw [h.pidOf_nextTid] at hpid
  cases hpid

include h ht in
/-- The slot that is being built belongs to nobody. -/
theorem dead_of_building (hc : T.pidOf c = some i) : ph c = .dead := by
  by_contra hd
  cases h.pcb_of_pid hc hd (h.building t i par ht).1

include h epid in
/-- The pid of a parent is none of the new thread. -/
theorem create_bind (c : Tid) : (T.parent c).bind pidOf' = (T.parent c).bind T.pidOf := by
  cases hp : T.parent c with
  | none => rfl
  | some p =>
      have hne : p ≠ T.nextTid := fun e => h.parent_ne_nextTid c (e ▸ hp)
      simp [epid, hne]

include h ht hth epcb epid epar eph in
theorem create_slot (hparent : b.parentID = par) {k : Pid} {d : PCB} (hd : pcb' k = some d)
    (hc : d.thread = some c) :
    pidOf' c = some k ∧ ph' c ≠ .dead ∧ d.parentID = (parent' c).bind pidOf' := by
  have htn : t < T.nextTid := h.lt_nextTid (by rw [ht]; simp)
  rw [epcb] at hd
  split at hd
  · cases hd
    rw [hth] at hc
    cases hc
    refine ⟨by grind, by grind, ?_⟩
    rw [hparent, epar, if_pos rfl]
    cases par with
    | none => rfl
    | some j => simp [epid, htn.ne, ← (h.building t i _ ht).2.1]
  · obtain ⟨g₁, g₂, g₃⟩ := h.slot k d c hd hc
    have hne := h.thread_ne_nextTid hd hc
    rw [epar, if_neg hne, h.create_bind epid]
    exact ⟨by grind, by grind, g₃⟩

include h ht epid eph in
/-- The slot was marked for the thread that builds it, and now is for the one it has made. -/
theorem create_bit (k : Pid) : T.bm.test k = true ↔
    (∃ c, pidOf' c = some k ∧ ph' c ≠ .dead) ∨ ∃ u q, ph' u = .building k q := by
  have hnew := h.pidOf_nextTid
  have hunborn : ph T.nextTid = .unborn := (h.unborn _).mpr (le_refl _)
  have hdead : ∀ c, T.pidOf c = some i → ph c = .dead := fun c => h.dead_of_building ht
  rw [h.bit]
  constructor
  · rintro (⟨c, hc, hd⟩ | ⟨u, q, hq⟩)
    · exact .inl ⟨c, by grind, by grind⟩
    · by_cases e : u = t
      · subst e
        rw [ht] at hq
        cases hq
        exact .inl ⟨T.nextTid, by grind, by grind⟩
      · exact .inr ⟨u, q, by grind⟩
  · rintro (⟨c, hc, hd⟩ | ⟨u, q, hq⟩)
    · by_cases e : c = T.nextTid
      · exact .inr ⟨t, par, by grind⟩
      · exact .inl ⟨c, by grind, by grind⟩
    · exact .inr ⟨u, q, by grind⟩

include h ht epid epar eph in
theorem create_hatching {u : Tid} {k : Pid} {q : Option Pid} (hq : ph' u = .hatching k q) :
    q = pidOf' u ∧
      ∃ c, ph' c = .created ∧ pidOf' c = some k ∧ parent' c = q.map fun _ => u := by
  have htn : t < T.nextTid := h.lt_nextTid (by rw [ht]; simp)
  have hpar := (h.building t i par ht).2.1
  have hunborn : ph T.nextTid = .unborn := (h.unborn _).mpr (le_refl _)
  rw [eph] at hq
  split at hq
  · rename_i e
    cases hq
    subst e
    exact ⟨by grind, T.nextTid, by grind, by grind, by rw [epar, if_pos rfl]⟩
  · split at hq
    · cases hq
    · obtain ⟨g₁, c, g₂, g₃, g₄⟩ := h.hatching u k q hq
      have hne : c ≠ T.nextTid := fun e => by rw [e, h.pidOf_nextTid] at g₃; cases g₃
      exact ⟨by grind, c, by grind, by grind, by rw [epar, if_neg hne, g₄]⟩

include h ht hth epcb epar eph in
/-- The caller counts the new thread before it has called `IncNumWait`. -/
theorem create_numwait {U : Table} (hn : U.nextTid = T.nextTid + 1) (hp : U.parent = parent')
    (hnum : b.numwait = 0) {k : Pid} {d : PCB} (hd : pcb' k = some d) (hth' : d.thread = some p) :
    d.numwait + (ph' p).pend = (U.undec ph' p).card := by
  have htn : t < T.nextTid := h.lt_nextTid (by rw [ht]; simp)
  have hcard : (insert T.nextTid (T.undec ph t)).card = (T.undec ph t).card + 1 :=
    Finset.card_insert_of_notMem fun hm => lt_irrefl _ (Table.mem_undec.mp hm).1
  rw [h.undec_create hn ht (by rw [hp]; exact epar) eph]
  rw [epcb] at hd
  split at hd
  · cases hd
    rw [hth] at hth'
    cases hth'
    have hempty : T.undec ph T.nextTid = ∅ := by
      rw [Finset.eq_empty_iff_forall_notMem]
      exact fun c hc => h.parent_ne_nextTid c (Table.mem_undec.mp hc).2.1
    rw [if_neg (by grind), hempty, hnum, eph, if_neg htn.ne', if_pos rfl]
    rfl
  · have hold := h.numwait k d p hd hth'
    by_cases e : p = t
    · subst e
      rw [ht] at hold
      cases par with
      | none => simpa [eph, Phase.pend] using hold
      | some j =>
          rw [if_pos ⟨by simp, rfl⟩, hcard, eph, if_pos rfl]
          simp only [Phase.pend] at hold ⊢
          omega
    · rw [if_neg (fun g => e g.2), eph, if_neg e, if_neg (h.thread_ne_nextTid hd hth')]
      exact hold

include h ht hth epcb epid epar eph in
theorem create (hparent : b.parentID = par) (hnum : b.numwait = 0) :
    TInv { T with pcb := pcb', nextTid := T.nextTid + 1, pidOf := pidOf', parent := parent' }
      ph' := by
  obtain ⟨hpcb, hpar, hroot⟩ := h.building t i par ht
  have htn : t < T.nextTid := h.lt_nextTid (by rw [ht]; simp)
  have hunborn : ph T.nextTid = .unborn := (h.unborn _).mpr (le_refl _)
  have hnew := h.pidOf_nextTid
  have hdead : ∀ c, T.pidOf c = some i → ph c = .dead := fun c => h.dead_of_building ht
  constructor
  case unborn => have := h.unborn; grind
  case noPid => have := h.noPid; grind
  case parent => have := h.parent; cases par <;> grind
  case root =>
    intro c k hc hk
    dsimp only at hc hk
    rw [epar] at hc
    rw [epid] at hk
    split at hc
    · rename_i e
      rw [if_pos e, Option.some.injEq] at hk
      exact hk ▸ hroot (Option.map_eq_none_iff.mp hc)
    · rename_i e
      rw [if_neg e] at hk
      exact h.root c k hc hk
  case slot => exact fun k d c => h.create_slot ht hth epcb epid epar eph hparent
  case owns => have := h.owns; grind
  case bit => exact h.create_bit ht epid eph
  case building => have := h.building; have := h.building_unique; grind
  case building_unique => have := h.building_unique; grind
  case hatching => exact fun u k q => h.create_hatching ht epid epar eph
  case hatched => have := h.hatched; grind
  case numwait => exact fun k d p => h.create_numwait ht hth epcb epar eph rfl rfl hnum
  case past =>
    intro p hp
    rw [h.undec_create rfl ht epar eph, if_neg, h.past p] <;> grind [Phase.past]

end

/-- The thread a parent is about to fork is the one in the slot. -/
theorem hatching_thread (h : TInv T ph) (ht : ph t = .hatching i par) (hb : T.pcb i = some b)
    (hc : b.thread = some c) :
    ph c = .created ∧ T.pidOf c = some i ∧ T.parent c = par.map fun _ => t := by
  obtain ⟨-, c', h₁, h₂, h₃⟩ := h.hatching t i par ht
  have := h.pcb_of_pid h₂ (by rw [h₁]; decide) hb
  rw [hc] at this
  cases this
  exact ⟨h₁, h₂, h₃⟩

/-- No two threads are about to fork the same one. -/
theorem hatching_unique {u : Tid} {k : Pid} {q : Option Pid} (h : TInv T ph)
    (ht : ph t = .hatching i par) (hu : ph u = .hatching k q)
    (hc : T.parent c = par.map fun _ => t) (hc' : T.parent c = q.map fun _ => u) : t = u := by
  have hp := (h.hatching t i par ht).1
  have hq := (h.hatching u k q hu).1
  rw [hc] at hc'
  cases par with
  | some j => cases q with
    | some j' => exact Option.some.inj hc'
    | none => cases hc'
  | none => cases q with
    | some j' => cases hc'
    | none =>
        -- both have no pid, so both are the main thread
        have hz : ∀ v, ph v ≠ .unborn → T.pidOf v = none → v = 0 := fun v hv hn =>
          ((h.noPid v).mp hn).resolve_right fun hle => hv ((h.unborn v).mpr hle)
        rw [hz t (by rw [ht]; simp) hp.symm, hz u (by rw [hu]; simp) hq.symm]

/-- `Fork`. -/
theorem fork (h : TInv T ph) (ht : ph t = .hatching i (some j)) (hb : T.pcb i = some b)
    (hc : b.thread = some c)
    (eph : ∀ u, ph' u = if u = t then .hatched (some j) else if u = c then .running else ph u) :
    TInv T ph' := by
  obtain ⟨h₁, h₂, h₃⟩ := h.hatching_thread ht hb hc
  have hpar := (h.hatching t i _ ht).1
  have huniq : ∀ u k q, ph u = .hatching k q → T.parent c = q.map (fun _ => u) → u = t :=
    fun u k q hq hp => (h.hatching_unique ht hq h₃ hp).symm
  refine h.move (fun u => ?_) (fun u k hk => ?_) (fun u k q => ?_) (fun u q hq => ?_)
    (fun u k hk => ?_) (fun u hu => ?_) (fun u k q hq => ?_) (fun u k hk => ?_)
  · grind
  · grind
  · grind
  · grind [Phase.undec]
  · grind [Phase.pend]
  · grind [Phase.past]
  · rw [eph] at hq
    split at hq
    · cases hq
    split at hq
    · cases hq
    rename_i hut huc
    refine ⟨hq, fun x hx hp => ?_⟩
    have hxt : x ≠ t := fun e => by rw [e, ht] at hx; cases hx
    have hxc : x ≠ c := fun e => hut (huniq u k q hq (e ▸ hp))
    rw [eph, if_neg hxt, if_neg hxc, hx]
  · have := h.hatched
    grind

/-- The root takes the place of the main thread. -/
theorem takeOver (h : TInv T ph) (ht : ph t = .hatching i none) (hb : T.pcb i = some b)
    (hc : b.thread = some c)
    (eph : ∀ u, ph' u = if u = c then .hatched none else if u = t then .dead else ph u) :
    TInv T ph' := by
  obtain ⟨h₁, h₂, h₃⟩ := h.hatching_thread ht hb hc
  have hpar : T.pidOf t = none := (h.hatching t i _ ht).1.symm
  have huniq : ∀ u k q, ph u = .hatching k q → T.parent c = q.map (fun _ => u) → u = t :=
    fun u k q hq hp => (h.hatching_unique ht hq h₃ hp).symm
  -- the main thread has no pid, so it is nobody's parent
  have hempty : T.undec ph t = ∅ := by
    rw [Finset.eq_empty_iff_forall_notMem]
    exact fun x hx => (h.parent x t (Table.mem_undec.mp hx).2.1).2 hpar
  refine h.move (fun u => ?_) (fun u k hk => ?_) (fun u k q => ?_) (fun u q hq => ?_)
    (fun u k hk => ?_) (fun u hu => ?_) (fun u k q hq => ?_) (fun u k hk => ?_)
  · grind
  · grind
  · grind
  · have hut : u ≠ t := fun e => (h.parent u q hq).1 (e ▸ hpar)
    grind [Phase.undec]
  · grind [Phase.pend]
  · grind [Phase.past]
  · rw [eph] at hq
    split at hq
    · cases hq
    split at hq
    · cases hq
    rename_i huc hut
    refine ⟨hq, fun x hx hp => ?_⟩
    have hxt : x ≠ t := fun e => by rw [e, ht] at hx; cases hx
    have hxc : x ≠ c := fun e => hut (huniq u k q hq (e ▸ hp))
    rw [eph, if_neg hxc, if_neg hxt, hx]
  · have := h.hatched
    grind

/-- `ExitWait` returns: no child is left. -/
theorem pass (h : TInv T ph) (ht : ph t = .running) (hp : T.undec ph t = ∅)
    (eph : ∀ u, ph' u = if u = t then .waited else ph u) : TInv T ph' := by
  have hh := h.hatched
  refine h.move ?_ ?_ ?_ ?_ ?_ ?_ ?_ ?_ <;> grind [Phase.undec, Phase.pend, Phase.past]

/-- The root returns to `StartProcess`. -/
theorem bootRet (h : TInv T ph) (ht : ph t = .hatched none)
    (eph : ∀ u, ph' u = if u = t then .running else ph u) : TInv T ph' := by
  have hh := h.hatched
  refine h.move ?_ ?_ ?_ ?_ ?_ ?_ ?_ ?_ <;> grind [Phase.undec, Phase.pend, Phase.past]

/-- `IncNumWait`. -/
theorem inc (h : TInv T ph) (ht : ph t = .hatched (some j)) (hb : T.pcb j = some b)
    (eph : ∀ u, ph' u = if u = t then .running else ph u) :
    TInv (T.setPcb j { b with numwait := b.numwait + 1 }) ph' := by
  have hp := h.hatched t j ht
  have hc : b.thread = some t := h.pcb_of_pid hp (by rw [ht]; simp) hb
  have hn := h.numwait j b t hb hc
  have hu : ∀ u, T.undec ph' u = T.undec ph u := fun u => undec_move rfl rfl eph (by rw [ht]; rfl)
  have hh := h.hatched
  refine h.change hb hc rfl rfl ?_ ?_ ?_ ?_ ?_ ?_ ?_ (fun u hu' => ⟨?_, hu u⟩) (fun u hu' => ?_)
  case refine_7 =>
    -- what was pending is now in `numwait`
    rw [hu, eph, if_pos rfl]
    rw [ht] at hn
    simp only [Phase.pend] at hn ⊢
    omega
  case refine_9 =>
    have := h.past
    grind [Phase.past]
  all_goals grind

/-- `DecNumWait` takes the child `t` off what its parent `p` counts. -/
theorem dec (h : TInv T ph) (ht : ph t = .waited) (hpar : T.parent t = some p)
    (hb : T.pcb j = some b) (hp : b.thread = some p)
    (eph : ∀ u, ph' u = if u = t then .decd else ph u) :
    T.undec ph' p = (T.undec ph p).erase t ∧
      TInv (T.setPcb j { b with numwait := b.numwait - 1 }) ph' := by
  have hn := h.numwait j b p hb hp
  have htn : t < T.nextTid := h.lt_nextTid (by rw [ht]; simp)
  have hmem : t ∈ T.undec ph p := Table.mem_undec.mpr ⟨htn, hpar, by rw [ht]; rfl⟩
  have hpt : p ≠ t := by
    rintro rfl
    rw [h.past p (by rw [ht]; rfl)] at hmem
    cases hmem
  have hup : T.undec ph' p = (T.undec ph p).erase t := by
    ext x
    rw [Finset.mem_erase, Table.mem_undec, Table.mem_undec, eph]
    by_cases e : x = t
    · simp [e, Phase.undec]
    · simp [e]
  have hu : ∀ u, u ≠ p → T.undec ph' u = T.undec ph u := fun u hne =>
    undec_congr rfl rfl fun x hx => by
      have : x ≠ t := by
        rintro rfl
        rw [hpar] at hx
        exact hne (Option.some.inj hx).symm
      rw [eph, if_neg this]
  have hh := h.hatched
  refine ⟨hup, h.change hb hp rfl rfl ?_ ?_ ?_ ?_ ?_ ?_ ?_ (fun u hne => ⟨?_, hu u hne⟩)
    (fun u hu' => ?_)⟩
  case refine_7 =>
    rw [hup, eph, if_neg hpt, Finset.card_erase_of_mem hmem]
    have := Finset.card_pos.mpr ⟨t, hmem⟩
    simp only
    omega
  case refine_8 => grind [Phase.pend]
  case refine_9 =>
    by_cases e : u = p
    · -- a parent that still counts `t` has not passed its `ExitWait`
      subst e
      rw [eph, if_neg hpt] at hu'
      rw [h.past u hu'] at hmem
      cases hmem
    · rw [hu u e]
      have := h.past u
      grind [Phase.past]
  all_goals grind

/-- The slot of a process that is done is cleared. -/
theorem finish (h : TInv T ph) (ht : ph t = .decd) (hp : T.pidOf t = some i)
    (ebm : ∀ k, bm'.test k = (!decide (k = i) && T.bm.test k))
    (epcb : ∀ k, pcb' k = if k = i then none else T.pcb k)
    (eph : ∀ u, ph' u = if u = t then .dead else ph u) :
    TInv { T with bm := bm', pcb := pcb' } ph' := by
  obtain ⟨b, hb, hbt⟩ := h.owns t i hp (by rw [ht]; simp)
  have hslot : ∀ c, T.pidOf c = some i → ph c ≠ .dead → c = t := fun c hc hd =>
    h.slot_unique hc hd hp (by rw [ht]; simp)
  have hnb : ∀ u q, ph u ≠ .building i q := fun u q hq => by
    rw [(h.building u i q hq).1] at hb
    cases hb
    cases hbt
  have hu : ∀ p, ({ T with bm := bm', pcb := pcb' } : Table).undec ph' p = T.undec ph p :=
    fun p => undec_move rfl rfl eph (by rw [ht]; rfl)
  constructor
  case unborn => have := h.unborn; grind
  case noPid => exact h.noPid
  case parent => exact h.parent
  case root => exact h.root
  case slot => have := h.slot; grind
  case owns => have := h.owns; grind
  case bit =>
    intro k
    rw [ebm, Bool.and_eq_true, h.bit]
    constructor
    · rintro ⟨hk, ⟨c, hc, hd⟩ | ⟨u, q, hq⟩⟩
      · exact .inl ⟨c, hc, by grind⟩
      · exact .inr ⟨u, q, by grind⟩
    · rintro (⟨c, hc, hd⟩ | ⟨u, q, hq⟩)
      · exact ⟨by grind, .inl ⟨c, hc, by grind⟩⟩
      · exact ⟨by grind, .inr ⟨u, q, by grind⟩⟩
  case building => have := h.building; grind
  case building_unique => have := h.building_unique; grind
  case hatching => have := h.hatching; grind
  case hatched => have := h.hatched; grind
  case numwait => have := h.numwait; grind [Phase.pend]
  case past => have := h.past; grind [Phase.past]

end TInv

end Nachos.Proc
