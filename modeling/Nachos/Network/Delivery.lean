import Nachos.Network.PostOffice

/-!
# Network — mail is delivered intact, in order and once

What has been transmitted to a machine is at every moment, in this order, in its boxes, in the hands
of the postal worker, in its inbox, and in its socket (`OfficeInv`).  The messages are read from the
bytes that are there, so nothing has been lost, damaged, doubled or overtaken.
-/

namespace Nachos.Network
open Lib

namespace Office

/-- The message the postal worker has received and not yet put into a box. -/
def hand (o : Office) : List Mail :=
  match o.pc with
  | .put pktHdr => [decode pktHdr o.buffer]
  | _ => []

/-- The message in the inbox. -/
def held (o : Office) : List Mail := if o.inHdr.length ≠ 0 then [decode o.inHdr o.inbox] else []

/-- The value of a semaphore. -/
def value (o : Office) (r : Sem) : Int := (o.sync.sems r).value

/-- The messages of a box. -/
def inBox (o : Office) (b : Word) : List Mail := (o.appended.filter (·.1 = b)).map Prod.snd

end Office

/-- A message for the machine `a` that the post office has accepted. -/
structure Good (numBoxes : Int) (a : Word) (m : Mail) : Prop where
  dest : m.pktHdr.dest = a
  box : 0 ≤ m.mailHdr.dest.toInt ∧ m.mailHdr.dest.toInt < numBoxes
  fits : m.mailHdr.length.toNat ≤ MaxMailSize
  length : headerSize + m.mailHdr.length.toNat = m.pktHdr.length.toNat

theorem Good.packet {numBoxes : Int} {a : Word} {m : Mail} (h : Good numBoxes a m) :
    m.pktHdr.length.toNat ≤ MaxPacketSize ∧ m.pktHdr.length ≠ 0 := by
  have h₁ := h.fits
  have h₂ := h.length
  have hh : headerSize = 12 := rfl
  refine ⟨?_, fun h₀ => ?_⟩
  · unfold MaxMailSize MaxPacketSize MaxWireSize at *
    omega
  · rw [h₀] at h₂
    simp only [BitVec.ofNat_eq_ofNat, BitVec.toNat_ofNat] at h₂
    omega

structure OfficeInv (numBoxes : Int) (a : Word) (o : Office) : Prop where
  transmitted : o.transmitted.map Prod.snd = o.arrived ++ o.socket.map Frame.mail
  arrived : o.arrived = o.appended.map Prod.snd ++ o.hand ++ o.held
  good : ∀ p ∈ o.transmitted, Good numBoxes a p.2 ∧ p.2.pktHdr.src = p.1
  boxed : ∀ p ∈ o.appended, p.1 = p.2.mailHdr.dest
  boxes : ∀ b, o.got b ++ o.boxes b = o.inBox b
  available : o.value .messageAvailable + (if o.pc = .receive then 1 else 0) =
    if o.inHdr.length ≠ 0 then 1 else 0
  nonneg : 0 ≤ o.value .messageAvailable
  idle : o.sendBusy = false

section
variable {numBoxes : Int} {a : Word} {o o' : Office}

theorem new_inv (numBoxes : Int) (a : Word) (inHdr : PacketHeader) (inbox buffer : Nat → Byte) :
    OfficeInv numBoxes a (.new inHdr inbox buffer) where
  transmitted := rfl
  arrived := rfl
  good _ hp := absurd hp List.not_mem_nil
  boxed _ hp := absurd hp List.not_mem_nil
  boxes _ := rfl
  available := rfl
  nonneg := le_rfl
  idle := rfl

theorem OfficeInv.good_arrived (h : OfficeInv numBoxes a o) {m : Mail} (hm : m ∈ o.arrived) :
    Good numBoxes a m := by
  have hmem : m ∈ o.transmitted.map Prod.snd := by
    rw [h.transmitted]
    exact List.mem_append_left _ hm
  obtain ⟨p, hp, rfl⟩ := List.mem_map.mp hmem
  exact (h.good p hp).1

theorem OfficeInv.good_socket (h : OfficeInv numBoxes a o) {frame : Frame}
    (hf : frame ∈ o.socket) : Good numBoxes a frame.mail := by
  have hmem : frame.mail ∈ o.transmitted.map Prod.snd := by
    rw [h.transmitted]
    exact List.mem_append_right _ (List.mem_map_of_mem hf)
  obtain ⟨p, hp, he⟩ := List.mem_map.mp hmem
  rw [← he]
  exact (h.good p hp).1

theorem hand_of_put {pktHdr : PacketHeader} (h : o.pc = .put pktHdr) :
    o.hand = [decode pktHdr o.buffer] := by
  unfold Office.hand
  rw [h]

theorem hand_of_wait (h : o.pc = .wait) : o.hand = [] := by
  unfold Office.hand
  rw [h]

theorem hand_of_receive (h : o.pc = .receive) : o.hand = [] := by
  unfold Office.hand
  rw [h]

theorem held_of_zero (h : o.inHdr.length = 0) : o.held = [] := if_neg (not_not.mpr h)

theorem held_of_ne (h : o.inHdr.length ≠ 0) : o.held = [decode o.inHdr o.inbox] := if_pos h

/-- The bytes of a message are copied along. -/
theorem decode_bcopy {pktHdr : PacketHeader} {src dst : Nat → Byte}
    (h : Good numBoxes a (decode pktHdr src)) :
    decode pktHdr (bcopy src dst 0 pktHdr.length.toNat) = decode pktHdr src := by
  refine decode_congr pktHdr fun x hx => ?_
  have hlen := h.length
  rw [bcopy_of_le (Nat.zero_le x), Nat.sub_zero]
  simp only [decode] at hlen
  omega

theorem readPacket_inv (h : OfficeInv numBoxes a o) {frame : Frame} {socket : List Frame}
    (hs : o.socket = frame :: socket) (hz : o.inHdr.length = 0) :
    OfficeInv numBoxes a (o.readPacket frame socket) := by
  have hgood : Good numBoxes a frame.mail := h.good_socket (hs ▸ List.mem_cons_self)
  have hne : (Header.ofBytes frame.bytes).length ≠ 0 := hgood.packet.2
  have hnn := h.nonneg
  have hav := h.available
  rw [if_neg (not_not.mpr hz)] at hav
  have hpc : o.pc ≠ .receive := by
    intro hp
    rw [if_pos hp] at hav
    omega
  have hv : (o.readPacket frame socket).value .messageAvailable = o.value .messageAvailable + 1 :=
    Sync.V_value _ _
  refine ⟨?_, ?_, h.good, h.boxed, h.boxes, ?_, by omega, h.idle⟩
  · show o.transmitted.map Prod.snd = o.arrived ++ [frame.mail] ++ socket.map Frame.mail
    rw [h.transmitted, hs, List.map_cons, List.append_assoc, List.singleton_append]
  · have hheld : (o.readPacket frame socket).held = [frame.mail] :=
      (held_of_ne hne).trans (congrArg (fun m => [m]) (decode_bcopy hgood))
    show o.arrived ++ [frame.mail] = o.appended.map Prod.snd ++ o.hand ++ _
    rw [hheld, h.arrived, held_of_zero hz, List.append_nil]
  · rw [hv]
    show _ + (if o.pc = .receive then 1 else 0) =
      if (Header.ofBytes frame.bytes).length ≠ 0 then (1 : Int) else 0
    rw [if_neg hpc, if_pos hne]
    rw [if_neg hpc] at hav
    omega

/-- **`CheckPktAvail` moves a packet from the socket to the inbox, if this is empty.** -/
theorem checkPktAvail_inv (h : OfficeInv numBoxes a o) :
    ∃ o', o.checkPktAvail a = .ok o' ∧ OfficeInv numBoxes a o' ∧
      ∃ l, o'.held = o.held ++ l := by
  unfold Office.checkPktAvail
  split
  · exact ⟨o, rfl, h, [], (List.append_nil _).symm⟩
  rename_i hz
  have hz' : o.inHdr.length = 0 := not_not.mp hz
  split
  · exact ⟨o, rfl, h, [], (List.append_nil _).symm⟩
  rename_i frame socket hs
  have hgood : Good numBoxes a frame.mail := h.good_socket (hs ▸ List.mem_cons_self)
  rw [if_pos ⟨hgood.dest, hgood.packet.1⟩]
  refine ⟨_, rfl, readPacket_inv h hs hz', ?_⟩
  rw [held_of_zero hz']
  exact ⟨_, (List.nil_append _).symm⟩

/-- A change of what the mail does not use. -/
theorem OfficeInv.congr (h : OfficeInv numBoxes a o) {sync : Sync Sem} {sends : Nat} {sending : Bool}
    (hv : (sync.sems .messageAvailable).value = o.value .messageAvailable) :
    OfficeInv numBoxes a { o with
      sync := sync
      sendBusy := false
      sends := sends
      sending := sending } where
  transmitted := h.transmitted
  arrived := h.arrived
  good := h.good
  boxed := h.boxed
  boxes := h.boxes
  available := by
    have hav := h.available
    rw [← hv] at hav
    exact hav
  nonneg := by
    have hn := h.nonneg
    rw [← hv] at hn
    exact hn
  idle := rfl

theorem sendDone_inv (h : OfficeInv numBoxes a o) : OfficeInv numBoxes a o.sendDone :=
  h.congr (congrArg Semaphore.value (Sync.V_sems_ne o.sync (by decide)))

theorem sent_inv (h : OfficeInv numBoxes a o) : OfficeInv numBoxes a o.sent := by
  have hsem : (o.sync.P sender .messageSent).1.sems .messageAvailable = _ :=
    Sync.P_sems_ne o.sync sender (by decide)
  have hbusy : o = { o with sendBusy := false } := by rw [← h.idle]
  unfold Office.sent
  rw [hbusy]
  split <;> rename_i heq <;> rw [heq] at hsem
  · exact h.congr (congrArg Semaphore.value hsem)
  · exact h.congr (congrArg Semaphore.value hsem)

/-- The postal worker passes `messageAvailable->P()`, or stays where it is. -/
theorem wait_inv (h : OfficeInv numBoxes a o) (hpc : o.pc = .wait) :
    OfficeInv numBoxes a o.wait := by
  have hav := h.available
  rw [if_neg (by rw [hpc]; decide)] at hav
  unfold Office.wait
  by_cases hv : o.value .messageAvailable = 0
  · rw [Sync.P_zero hv]
    refine ⟨h.transmitted, h.arrived, h.good, h.boxed, h.boxes, ?_, ?_, h.idle⟩
    · show ((Function.update o.sync.sems Sem.messageAvailable _) Sem.messageAvailable).value +
        (if o.pc = .receive then 1 else 0) = _
      rw [Function.update_self]
      exact h.available
    · show 0 ≤ ((Function.update o.sync.sems Sem.messageAvailable _) Sem.messageAvailable).value
      rw [Function.update_self]
      exact h.nonneg
  · have hn := h.nonneg
    rw [Sync.P_pos hv]
    refine ⟨h.transmitted, ?_, h.good, h.boxed, h.boxes, ?_, ?_, h.idle⟩
    · have harr := h.arrived
      rw [hand_of_wait hpc] at harr
      exact harr
    · show ((Function.update o.sync.sems Sem.messageAvailable _) Sem.messageAvailable).value +
        (if WorkerPC.receive = .receive then 1 else 0) = _
      rw [Function.update_self, if_pos rfl]
      show o.value .messageAvailable - 1 + 1 = _
      rw [← hav]
      omega
    · show 0 ≤ ((Function.update o.sync.sems Sem.messageAvailable _) Sem.messageAvailable).value
      rw [Function.update_self]
      show 0 ≤ o.value .messageAvailable - 1
      omega

/-- **`Receive` finds a packet in the inbox, and empties it.** -/
theorem receive_inv (h : OfficeInv numBoxes a o) (hpc : o.pc = .receive) :
    OfficeInv numBoxes a o.receive := by
  have hnn := h.nonneg
  have hav := h.available
  rw [if_pos hpc] at hav
  have hne : o.inHdr.length ≠ 0 := by
    intro hz
    rw [if_neg (not_not.mpr hz)] at hav
    omega
  rw [if_pos hne] at hav
  have harr := h.arrived
  rw [hand_of_receive hpc, held_of_ne hne, List.append_nil] at harr
  have hgood : Good numBoxes a (decode o.inHdr o.inbox) :=
    h.good_arrived (harr ▸ List.mem_append_right _ (List.mem_singleton_self _))
  have hhand : o.receive.hand = [decode o.inHdr o.inbox] := by
    rw [hand_of_put (show o.receive.pc = .put o.inHdr from rfl)]
    unfold Office.receive
    dsimp only
    rw [if_pos hne, decode_bcopy hgood]
  refine ⟨h.transmitted, ?_, h.good, h.boxed, h.boxes, ?_, h.nonneg, h.idle⟩
  · rw [hhand, held_of_zero rfl, List.append_nil]
    exact harr
  · show o.value .messageAvailable + (if WorkerPC.put o.inHdr = .receive then 1 else 0) =
      if (0 : Word) ≠ 0 then (1 : Int) else 0
    rw [if_neg WorkerPC.noConfusion, if_neg (not_not.mpr rfl)]
    omega

theorem inBox_append (o : Office) (box b : Word) (m : Mail) :
    (o.putMail box m).inBox b = o.inBox b ++ if box = b then [m] else [] := by
  show ((o.appended ++ [(box, m)]).filter (·.1 = b)).map Prod.snd = _
  rw [List.filter_append, List.map_append]
  congr 1
  split <;> rename_i hb <;> simp [hb]

/-- **What the postal worker has received goes into its box.** -/
theorem deliver_inv (h : OfficeInv numBoxes a o) {pktHdr : PacketHeader} (hpc : o.pc = .put pktHdr) :
    ∃ o', o.deliver numBoxes pktHdr = .ok o' ∧ OfficeInv numBoxes a o' := by
  have harr := h.arrived
  rw [hand_of_put hpc] at harr
  have hgood : Good numBoxes a (decode pktHdr o.buffer) :=
    h.good_arrived (harr ▸ List.mem_append_left _ (List.mem_append_right _ (List.mem_singleton_self _)))
  have hbox : 0 ≤ (Header.ofBytes o.buffer).dest.toInt ∧
      (Header.ofBytes o.buffer).dest.toInt < numBoxes := hgood.box
  have hfits : (Header.ofBytes o.buffer).length.toNat ≤ MaxMailSize := hgood.fits
  unfold Office.deliver
  rw [if_pos hbox, if_pos hfits]
  refine ⟨_, rfl, h.transmitted, ?_, h.good, fun p hp => ?_, fun b => ?_, ?_, h.nonneg, h.idle⟩
  · show o.arrived = (o.appended ++ [_]).map Prod.snd ++ [] ++ o.held
    rw [List.map_append, List.append_nil]
    exact harr
  · rcases List.mem_append.mp hp with hp | hp
    · exact h.boxed p hp
    · rw [List.mem_singleton.mp hp]
      rfl
  · rw [inBox_append, ← h.boxes b]
    show o.got b ++ Function.update o.boxes _ _ b = _
    split
    · rename_i hb
      rw [hb, Function.update_self, List.append_assoc]
    · rename_i hb
      rw [Function.update_of_ne (Ne.symm hb), List.append_nil]
  · have hav := h.available
    rw [hpc, if_neg WorkerPC.noConfusion] at hav
    exact hav

/-- A message is taken out of a box. -/
theorem get_inv (h : OfficeInv numBoxes a o) {box : Word} (hg : o.get box = .ok o') :
    OfficeInv numBoxes a o' := by
  unfold Office.get at hg
  split at hg
  · cases hg
  rename_i m ms hb
  cases hg
  refine ⟨h.transmitted, h.arrived, h.good, h.boxed, fun b => ?_, h.available, h.nonneg, h.idle⟩
  have hbox := h.boxes b
  show Function.update o.got box _ b ++ Function.update o.boxes box ms b = o.inBox b
  by_cases e : b = box
  · subst e
    rw [Function.update_self, Function.update_self, List.append_assoc, List.singleton_append, ← hb]
    exact hbox
  · rw [Function.update_of_ne e, Function.update_of_ne e]
    exact hbox

/-- **No `ASSERT` of `PostalDelivery` fails.** -/
theorem postalDelivery_inv (h : OfficeInv numBoxes a o) :
    ∃ o', o.postalDelivery numBoxes = .ok o' ∧ OfficeInv numBoxes a o' := by
  unfold Office.postalDelivery
  split
  · rename_i hpc
    exact ⟨_, rfl, wait_inv h hpc⟩
  · rename_i hpc
    exact ⟨_, rfl, receive_inv h hpc⟩
  · rename_i pktHdr hpc
    exact deliver_inv h hpc

theorem officeStep_inv {e : Office.Event} (h : OfficeInv numBoxes a o)
    (hs : o.step numBoxes a e = .ok o') : OfficeInv numBoxes a o' := by
  cases e with
  | checkPktAvail =>
      obtain ⟨o₁, ho, hinv, -⟩ := checkPktAvail_inv h
      rw [Office.step, ho] at hs
      cases hs
      exact hinv
  | sendDone =>
      simp only [Office.step] at hs
      split at hs
      · cases hs
        exact sendDone_inv h
      · cases hs
  | sent =>
      simp only [Office.step] at hs
      split at hs
      · cases hs
        exact sent_inv h
      · cases hs
  | postalDelivery =>
      obtain ⟨o₁, ho, hinv⟩ := postalDelivery_inv h
      simp only [Office.step] at hs
      split at hs
      · rw [ho] at hs
        cases hs
        exact hinv
      · cases hs
  | get box => exact get_inv h hs

/-- A packet is put into the socket. -/
theorem OfficeInv.transmit (h : OfficeInv numBoxes a o) {frame : Frame} {p : Word × Mail}
    (hgood : Good numBoxes a p.2 ∧ p.2.pktHdr.src = p.1) (hf : frame.mail = p.2) :
    OfficeInv numBoxes a { o with
      socket := o.socket ++ [frame]
      transmitted := o.transmitted ++ [p] } where
  transmitted := by
    show (o.transmitted ++ [p]).map Prod.snd = o.arrived ++ (o.socket ++ [frame]).map Frame.mail
    rw [List.map_append, List.map_append, h.transmitted, List.append_assoc, List.map_singleton,
      List.map_singleton, hf]
  arrived := h.arrived
  good q hq := by
    rcases List.mem_append.mp hq with hq | hq
    · exact h.good q hq
    · rw [List.mem_singleton.mp hq]
      exact hgood
  boxed := h.boxed
  boxes := h.boxes
  available := h.available
  nonneg := h.nonneg
  idle := h.idle

end

/-! ### All machines -/

section
variable {numBoxes : Int} {s s' : State} {a : Word}

/-- Every machine is in order. -/
def Inv (numBoxes : Int) (s : State) : Prop := ∀ a, OfficeInv numBoxes a (s a)

theorem Inv.update (h : Inv numBoxes s) {o : Office} (ho : OfficeInv numBoxes a o) :
    Inv numBoxes (Function.update s a o) := by
  intro b
  by_cases e : b = a
  · subst e
    rw [Function.update_self]
    exact ho
  · rw [Function.update_of_ne e]
    exact h b

/-- What `PostOffice::Send` hands to the network. -/
theorem fillIn_good {pktHdr hdr : PacketHeader} {mailHdr : MailHeader} (data : Nat → Byte)
    (h : fillIn numBoxes a pktHdr mailHdr = .ok hdr) :
    Good numBoxes hdr.dest (mail hdr mailHdr data) ∧ hdr.src = a := by
  unfold fillIn at h
  split at h
  · rename_i hfits
    split at h
    · rename_i hbox
      cases h
      refine ⟨⟨rfl, hbox, hfits, ?_⟩, rfl⟩
      show headerSize + mailHdr.length.toNat =
        (mailHdr.length + BitVec.ofNat 32 headerSize).toNat
      unfold MaxMailSize MaxPacketSize MaxWireSize headerSize at *
      rw [BitVec.toNat_add, BitVec.toNat_ofNat]
      omega
    · cases h
  · cases h

/-- **A packet that is not lost is in the socket of the machine it is for.** -/
theorem postSend_inv (h : Inv numBoxes s) {pktHdr : PacketHeader} {mailHdr : MailHeader}
    {data heap heap' : Nat → Byte} {lost : Bool}
    (hs : postSend numBoxes s a pktHdr mailHdr data heap heap' lost = .ok s') :
    Inv numBoxes s' := by
  unfold postSend at hs
  simp only [bind, Except.bind] at hs
  split at hs
  · cases hs
  rename_i hdr hfill
  obtain ⟨hgood, hsrc⟩ := fillIn_good data hfill
  have hsending : Inv numBoxes (Function.update s a { s a with
      sends := (s a).sends + 1
      sending := true }) := by
    have hbusy : s a = { s a with sendBusy := false } := by rw [← (h a).idle]
    refine h.update ?_
    rw [hbusy]
    exact (h a).congr rfl
  unfold networkSend at hs
  split at hs
  · split at hs
    · cases hs
      exact hsending
    · cases hs
      exact hsending.update ((hsending hdr.dest).transmit ⟨hgood, hsrc⟩
        (frame_mail hgood.packet.1 hgood.length))
  · cases hs

theorem step_inv {act : Action} (h : Inv numBoxes s) (hs : step numBoxes s act = .ok s') :
    Inv numBoxes s' := by
  cases act with
  | send a pktHdr mailHdr data heap heap' lost =>
      simp only [step] at hs
      split at hs
      · exact postSend_inv h hs
      · cases hs
  | event a e =>
      simp only [step, bind, Except.bind] at hs
      split at hs
      · cases hs
      rename_i o ho
      cases hs
      exact h.update (officeStep_inv (h a) ho)

/-- The machines before anything is sent. -/
def init (inHdr : Word → PacketHeader) (inbox buffer : Word → Nat → Byte) : State := fun a =>
  .new (inHdr a) (inbox a) (buffer a)

theorem run_inv {inHdr : Word → PacketHeader} {inbox buffer : Word → Nat → Byte}
    (h : Steps (step numBoxes) always (init inHdr inbox buffer) s) : Inv numBoxes s :=
  h.inv (fun a => new_inv numBoxes a _ _ _) fun _ _ _ hi _ hs => step_inv hi hs

/-- **Mail is delivered intact, in order and once.**  The packets read from the socket of a machine
are, in this order, those put into its boxes, the one in the hands of the postal worker and the one
in the inbox; those transmitted to it are these and what is still in the socket, each with the
machine that sent it.  A message is in the box its header names.  A poll leaves the packet that is in
the inbox there, and no `ASSERT` of `CheckPktAvail` or `PostalDelivery` fails. -/
theorem mail_delivered {inHdr : Word → PacketHeader} {inbox buffer : Word → Nat → Byte}
    (h : Steps (step numBoxes) always (init inHdr inbox buffer) s) (a : Word) :
    (s a).arrived = (s a).appended.map Prod.snd ++ (s a).hand ++ (s a).held ∧
      (s a).transmitted.map Prod.snd = (s a).arrived ++ (s a).socket.map Frame.mail ∧
      (∀ p ∈ (s a).transmitted, p.2.pktHdr.src = p.1) ∧
      (∀ p ∈ (s a).appended, p.1 = p.2.mailHdr.dest) ∧
      (∀ b, (s a).got b ++ (s a).boxes b = (s a).inBox b) ∧
      (∃ o, (s a).checkPktAvail a = .ok o ∧ ∃ l, o.held = (s a).held ++ l) ∧
      ∃ o, (s a).postalDelivery numBoxes = .ok o := by
  have hinv := run_inv h a
  obtain ⟨o, ho, -, hheld⟩ := checkPktAvail_inv hinv
  obtain ⟨o', ho', -⟩ := postalDelivery_inv hinv
  exact ⟨hinv.arrived, hinv.transmitted, fun p hp => (hinv.good p hp).2, hinv.boxed, hinv.boxes,
    ⟨o, ho, hheld⟩, o', ho'⟩

end

/-- Machine 1 sends two bytes to box 0 of machine 2, where they arrive. -/
def twoBytes : List Action :=
  [.send 1 ⟨2, 0, 0⟩ ⟨0, 0, 2⟩ (fun _ => 7) (fun _ => 0) (fun _ => 0) false,
    .event 2 .checkPktAvail, .event 2 .postalDelivery, .event 2 .postalDelivery,
    .event 2 .postalDelivery]

theorem mail_delivered_two : ∃ s,
    run (step 1) always (init (fun _ => ⟨0, 0, 0⟩) (fun _ _ => 0) fun _ _ => 0) twoBytes = some s ∧
    (s 2).appended = [(0, ⟨⟨2, 1, 14⟩, ⟨0, 0, 2⟩, [7, 7]⟩)] ∧
    (s 2).arrived = (s 2).appended.map Prod.snd ++ (s 2).hand ++ (s 2).held := by
  obtain ⟨s, hs, happ⟩ : ∃ s, run (step 1) always
      (init (fun _ => ⟨0, 0, 0⟩) (fun _ _ => 0) fun _ _ => 0) twoBytes = some s ∧
      (s 2).appended = [(0, ⟨⟨2, 1, 14⟩, ⟨0, 0, 2⟩, [7, 7]⟩)] := ⟨_, rfl, by decide⟩
  exact ⟨s, hs, happ, (mail_delivered (.of_run hs) 2).1⟩

end Nachos.Network
