import Nachos.Lib.Runs
import Nachos.Network.Packet

/-!
# Network — PostOffice

Machines that send each other mail (network/post.cc over machine/network.cc).  On every machine one
thread calls `PostOffice::Send`, and the postal worker runs `PostalDelivery`; between them come the
interrupts `SendDone` and `CheckPktAvail`.  A packet that is not lost is appended to the socket of
the machine it is for, and is read from there in the same order.

`inbox` holds one packet.  It is guarded by `inHdr.length` on the side of the interrupt, and by the
semaphore `messageAvailable` on that of the worker: `OfficeInv` says that these agree.
-/

namespace Nachos.Network
open Lib

inductive Sem where
  | messageAvailable | messageSent
  deriving DecidableEq, Repr

/-- The postal worker, and the thread that sends. -/
def worker : Tid := 0
def sender : Tid := 1

/-- Where the postal worker is in the loop of `PostalDelivery`. -/
inductive WorkerPC where
  /-- In `messageAvailable->P()`. -/
  | wait
  /-- Before `network->Receive(buffer)`. -/
  | receive
  /-- Behind it, with the header it has returned. -/
  | put (pktHdr : PacketHeader)
  deriving DecidableEq, Repr

/-- A machine with its network address: `class PostOffice` and `class Network`.  `sends` is the
number of `SendDone` interrupts scheduled, and `sending` says whether the sender is in
`messageSent->P()`.  The last four are history: the packets put into the socket, each with the
machine it comes from; those read from it; the messages put into the boxes, each with its box; and
those taken out again. -/
structure Office where
  sync : Sync Sem
  sendBusy : Bool
  sends : Nat
  sending : Bool
  socket : List Frame
  inHdr : PacketHeader
  inbox : Nat → Byte
  pc : WorkerPC
  buffer : Nat → Byte
  boxes : Word → List Mail
  transmitted : List (Word × Mail)
  arrived : List Mail
  appended : List (Word × Mail)
  got : Word → List Mail

/-- The machines by their addresses. -/
abbrev State := Word → Office

namespace Office

/-- A new machine: `inHdr.length` is set, the rest of its buffers is arbitrary. -/
def new (inHdr : PacketHeader) (inbox buffer : Nat → Byte) : Office where
  sync := ⟨fun _ => .new 0, fun _ => .ready⟩
  sendBusy := false
  sends := 0
  sending := false
  socket := []
  inHdr := { inHdr with length := 0 }
  inbox := inbox
  pc := .wait
  buffer := buffer
  boxes _ := []
  transmitted := []
  arrived := []
  appended := []
  got _ := []

/-- A packet is read in, and the post office is told. -/
def readPacket (o : Office) (frame : Frame) (socket : List Frame) : Office :=
  { o with
    socket := socket
    inHdr := Header.ofBytes frame.bytes
    inbox := bcopy (fun x => frame.bytes (headerSize + x)) o.inbox 0
      (Header.ofBytes frame.bytes).length.toNat
    arrived := o.arrived ++ [frame.mail]
    sync := o.sync.V .messageAvailable }

/-- `Network::CheckPktAvail`. -/
def checkPktAvail (o : Office) (ident : Word) : Except Stop Office :=
  if o.inHdr.length ≠ 0 then .ok o
  else
    match o.socket with
    | [] => .ok o
    | frame :: socket =>
        if (Header.ofBytes frame.bytes).dest = ident ∧
            (Header.ofBytes frame.bytes).length.toNat ≤ MaxPacketSize then
          .ok (o.readPacket frame socket)
        else .error .assertFails

/-- `Network::SendDone`. -/
def sendDone (o : Office) : Office :=
  { o with sendBusy := false, sends := o.sends - 1, sync := o.sync.V .messageSent }

/-- One test of `messageSent->P()`. -/
def sent (o : Office) : Office :=
  match o.sync.P sender .messageSent with
  | (sync, true) => { o with sync := sync, sending := false }
  | (sync, false) => { o with sync := sync }

/-- One test of `messageAvailable->P()`. -/
def wait (o : Office) : Office :=
  match o.sync.P worker .messageAvailable with
  | (sync, true) => { o with sync := sync, pc := .receive }
  | (sync, false) => { o with sync := sync }

/-- `network->Receive(buffer)`. -/
def receive (o : Office) : Office :=
  { o with
    inHdr := { o.inHdr with length := 0 }
    buffer := if o.inHdr.length ≠ 0 then bcopy o.inbox o.buffer 0 o.inHdr.length.toNat else o.buffer
    pc := .put o.inHdr }

/-- `MailBox::Put`. -/
def putMail (o : Office) (box : Word) (m : Mail) : Office :=
  { o with
    boxes := Function.update o.boxes box (o.boxes box ++ [m])
    appended := o.appended ++ [(box, m)]
    pc := .wait }

/-- The rest of the loop of `PostalDelivery`, with the `ASSERT` of `Mail::Mail`. -/
def deliver (o : Office) (numBoxes : Int) (pktHdr : PacketHeader) : Except Stop Office :=
  if 0 ≤ (Header.ofBytes o.buffer).dest.toInt ∧ (Header.ofBytes o.buffer).dest.toInt < numBoxes then
    if (Header.ofBytes o.buffer).length.toNat ≤ MaxMailSize then
      .ok (o.putMail (Header.ofBytes o.buffer).dest (decode pktHdr o.buffer))
    else .error .assertFails
  else .error .assertFails

/-- The postal worker goes on. -/
def postalDelivery (o : Office) (numBoxes : Int) : Except Stop Office :=
  match o.pc with
  | .wait => .ok o.wait
  | .receive => .ok o.receive
  | .put pktHdr => o.deliver numBoxes pktHdr

/-- `MailBox::Get`, which on an empty box gets into the `ASSERT(FALSE)` of `Condition::Wait`. -/
def get (o : Office) (box : Word) : Except Stop Office :=
  match o.boxes box with
  | [] => .error .assertFails
  | m :: ms => .ok { o with
      boxes := Function.update o.boxes box ms
      got := Function.update o.got box (o.got box ++ [m]) }

/-- What happens on one machine. -/
inductive Event where
  | checkPktAvail
  | sendDone
  | sent
  | postalDelivery
  | get (box : Word)
  deriving DecidableEq, Repr

def step (numBoxes : Int) (ident : Word) (o : Office) : Event → Except Stop Office
  | .checkPktAvail => o.checkPktAvail ident
  | .sendDone => if o.sends ≠ 0 then .ok o.sendDone else .error .disabled
  | .sent =>
      if o.sync.status sender = .ready ∧ o.sending = true then .ok o.sent else .error .disabled
  | .postalDelivery =>
      if o.sync.status worker = .ready then o.postalDelivery numBoxes else .error .disabled
  | .get box => o.get box

end Office

/-- `PostOffice::Send` up to the call of the network: the header it fills in. -/
def fillIn (numBoxes : Int) (netAddr : Word) (pktHdr : PacketHeader) (mailHdr : MailHeader) :
    Except Stop PacketHeader :=
  if mailHdr.length.toNat ≤ MaxMailSize then
    if 0 ≤ mailHdr.dest.toInt ∧ mailHdr.dest.toInt < numBoxes then
      .ok { pktHdr with
        src := netAddr
        length := mailHdr.length + BitVec.ofNat 32 headerSize }
    else .error .assertFails
  else .error .assertFails

/-- `SendToSocket`. -/
def sendToSocket (s : State) (ident : Word) (hdr : PacketHeader) (frame : Frame) (m : Mail) : State :=
  Function.update s hdr.dest { s hdr.dest with
    socket := (s hdr.dest).socket ++ [frame]
    transmitted := (s hdr.dest).transmitted ++ [(ident, m)] }

/-- `Network::Send`, behind which the sender is in `messageSent->P()`.  `m` is the message that is
sent. -/
def networkSend (s : State) (ident : Word) (hdr : PacketHeader) (data heap : Nat → Byte) (m : Mail)
    (lost : Bool) : Except Stop State :=
  if (s ident).sendBusy = false ∧ 0 < hdr.length.toNat ∧ hdr.length.toNat ≤ MaxPacketSize ∧
      hdr.src = ident then
    if lost then
      .ok (Function.update s ident { s ident with
        sends := (s ident).sends + 1
        sending := true })
    else
      .ok (sendToSocket (Function.update s ident { s ident with
        sends := (s ident).sends + 1
        sending := true }) ident hdr (frame hdr data heap) m)
  else .error .assertFails

/-- `PostOffice::Send`. -/
def postSend (numBoxes : Int) (s : State) (netAddr : Word) (pktHdr : PacketHeader)
    (mailHdr : MailHeader) (data heap heap' : Nat → Byte) (lost : Bool) : Except Stop State := do
  let hdr ← fillIn numBoxes netAddr pktHdr mailHdr
  networkSend s netAddr hdr (payload mailHdr data heap) heap' (mail hdr mailHdr data) lost

inductive Action where
  | send (a : Word) (pktHdr : PacketHeader) (mailHdr : MailHeader) (data heap heap' : Nat → Byte)
    (lost : Bool)
  | event (a : Word) (e : Office.Event)

def step (numBoxes : Int) (s : State) : Action → Except Stop State
  | .send a pktHdr mailHdr data heap heap' lost =>
      if (s a).sync.status sender = .ready ∧ (s a).sending = false then
        postSend numBoxes s a pktHdr mailHdr data heap heap' lost
      else .error .disabled
  | .event a e => do
      let o ← (s a).step numBoxes a e
      .ok (Function.update s a o)

end Nachos.Network
