import Nachos.Lib.Words
import Nachos.Machine.Machine
import Nachos.Threads.Semaphore

/-!
# Network — packets

The format of a message on the wire (machine/network.h, network/post.h): a `PacketHeader`, a
`MailHeader` and the data, in a frame of 64 bytes whose rest is whatever the buffer held.

`PostOffice::Send` puts the two inner parts together and `Network::Send` all three; the machine that
gets the frame takes them apart again in two steps, and `decode_packet` says that it finds what was
sent.
-/

namespace Nachos.Network
open Lib

def MaxWireSize : Nat := 64

/-- `sizeof(PacketHeader)`, and `sizeof(MailHeader)`. -/
def headerSize : Nat := 12

def MaxPacketSize : Nat := MaxWireSize - headerSize
def MaxMailSize : Nat := MaxPacketSize - headerSize

/-- The layout the two headers share: `to`, `from` and `length` (`to` and `from` are words of Lean). -/
structure Header where
  dest : Word
  src : Word
  length : Word
  deriving DecidableEq, Repr

/-- `class PacketHeader`: the machines, and the bytes behind it. -/
abbrev PacketHeader := Header

/-- `class MailHeader`: the mail boxes, and the bytes of the message. -/
abbrev MailHeader := Header

namespace Header

def word (hdr : Header) (i : Nat) : Word :=
  if i = 0 then hdr.dest else if i = 1 then hdr.src else hdr.length

/-- A header as it lies in memory. -/
def bytes (hdr : Header) : Nat → Byte := fun x => byteOf (hdr.word (x / 4)) (x % 4)

/-- The header at the start of a buffer. -/
def ofBytes (f : Nat → Byte) : Header := ⟨wordAt f 0, wordAt f 4, wordAt f 8⟩

/-- **A header is read back from its bytes.** -/
theorem ofBytes_eq {f : Nat → Byte} {hdr : Header} (h : ∀ x < headerSize, f x = hdr.bytes x) :
    ofBytes f = hdr := by
  have hword : ∀ i < 3, wordAt f (4 * i) = hdr.word i := by
    intro i hi
    apply wordAt_eq
    intro k hk
    rw [h _ (by unfold headerSize; omega), bytes]
    congr 2 <;> omega
  unfold ofBytes
  rw [hword 0 (by omega), hword 1 (by omega), hword 2 (by omega)]
  rfl

theorem ofBytes_congr {f g : Nat → Byte} (h : ∀ x < headerSize, f x = g x) :
    ofBytes f = ofBytes g := by
  unfold ofBytes headerSize at *
  rw [wordAt_congr fun k hk => h _ (by omega), wordAt_congr fun k hk => h _ (by omega),
    wordAt_congr fun k hk => h _ (by omega)]

end Header

/-- `bcopy` of `n` bytes to `dst + off`. -/
def bcopy (src dst : Nat → Byte) (off n : Nat) : Nat → Byte := fun x =>
  if off ≤ x ∧ x < off + n then src (x - off) else dst x

theorem bcopy_of_lt {src dst : Nat → Byte} {off n x : Nat} (h : x < off) :
    bcopy src dst off n x = dst x := if_neg (by omega)

theorem bcopy_of_le {src dst : Nat → Byte} {off n x : Nat} (h : off ≤ x) (hn : x < off + n) :
    bcopy src dst off n x = src (x - off) := if_pos ⟨h, hn⟩

/-- `class Mail`: the bytes of `data` that count. -/
structure Mail where
  pktHdr : PacketHeader
  mailHdr : MailHeader
  data : List Byte
  deriving DecidableEq, Repr

/-- A message whose `MailHeader` and data lie in a buffer. -/
def decode (pktHdr : PacketHeader) (buffer : Nat → Byte) : Mail where
  pktHdr := pktHdr
  mailHdr := Header.ofBytes buffer
  data := (List.range (Header.ofBytes buffer).length.toNat).map fun j => buffer (headerSize + j)

/-- Two buffers that agree on a message. -/
theorem decode_congr {f g : Nat → Byte} (pktHdr : PacketHeader)
    (h : ∀ x < headerSize + (Header.ofBytes f).length.toNat, g x = f x) :
    decode pktHdr g = decode pktHdr f := by
  have hhdr : Header.ofBytes g = Header.ofBytes f :=
    Header.ofBytes_congr fun x hx => h x (by omega)
  unfold decode
  rw [hhdr]
  congr 1
  refine List.map_congr_left fun j hj => h _ ?_
  have := List.mem_range.mp hj
  omega

/-- What goes over the wire. -/
abbrev Frame := Fin MaxWireSize → Byte

def Frame.bytes (frame : Frame) : Nat → Byte := fun x =>
  if h : x < MaxWireSize then frame ⟨x, h⟩ else 0

/-- The message in a frame. -/
def Frame.mail (frame : Frame) : Mail :=
  decode (Header.ofBytes frame.bytes) fun x => frame.bytes (headerSize + x)

/-- The buffer of `PostOffice::Send`: the `MailHeader` and the data. -/
def payload (mailHdr : MailHeader) (data heap : Nat → Byte) : Nat → Byte :=
  bcopy data (bcopy mailHdr.bytes heap 0 headerSize) headerSize mailHdr.length.toNat

/-- The buffer of `Network::Send`. -/
def frame (hdr : PacketHeader) (data heap : Nat → Byte) : Frame := fun x =>
  bcopy data (bcopy hdr.bytes heap 0 headerSize) headerSize hdr.length.toNat x.val

/-- The message that is sent. -/
def mail (pktHdr : PacketHeader) (mailHdr : MailHeader) (data : Nat → Byte) : Mail where
  pktHdr := pktHdr
  mailHdr := mailHdr
  data := (List.range mailHdr.length.toNat).map data

section
variable {pktHdr : PacketHeader} {mailHdr : MailHeader} {data heap : Nat → Byte}

theorem payload_header {x : Nat} (hx : x < headerSize) :
    payload mailHdr data heap x = mailHdr.bytes x := by
  unfold payload
  rw [bcopy_of_lt hx, bcopy_of_le (Nat.zero_le x) (by omega), Nat.sub_zero]

theorem payload_data {j : Nat} (hj : j < mailHdr.length.toNat) :
    payload mailHdr data heap (headerSize + j) = data j := by
  unfold payload
  rw [bcopy_of_le (Nat.le_add_right ..) (by omega), Nat.add_sub_cancel_left]

/-- The message in a payload. -/
theorem decode_payload (heap : Nat → Byte) :
    decode pktHdr (payload mailHdr data heap) = mail pktHdr mailHdr data := by
  have hhdr : Header.ofBytes (payload mailHdr data heap) = mailHdr :=
    Header.ofBytes_eq fun x hx => payload_header hx
  unfold decode mail
  rw [hhdr]
  congr 1
  exact List.map_congr_left fun j hj => payload_data (List.mem_range.mp hj)

theorem frame_header {x : Nat} (hx : x < headerSize) :
    (frame pktHdr data heap).bytes x = pktHdr.bytes x := by
  unfold Frame.bytes frame
  rw [dif_pos (by unfold headerSize MaxWireSize at *; omega)]
  dsimp only
  rw [bcopy_of_lt hx, bcopy_of_le (Nat.zero_le x) (by omega), Nat.sub_zero]

theorem frame_data {x : Nat} (hlen : pktHdr.length.toNat ≤ MaxPacketSize)
    (hx : x < pktHdr.length.toNat) :
    (frame pktHdr data heap).bytes (headerSize + x) = data x := by
  unfold Frame.bytes frame
  rw [dif_pos (by unfold MaxPacketSize headerSize MaxWireSize at *; omega)]
  dsimp only
  rw [bcopy_of_le (Nat.le_add_right ..) (by omega), Nat.add_sub_cancel_left]

theorem ofBytes_frame : Header.ofBytes (frame pktHdr data heap).bytes = pktHdr :=
  Header.ofBytes_eq fun _ hx => frame_header hx

/-- **The message in a frame is the one that was sent.** -/
theorem frame_mail {heap' : Nat → Byte} (hlen : pktHdr.length.toNat ≤ MaxPacketSize)
    (hmail : headerSize + mailHdr.length.toNat = pktHdr.length.toNat) :
    (frame pktHdr (payload mailHdr data heap) heap').mail = mail pktHdr mailHdr data := by
  unfold Frame.mail
  rw [ofBytes_frame, ← decode_payload heap]
  refine decode_congr pktHdr fun x hx => frame_data hlen ?_
  have hhdr : Header.ofBytes (payload mailHdr data heap) = mailHdr :=
    Header.ofBytes_eq fun x hx => payload_header hx
  rw [hhdr] at hx
  omega

end

end Nachos.Network
