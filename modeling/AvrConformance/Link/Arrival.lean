import AvrConformance.Link.Packet

/-!
# What arrives

A client reads the bytes of its peer in two ways. It waits for an
acknowledgement, where the start of a packet counts as one and stays unread,
and it takes the next packet. Both pass over bytes that mean nothing there,
and both say what is left unread.
-/

namespace AvrConformance.Link

/-- The acknowledgement in a row of bytes: was the packet accepted, and what
follows. None if the row holds no acknowledgement. -/
def takeAck : List UInt8 → Option (Bool × List UInt8)
  | [] => none
  | b :: rest =>
    if b = packetStart then some (true, b :: rest)
    else if b = 0x2B then some (true, rest)
    else if b = 0x2D then some (false, rest)
    else takeAck rest

/-- What taking a packet comes to. -/
inductive Arrival where
  /-- A payload and the checksum that was sent with it. -/
  | packet (payload : List UInt8) (sum : UInt8)
  /-- A payload that goes on past the limit. -/
  | oversized
  /-- A payload without a checksum behind it. -/
  | noTrailer
  /-- The bytes ran out. -/
  | ended

/-- The longest payload that is accepted, in bytes. -/
def packetLimit : Nat := 4096

/-- The bytes behind the start of the next packet. -/
def seekPacket : List UInt8 → List UInt8
  | [] => []
  | b :: rest => if b = packetStart then rest else seekPacket rest

/-- A payload up to its end mark, of at most `room` bytes. -/
inductive Payload where
  | complete (bytes rest : List UInt8)
  | oversized (rest : List UInt8)
  | ended

def Payload.cons (b : UInt8) : Payload → Payload
  | complete bytes rest => complete (b :: bytes) rest
  | oversized rest => oversized rest
  | ended => ended

/-- Taking a payload of at most `room` bytes. -/
def takePayload (room : Nat) : List UInt8 → Payload
  | [] => .ended
  | b :: rest =>
    if b = packetEnd then .complete [] rest
    else
      match room with
      | 0 => .oversized rest
      | room + 1 => (takePayload room rest).cons b

/-- The checksum that two bytes write. -/
def trailer? (high low : UInt8) : Option UInt8 :=
  Text.Hex.lenientByte? (Char.ofNat high.toNat) (Char.ofNat low.toNat)

/-- Taking the next packet, and what is left unread behind it. -/
def takePacket (incoming : List UInt8) : Arrival × List UInt8 :=
  match takePayload packetLimit (seekPacket incoming) with
  | .ended => (.ended, [])
  | .oversized rest => (.oversized, rest)
  | .complete payload (high :: low :: rest) =>
    match trailer? high low with
    | some sum => (.packet payload sum, rest)
    | none => (.noTrailer, rest)
  | .complete _ _ => (.ended, [])

end AvrConformance.Link
