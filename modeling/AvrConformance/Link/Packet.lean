import AvrConformance.Text.Hex

/-!
# Packets

A payload travels as `$payload#cc`, where `cc` is the checksum of the payload's
bytes. What a client transmits is a row of packets and of single characters
that acknowledge a packet or ask for it again.
-/

namespace AvrConformance.Link

/-- The character that opens a packet. -/
def packetStart : UInt8 := 0x24

/-- The character between payload and checksum. -/
def packetEnd : UInt8 := 0x23

/-- The sum of the bytes modulo 256. -/
def checksum (bytes : List UInt8) : UInt8 := bytes.foldl (· + ·) 0

def textBytes (text : String) : List UInt8 := text.toUTF8.toList

/-- The text of a row of bytes, if they are well-formed Unicode. -/
def bytesText? (bytes : List UInt8) : Option String := String.fromUTF8? ⟨bytes.toArray⟩

def frame (payload : String) : String :=
  "$" ++ payload ++ "#" ++ Text.Hex.ofBytes [checksum (textBytes payload)]

/-- What a client transmits at a time. -/
inductive Transmission where
  /-- The packet received is good. -/
  | ack
  /-- The packet received is damaged, and is asked for again. -/
  | nak
  | packet (payload : String)
  deriving DecidableEq

def Transmission.text : Transmission → String
  | ack => "+"
  | nak => "-"
  | packet payload => frame payload

end AvrConformance.Link
