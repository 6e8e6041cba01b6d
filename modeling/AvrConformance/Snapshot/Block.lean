import AvrConformance.Snapshot
import AvrConformance.Text.Hex
import AvrConformance.LittleEndian

/-!
# The register block

The debugger moves a snapshot as one block of 39 bytes: the working registers
in order, the status register, the stack pointer in two bytes and the program
counter in four, least significant byte first. On the wire each byte is two
hexadecimal digits. A text is refused by its length first, and then by the
first pair that holds something else than digits.
-/

namespace AvrConformance

/-- Why a text is no register block. -/
inductive BlockError where
  /-- The text has this many bytes, or holds characters beyond ASCII. -/
  | length (digits : Nat)
  /-- The pair that starts at this offset is no byte. -/
  | badDigit (offset : Nat)
  deriving DecidableEq

namespace Snapshot

def blockBytes : Nat := 39

def blockDigits : Nat := 2 * blockBytes

/-- The bytes of a snapshot in block order. -/
def toBytes (s : Snapshot) : List UInt8 :=
  s.r.toList ++ [s.sreg] ++ LittleEndian.ofWord s.sp ++ LittleEndian.ofLong s.pc

/-- The snapshot that 39 bytes describe. -/
def ofBytes? (bytes : List UInt8) : Option Snapshot :=
  if h : bytes.length = 39 then
    some {
      r := Vector.ofFn fun n : Fin 32 => bytes[n.val]
      sreg := bytes[32]
      sp := LittleEndian.word bytes[33] bytes[34]
      pc := LittleEndian.long bytes[35] bytes[36] bytes[37] bytes[38] }
  else none

def toBlock (s : Snapshot) : String := Text.Hex.ofBytes s.toBytes

/-- The snapshot a register block describes. Once the length is right and every
character is a digit, the bytes are there, and the last error cannot arise. -/
def ofBlock (text : String) : Except BlockError Snapshot :=
  if text.utf8ByteSize ≠ blockDigits ∨ text.toList.any (fun c => 128 ≤ c.toNat) then
    .error (.length text.utf8ByteSize)
  else
    match text.toList.findIdx? (fun c => !Text.Hex.isDigit c) with
    | some position => .error (.badDigit (position / 2 * 2))
    | none =>
      match (Text.Hex.bytes? text.toList).bind ofBytes? with
      | some s => .ok s
      | none => .error (.length text.utf8ByteSize)

end Snapshot

namespace BlockError

def message : BlockError → String
  | length digits =>
    s!"register block holds {digits} hex digits, expected {Snapshot.blockDigits}"
  | badDigit offset => s!"invalid hex digit at offset {offset} of register block"

end BlockError

end AvrConformance
