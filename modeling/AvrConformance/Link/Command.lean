import AvrConformance.Link.Packet
import AvrConformance.Snapshot.Block
import AvrConformance.Text.Number

/-!
# Commands

The commands of the debugging protocol that a session speaks, and their
payloads. Addresses and counts are hexadecimal without leading zeros.
-/

namespace AvrConformance.Link

/-- A command to the stub. -/
inductive Command where
  /-- Do without acknowledgements from now on. -/
  | startNoAck
  /-- Tell why the target is stopped. -/
  | lastStop
  | readMemory (address : UInt32) (count : Nat)
  | writeMemory (address : UInt32) (data : List UInt8)
  | readRegisters
  | writeRegisters (registers : Snapshot)
  | resume (signal : Option UInt8)
  | step
  | detach
  deriving DecidableEq

def Command.payload : Command → String
  | startNoAck => "QStartNoAckMode"
  | lastStop => "?"
  | readMemory address count =>
    "m" ++ Text.hexDigits 1 address.toNat ++ "," ++ Text.hexDigits 1 count
  | writeMemory address data =>
    "M" ++ Text.hexDigits 1 address.toNat ++ "," ++ Text.hexDigits 1 data.length ++ ":"
      ++ Text.Hex.ofBytes data
  | readRegisters => "g"
  | writeRegisters registers => "G" ++ registers.toBlock
  | resume (some signal) => "C" ++ Text.Hex.ofBytes [signal]
  | resume none => "c"
  | step => "s"
  | detach => "D"

end AvrConformance.Link
