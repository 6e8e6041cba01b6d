import AvrConformance.Snapshot.Block
import AvrConformance.Stop

/-!
# Failures of a request

A request to the target fails because the stream carried no answer, because
the peer refused the packet or replied with an error, or because the reply is
not what the request calls for.
-/

namespace AvrConformance

/-- What is wrong with a malformed reply. -/
inductive Malformation where
  /-- The characters behind a packet are no checksum. -/
  | trailer
  /-- The payload is no Unicode text. -/
  | encoding
  /-- The checksum is wrong, and the session cannot ask again. -/
  | checksum
  /-- The checksum was wrong every time. -/
  | checksums (attempts : Nat)
  /-- The reply is empty, by which a stub says that it does not know the command. -/
  | unsupported
  /-- The reply should have been `OK`. -/
  | notOk (reply : String)
  /-- A row of hexadecimal digits ends in the middle of a byte. -/
  | oddHex (reply : String)
  /-- A row of hexadecimal digits holds something else. -/
  | badHex (reply : String)
  /-- A run length is missing or too small, or there is nothing to repeat. -/
  | runLength (payload : String)
  /-- The reply is no stop reply. -/
  | stopReply (reply : String)
  /-- One packet of memory holds another number of bytes than asked for. -/
  | packetLength (asked : Nat) (address : UInt32) (got : Nat)
  /-- The memory read holds another number of bytes than asked for. -/
  | blockLength (asked : Nat) (address : UInt32) (got : Nat)
  /-- A defect known by its description alone. -/
  | described (text : String)
  deriving DecidableEq

def Malformation.text : Malformation → String
  | trailer => "checksum digits"
  | encoding => "non-UTF-8 payload"
  | checksum => "checksum mismatch"
  | checksums attempts => s!"reply failed checksum {attempts} times"
  | unsupported => "command not supported by stub"
  | notOk reply => s!"expected OK, got '{reply}'"
  | oddHex reply => s!"odd-length hex '{reply}'"
  | badHex reply => s!"bad hex '{reply}'"
  | runLength payload => s!"bad run length in '{payload}'"
  | stopReply reply => s!"stop reply '{reply}'"
  | packetLength asked address got =>
    s!"read of {asked} bytes at {Text.hex 1 address.toNat} returned {got}"
  | blockLength asked address got =>
    s!"asked for {asked} bytes at {Text.hex 6 address.toNat}, got {got}"
  | described text => text

/-- Why a request failed. -/
inductive LinkError where
  /-- The transport below failed, and says why. -/
  | transport (message : String)
  /-- The stream ended. -/
  | closed
  /-- The session was released before. -/
  | notConnected
  /-- The peer refused the packet this often. -/
  | rejected (attempts : Nat)
  /-- The target replied with an error. -/
  | errorReply (reply : String)
  /-- The reply is longer than this many bytes. -/
  | oversized (limit : Nat)
  | malformed (defect : Malformation)
  /-- The reply should have been a register block. -/
  | registers (error : BlockError)
  /-- The target stopped in a way that leaves it unable to go on. -/
  | unexpectedStop (stop : Stop)
  deriving DecidableEq

def LinkError.message : LinkError → String
  | transport message => message
  | closed => "connection closed by target"
  | notConnected => "session already closed"
  | rejected attempts => s!"packet rejected {attempts} times"
  | errorReply reply => s!"target replied with error {reply}"
  | oversized limit => s!"reply exceeds {limit} bytes"
  | malformed defect => s!"malformed reply: {defect.text}"
  | registers error => error.message
  | unexpectedStop stop => s!"target {stop.text}"

/-- Why the target could not be driven. -/
inductive DriveError where
  /-- No connection to this address, and why. -/
  | connection (address cause : String)
  /-- A request failed during this action. -/
  | request (action : String) (cause : LinkError)
  deriving DecidableEq

namespace DriveError

/-- The error in words, without its cause. -/
def message : DriveError → String
  | connection address _ => s!"cannot connect to target at {address}"
  | request action _ => s!"target I/O failed while {action}"

/-- The words of the error's cause. -/
def cause : DriveError → String
  | connection _ cause => cause
  | request _ cause => cause.message

def chain (e : DriveError) : List String := [e.message, e.cause]

end DriveError

/-- A chain of causes in one line, the outermost first. -/
def chainText (chain : List String) : String := String.intercalate ": " chain

end AvrConformance
