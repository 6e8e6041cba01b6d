import AvrConformance.Link.Error
import AvrConformance.Link.RunLength

/-!
# Replies

What a reply says depends on the command. An error reply, `E` and two
hexadecimal digits, may answer any command; no row of bytes can be mistaken
for it, since it has an odd number of digits.
-/

namespace AvrConformance.Link.Reply

/-- Is this `E` and two hexadecimal digits? -/
def isError (reply : String) : Bool :=
  match reply.toList with
  | ['E', a, b] => Text.Hex.isDigit a && Text.Hex.isDigit b
  | _ => false

/-- A reply that carries data, unless it is an error. -/
def data (reply : String) : Except LinkError String :=
  if isError reply then .error (.errorReply reply) else .ok reply

/-- A reply that should say `OK`. -/
def ok (reply : String) : Except LinkError Unit :=
  if reply = "OK" then .ok ()
  else if reply = "" then .error (.malformed .unsupported)
  else if isError reply then .error (.errorReply reply)
  else .error (.malformed (.notOk reply))

/-- The payload that a received payload stands for once runs are expanded. -/
def expand (payload : String) : Except LinkError String :=
  match RunLength.expand? payload with
  | some text => .ok text
  | none => .error (.malformed (.runLength payload))

/-- The bytes that a reply writes in hexadecimal. -/
def bytes (reply : String) : Except LinkError (List UInt8) :=
  if reply.utf8ByteSize % 2 ≠ 0 then .error (.malformed (.oddHex reply))
  else
    match Text.Hex.bytes? reply.toList with
    | some row => .ok row
    | none => .error (.malformed (.badHex reply))

/-- The stop that the letter of a stop reply tells, given its code. -/
def stopOf? (letter : Char) (code : UInt8) : Option Stop :=
  if letter = 'S' ∨ letter = 'T' then some (.signal code)
  else if letter = 'W' then some (.exited code)
  else if letter = 'X' then some (.terminated code)
  else none

/-- The stop that a text begins with: a letter and a code of two characters. -/
def leadingStop? : List Char → Option Stop
  | letter :: a :: b :: _ => (Text.Hex.lenientByte? a b).bind (stopOf? letter)
  | _ => none

def stop (reply : String) : Except LinkError Stop :=
  if isError reply then .error (.errorReply reply)
  else
    match leadingStop? reply.toList with
    | some s => .ok s
    | none => .error (.malformed (.stopReply reply))

/-- The registers that a reply carries as a register block. -/
def registers (reply : String) : Except LinkError Snapshot := do
  (Snapshot.ofBlock (← data reply)).mapError .registers

end AvrConformance.Link.Reply
