import AvrConformance.Target

/-!
# Scripted targets

A scripted target answers requests from a list, whatever they ask, and keeps
what it was asked. An answer that does not fit its request is used up, and the
request fails as it does when no answer is left.
-/

namespace AvrConformance

/-- One answer of a script: a failure, or what it has to say to each sort of
request. -/
structure ScriptedAnswer where
  failure : Option LinkError := none
  /-- The answer to reading memory, whatever was to be read. -/
  bytes : Option (List UInt8) := none
  /-- The answer to reading the registers. -/
  registers : Option Snapshot := none
  /-- The answer to running and stepping. -/
  stop : Option Stop := none
  /-- Whether writing and letting go succeed. -/
  done : Bool := false
  deriving DecidableEq

namespace ScriptedAnswer

def reply? (a : ScriptedAnswer) : (q : Request) → Option q.Reply
  | .readMemory _ _ => a.bytes
  | .writeMemory _ _ => if a.done then some () else none
  | .readRegisters => a.registers
  | .writeRegisters _ => if a.done then some () else none
  | .resume _ => a.stop
  | .step => a.stop
  | .close => if a.done then some () else none

/-- The answer as that to a request. A failure fits every request. -/
def answer (a : ScriptedAnswer) (q : Request) : q.Answer :=
  match a.failure with
  | some error => .error error
  | none =>
    match a.reply? q with
    | some reply => .ok reply
    | none => .error .closed

end ScriptedAnswer

/-- A script: the answers left, and the requests made. -/
structure Script where
  answers : List ScriptedAnswer
  requests : Array Request

namespace Script

def target : Target Script := fun q s =>
  match s.answers with
  | [] => (.error .closed, { s with requests := s.requests.push q })
  | first :: rest => (first.answer q, ⟨rest, s.requests.push q⟩)

end Script

end AvrConformance
