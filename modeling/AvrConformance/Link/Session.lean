import AvrConformance.Link.Command
import AvrConformance.Link.Error
import AvrConformance.Note

/-!
# Sessions

A session talks to the stub of a debugger. The peer is known by what it sends.
Some bytes may lie ready from the start, and a peer may send more in reaction
to each transmission. When a session asks for more than has come, the stream is
at its end, and says how.

A session that has failed in the middle of an exchange may be out of step with
its peer. It is then poisoned, which means that it takes leave in silence.
-/

namespace AvrConformance.Link

/-- A peer sends bytes in reaction to what is transmitted to it. -/
class Peer (π : Type) where
  react : π → Transmission → List UInt8 × π

/-- A peer whose bytes lie ready from the start, and that never sends more. -/
instance : Peer Unit := ⟨fun _ _ => ([], ())⟩

/-- What a read meets behind the last byte. -/
inductive Ending where
  /-- The peer ended the stream. -/
  | closed
  /-- The read fails, with this message. -/
  | failed (message : String)
  deriving DecidableEq

def Ending.error : Ending → LinkError
  | closed => .closed
  | failed message => .transport message

/-- A session with a stub. -/
structure Session (π : Type) where
  /-- The address of the peer. -/
  address : String
  /-- The bytes that have come and are not read. -/
  incoming : List UInt8
  ending : Ending
  peer : π
  /-- False once the session is released. -/
  connected : Bool
  /-- Is the session in the mode without acknowledgements? -/
  noAck : Bool
  /-- Has an exchange failed? -/
  poisoned : Bool
  /-- Everything transmitted so far. -/
  sent : Array Transmission
  /-- The log so far. -/
  notes : Array Note

namespace Session

variable {π : Type}

def fresh (address : String) (incoming : List UInt8) (ending : Ending) (peer : π) :
    Session π where
  address
  incoming
  ending
  peer
  connected := true
  noAck := false
  poisoned := false
  sent := #[]
  notes := #[]

def withNote (n : Note) (s : Session π) : Session π := { s with notes := s.notes.push n }

/-- Bytes that came behind those not read yet. -/
def enqueue (incoming fresh : List UInt8) : List UInt8 :=
  match fresh with
  | [] => incoming
  | _ => incoming ++ fresh

/-- Queueing is putting one list behind the other. -/
@[simp] theorem enqueue_eq (incoming fresh : List UInt8) :
    enqueue incoming fresh = incoming ++ fresh := by
  cases fresh <;> simp [enqueue]

/-- A session after a transmission, with the peer's reaction. -/
def transmit [Peer π] (t : Transmission) (s : Session π) : Session π :=
  let (fresh, peer) := Peer.react s.peer t
  { s with sent := s.sent.push t, incoming := enqueue s.incoming fresh, peer }

/-- Everything transmitted, as it stands on the wire. -/
def transmitted (s : Session π) : String := String.join (s.sent.toList.map Transmission.text)

/-- Letting go of a session on any way out. Unless it is poisoned it says so to
the peer, and never waits for a reply. -/
def release [Peer π] (s : Session π) : Session π :=
  if s.connected then
    let s := if s.poisoned then s else s.transmit (.packet Command.detach.payload)
    withNote ⟨.debug, s!"released connection to {s.address}"⟩ { s with connected := false }
  else s

end Session

end AvrConformance.Link
