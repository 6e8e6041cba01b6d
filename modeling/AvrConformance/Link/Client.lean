import AvrConformance.Link.Exchange
import AvrConformance.Target

/-!
# The client

A session serves the requests to a target. Each request becomes one or more
exchanges: memory is moved in pieces, and every reply is held against what its
command calls for. A client begins by shaking hands.
-/

namespace AvrConformance.Link

/-- The most bytes of memory that one command moves. -/
def maxTransfer : Nat := 64

/-- How many commands it takes to move a number of bytes. -/
def transfers (count : Nat) : Nat := (count + maxTransfer - 1) / maxTransfer

namespace Exchange

variable {π : Type}

/-! ## Requests -/

/-- Reading memory by a number of commands, as much at a time as one may move. -/
def readChunks [Peer π] (address : UInt32) (count : Nat) : Nat → Exchange π (List UInt8)
  | 0 => return []
  | left + 1 => do
    let size := min maxTransfer count
    let reply ← transact (.readMemory address size)
    let chunk ← ofExcept (Reply.data reply >>= Reply.bytes)
    if chunk.length = size then
      let rest ← readChunks (address + UInt32.ofNat size) (count - size) left
      return chunk ++ rest
    else fail (.malformed (.packetLength size address chunk.length))

/-- Reading memory. The count has no bound: that the space for so many bytes cannot be set
aside is not modelled. -/
def readMemory [Peer π] (address : UInt32) (count : Nat) : Exchange π (List UInt8) :=
  readChunks address count (transfers count)

/-- Writing memory by a number of commands, as much at a time as one may move. -/
def writeChunks [Peer π] (address : UInt32) (data : List UInt8) : Nat → Exchange π Unit
  | 0 => return ()
  | left + 1 => do
    let reply ← transact (.writeMemory address (data.take maxTransfer))
    ofExcept (Reply.ok reply)
    writeChunks (address + UInt32.ofNat maxTransfer) (data.drop maxTransfer) left

def writeMemory [Peer π] (address : UInt32) (data : List UInt8) : Exchange π Unit :=
  writeChunks address data (transfers data.length)

def readRegisters [Peer π] : Exchange π Snapshot := do
  let reply ← transact .readRegisters
  ofExcept (Reply.registers reply)

def writeRegisters [Peer π] (registers : Snapshot) : Exchange π Unit := do
  let reply ← transact (.writeRegisters registers)
  ofExcept (Reply.ok reply)

def stopAfter [Peer π] (command : Command) : Exchange π Stop := do
  let reply ← transact command
  ofExcept (Reply.stop reply)

/-- Saying farewell, to which any reply will do. A poisoned session says nothing. -/
def farewell [Peer π] : Exchange π Unit := do
  if (← look).poisoned then return ()
  else
    let _ ← transact .detach
    return ()

/-- Taking leave. The session is released whatever comes of the farewell. -/
def close [Peer π] : Exchange π Unit := do
  let s ← look
  if s.connected then
    let parted ← outcome farewell
    change fun s => { s with connected := false }
    note .info s!"disconnected from {s.address}"
    ofExcept parted
  else return ()

/-- What a session does for a request. -/
def serve [Peer π] : (q : Request) → Exchange π q.Reply
  | .readMemory address count => readMemory address count
  | .writeMemory address data => writeMemory address data
  | .readRegisters => readRegisters
  | .writeRegisters registers => writeRegisters registers
  | .resume signal => stopAfter (.resume signal)
  | .step => stopAfter .step
  | .close => close

/-! ## Shaking hands -/

/-- Asking the stub to do without acknowledgements, which it may decline. -/
def negotiate [Peer π] : Exchange π Unit := do
  let reply ← transact .startNoAck
  if reply = "OK" then change fun s => { s with noAck := true }
  else note .debug "stub declined no-ack mode"

/-- The beginning of a session: the mode without acknowledgements is asked for
if wanted, and the target tells why it is stopped. -/
def handshake [Peer π] (wantNoAck : Bool) : Exchange π Unit := do
  if wantNoAck then negotiate else pure ()
  let stop ← stopAfter .lastStop
  note .debug s!"initial stop: {stop.text}"

end Exchange

namespace Session

variable {π : Type}

/-- A session as a target. -/
def target [Peer π] : Target (Session π) := fun q s => (Exchange.serve q).conduct s

/-- The bench of a session, whose log is the session's, at a standing clock. -/
def bench [Peer π] (now : Timestamp) : Bench (Session π) where
  target := target
  note := withNote
  clock _ := now

/-- What becomes of a session after shaking hands: it is announced, or else released. -/
def settle [Peer π] : Except LinkError Unit × Session π → Except DriveError Unit × Session π
  | (.ok (), s) => (.ok (), s.withNote ⟨.info, s!"connected to target at {s.address}"⟩)
  | (.error e, s) => (.error (.request "handshaking" e), s.release)

/-- Shaking hands over a fresh session. -/
def start [Peer π] (wantNoAck : Bool) (s : Session π) : Except DriveError Unit × Session π :=
  settle ((Exchange.handshake wantNoAck).conduct s)

end Session

end AvrConformance.Link
