import AvrConformance.Link.Arrival
import AvrConformance.Link.Reply
import AvrConformance.Link.Session

/-!
# Exchanges

An exchange is a step of a session that may fail, and that keeps what it did if
it fails. The basic one sends a payload until the peer accepts it, and receives
a reply until one is undamaged; both give up after a number of attempts. The
lemmas on `conduct` say what each way of putting exchanges together does to the
session.
-/

namespace AvrConformance.Link

/-- A step of a session: a result or a failure, and the session afterwards. -/
@[ext]
structure Exchange (π α : Type) where
  conduct : Session π → Except LinkError α × Session π

/-- How often a packet is sent, and how often a reply is read, before giving up. -/
def maxAttempts : Nat := 3

namespace Exchange

variable {π α β : Type}

/-! ## Putting exchanges together -/

def done (a : α) : Exchange π α := ⟨fun s => (.ok a, s)⟩

def fail (e : LinkError) : Exchange π α := ⟨fun s => (.error e, s)⟩

/-- One step after another, unless the first fails. -/
def andThen (x : Exchange π α) (f : α → Exchange π β) : Exchange π β :=
  ⟨fun s =>
    match x.conduct s with
    | (.ok a, s) => (f a).conduct s
    | (.error e, s) => (.error e, s)⟩

instance : Monad (Exchange π) where
  pure := done
  bind := andThen

/-- A result that is known already. -/
def ofExcept : Except LinkError α → Exchange π α
  | .ok a => done a
  | .error e => fail e

/-- A step whose failure is part of its result. -/
def outcome (x : Exchange π α) : Exchange π (Except LinkError α) :=
  ⟨fun s => (.ok (x.conduct s).1, (x.conduct s).2)⟩

def look : Exchange π (Session π) := ⟨fun s => (.ok s, s)⟩

def change (f : Session π → Session π) : Exchange π Unit := ⟨fun s => (.ok (), f s)⟩

@[simp] theorem conduct_pure (a : α) (s : Session π) :
    (pure a : Exchange π α).conduct s = (.ok a, s) := rfl

@[simp] theorem conduct_bind (x : Exchange π α) (f : α → Exchange π β) (s : Session π) :
    (x >>= f).conduct s =
      match x.conduct s with
      | (.ok a, s) => (f a).conduct s
      | (.error e, s) => (.error e, s) := rfl

@[simp] theorem conduct_fail (e : LinkError) (s : Session π) :
    (fail e : Exchange π α).conduct s = (.error e, s) := rfl

@[simp] theorem conduct_ofExcept (r : Except LinkError α) (s : Session π) :
    (ofExcept r).conduct s = (r, s) := by
  cases r <;> rfl

@[simp] theorem conduct_outcome (x : Exchange π α) (s : Session π) :
    x.outcome.conduct s = (.ok (x.conduct s).1, (x.conduct s).2) := rfl

@[simp] theorem conduct_look (s : Session π) :
    (look : Exchange π (Session π)).conduct s = (.ok s, s) := rfl

@[simp] theorem conduct_change (f : Session π → Session π) (s : Session π) :
    (change f).conduct s = (.ok (), f s) := rfl

@[simp] theorem conduct_ite (c : Prop) [Decidable c] (x y : Exchange π α) (s : Session π) :
    (if c then x else y).conduct s = if c then x.conduct s else y.conduct s := by
  split <;> rfl

/-! ## Steps of a session -/

def note (level : Level) (message : String) : Exchange π Unit :=
  change (Session.withNote ⟨level, message⟩)

/-- Transmitting. Writes are taken to succeed: that the connection refuses a byte, which
fails an exchange like the end of the stream, is not modelled. -/
def write [Peer π] (t : Transmission) : Exchange π Unit := change (Session.transmit t)

/-- Failing for want of bytes. -/
def starve : Exchange π α :=
  ⟨fun s => (.error s.ending.error, { s with incoming := [] })⟩

/-- Waiting for an acknowledgement: was the packet accepted? -/
def awaitAck : Exchange π Bool := do
  match takeAck (← look).incoming with
  | some (accepted, rest) =>
    change fun s => { s with incoming := rest }
    return accepted
  | none => starve

def awaitPacket : Exchange π Arrival :=
  ⟨fun s =>
    let (arrival, rest) := takePacket s.incoming
    (.ok arrival, { s with incoming := rest })⟩

/-- Sending a packet, at most `left` times more, until the peer accepts it.
Without acknowledgements it is sent once. -/
def deliver [Peer π] (payload : String) : Nat → Exchange π Unit
  | 0 => fail (.rejected maxAttempts)
  | left + 1 => do
    write (.packet payload)
    if (← look).noAck then return ()
    else if ← awaitAck then return ()
    else
      note .warn s!"target NAKed '{payload}' (attempt {maxAttempts - left})"
      deliver payload left

/-- Accepting the payload of an undamaged packet, and saying so if the peer
waits for it. -/
def accept [Peer π] (payload : List UInt8) : Exchange π String := do
  if (← look).noAck then pure () else write .ack
  match bytesText? payload with
  | some text => return text
  | none => fail (.malformed .encoding)

/-- Receiving the payload of a packet, asking at most `left` times for one
whose checksum is right. -/
def receive [Peer π] : Nat → Exchange π String
  | 0 => fail (.malformed (.checksums maxAttempts))
  | left + 1 => do
    match ← awaitPacket with
    | .ended => starve
    | .oversized => fail (.oversized packetLimit)
    | .noTrailer => fail (.malformed .trailer)
    | .packet payload sum =>
      if sum = checksum payload then accept payload
      else
        note .warn "reply checksum mismatch, requesting retransmission"
        if (← look).noAck then fail (.malformed .checksum)
        else
          write .nak
          receive left

/-- One exchange: a payload goes out and the payload of the reply comes back,
with its runs expanded. -/
def exchange [Peer π] (payload : String) : Exchange π String := do
  if (← look).connected then
    note .debug s!"-> {payload}"
    deliver payload maxAttempts
    let reply ← receive maxAttempts
    note .debug s!"<- {reply}"
    ofExcept (Reply.expand reply)
  else fail .notConnected

/-- An exchange of a command, which poisons the session if it fails. -/
def transact [Peer π] (command : Command) : Exchange π String := do
  match ← outcome (exchange command.payload) with
  | .ok reply => return reply
  | .error e =>
    change fun s => { s with poisoned := true }
    fail e

end Exchange

end AvrConformance.Link
