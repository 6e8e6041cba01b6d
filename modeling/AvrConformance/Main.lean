import AvrConformance.Program
import AvrConformance.Link.Client
import Std.Async.DNS
import Std.Async.TCP
import Std.Async.Timer

/-!
# The command

This is the program in the outside world: files, the standard streams, the
system clock and a TCP connection. It answers the program's errands and decides
nothing. A session is a pure function of the bytes that have come, so an
exchange that runs out of bytes is simply conducted again once more have come;
what it has transmitted by then is the beginning of what it transmits next time.
-/

namespace AvrConformance.Command

open Link (Session Exchange Transmission)
open Std.Async

/-- A connection to a target. -/
structure Wire where
  socket : TCP.Socket.Client
  timeoutMs : Option UInt64

/-- What waiting for bytes comes to. -/
inductive Received where
  | bytes (row : List UInt8)
  | over
  | failed (message : String)

/-- The first line of a system error. -/
def reason (e : IO.Error) : String := (e.toString.splitOn "\n").headD ""

/-- Bytes behind each other, if there are any. -/
def Received.ofChunk : Option ByteArray → Received
  | some chunk => if chunk.isEmpty then .over else .bytes chunk.toList
  | none => .over

namespace Wire

/-- How many bytes are received at a time at most. -/
def chunkSize : UInt64 := 4096

/-- Waiting for bytes, no longer than the timeout. -/
def receive (w : Wire) : IO Received := do
  try
    match w.timeoutMs with
    | none => return .ofChunk (← (w.socket.recv? chunkSize).block)
    | some limit =>
      let pause ← (Sleep.mk (.ofNat limit.toNat)).block
      Async.block <| Selectable.one #[
        .case (w.socket.recvSelector chunkSize) fun chunk => return .ofChunk chunk,
        .case pause.selector fun _ => return .failed "timed out"]
  catch e => return .failed (reason e)

/-- Sending what was transmitted beyond what is sent already. -/
def send (w : Wire) (transmissions : Array Transmission) (sent : Nat) : IO Unit := do
  let fresh := String.join ((transmissions.toList.drop sent).map Transmission.text)
  if !fresh.isEmpty then (w.socket.send fresh.toUTF8).block

/-- Conducting an exchange, again and again until enough bytes have come. -/
partial def conduct {α : Type} (w : Wire) (x : Exchange Unit α) (s : Session Unit) (sent : Nat) :
    IO (Except LinkError α × Session Unit) := do
  let (result, after) := x.conduct s
  let failure : Option String ← try
      w.send after.sent sent
      pure none
    catch e => pure (some (reason e))
  match failure, result with
  | some message, _ => return (.error (.transport message), { after with poisoned := true })
  | none, .error .closed =>
    match ← w.receive with
    | .bytes row => w.conduct x { s with incoming := s.incoming ++ row } after.sent.size
    | .over => return (result, after)
    | .failed message => return x.conduct { s with ending := .failed message }
  | none, _ => return (result, after)

end Wire

/-- What the command holds while it runs. -/
structure Holdings where
  /-- The level of the log. -/
  threshold : Level
  wire : IO.Ref (Option Wire)
  session : IO.Ref (Option (Session Unit))

namespace Holdings

def clock : IO Timestamp := do
  return ⟨(← Std.Time.Timestamp.now).toSecondsSinceUnixEpoch.val⟩

/-- Logging a note, if it is severe enough. -/
def log (h : Holdings) (n : Note) : IO Unit := do
  if n.within h.threshold then
    IO.eprint (n.record s!"[{(← clock).compact} {n.level.name}]")

/-- Keeping a session, and logging what it noted. -/
def keep (h : Holdings) (s : Session Unit) : IO Unit := do
  for n in s.notes do
    h.log n
  h.session.set (some { s with notes := #[], sent := #[], ending := .closed })

def request (h : Holdings) (q : Request) : IO q.Answer := do
  match ← h.wire.get, ← h.session.get with
  | some wire, some s =>
    let (answer, s) ← wire.conduct (Exchange.serve q) s 0
    h.keep s
    return answer
  | _, _ => return .error .notConnected

/-- The first of some addresses that accepts a connection. -/
def dial (port : UInt16) : List Std.Net.IPAddr → IO TCP.Socket.Client
  | [] => throw (IO.userError "no address")
  | address :: rest => do
    let place : Std.Net.SocketAddress :=
      match address with
      | .v4 a => .v4 ⟨a, port⟩
      | .v6 a => .v6 ⟨a, port⟩
    try
      let socket ← TCP.Socket.Client.mk
      (socket.connect place).block
      return socket
    catch e => if rest.isEmpty then throw e else dial port rest

/-- Connecting to a target and shaking hands with it. -/
def connect (h : Holdings) (target : TargetSettings) : IO (Except DriveError Unit) := do
  try
    let addresses ← (DNS.getAddrInfo target.host (toString target.port)).block
    let socket ← dial target.port addresses.toList
    socket.noDelay
    let wire : Wire := ⟨socket, target.ioTimeoutMs⟩
    h.wire.set (some wire)
    let fresh := Session.fresh target.address [] .closed ()
    let greeted ← wire.conduct (Exchange.handshake target.noAck) fresh 0
    let (answer, s) := Session.settle greeted
    wire.send s.sent greeted.2.sent.size
    h.keep s
    return answer
  catch e => return .error (.connection target.address (reason e))

def release (h : Holdings) : IO Unit := do
  match ← h.wire.get, ← h.session.get with
  | some wire, some s =>
    let s := s.release
    try
      wire.send s.sent 0
      wire.socket.shutdown.block
    catch _ => pure ()
    h.keep s
  | _, _ => return ()

/-- Doing something with a file, where a failure is told in words. -/
def withFile {α : Type} (work : IO α) : IO (Except String α) := do
  try return .ok (← work)
  catch e => return .error (reason e)

def answer (h : Holdings) : (e : Errand) → IO e.Answer
  | .inquire (.request q) => h.request q
  | .inquire (.note n) => h.log n
  | .inquire .clock => clock
  | .readFile path => withFile (IO.FS.readFile path)
  | .writeFile path text => withFile (IO.FS.writeFile path text)
  | .connect target => h.connect target
  | .release => h.release
  | .print text => IO.print text
  | .complain line => IO.eprintln line

/-- A program in the outside world. -/
def perform {α : Type} (h : Holdings) : Program α → IO α
  | .done a => return a
  | .ask e next => do h.perform (next (← h.answer e))

end Holdings

/-- The level of the log that the environment asks for. Without a wish only
errors are logged. -/
def threshold : IO Level := do
  return ((← IO.getEnv "AVR_CONFORMANCE_LOG").bind Level.ofName?).getD .error

end AvrConformance.Command

open AvrConformance in
def main (words : List String) : IO UInt32 := do
  let holdings : Command.Holdings :=
    ⟨← Command.threshold, ← IO.mkRef none, ← IO.mkRef none⟩
  holdings.perform (Program.run words)
