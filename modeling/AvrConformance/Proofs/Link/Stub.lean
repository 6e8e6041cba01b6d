import AvrConformance.Link.Arrival
import AvrConformance.Link.Session
import AvrConformance.Proofs.Link.Commands
import AvrConformance.Proofs.Link.RunLength
import AvrConformance.Target

/-!
# Stubs

A stub stands between the wire and a machine that serves requests. It reads what a
session transmits, performs it on the machine, and replies. The protocol leaves it
choices, all of which are made by its `Manner`:

* the case of every hexadecimal digit, the letter of a signal, and the run-length
  encoding of every reply, with as many counts behind a character as it likes;
* to refuse a command, up to twice, before it is performed;
* to garble a reply, up to twice, before it is sent undamaged;
* to grant or to decline the mode without acknowledgements, in which it neither
  refuses nor garbles.

A manner carries the proofs that its choices are ones that the protocol leaves.
-/

namespace AvrConformance

open Text.Hex (IsDigitOf Spells isDigit byte?)

/-! ## Machines -/

/-- The two digits that tell of an error. -/
structure ErrorCode where
  high : Char
  low : Char
  highDigit : isDigit high = true
  lowDigit : isDigit low = true

/-- The error as it stands in a reply. -/
def ErrorCode.text (e : ErrorCode) : List Char := ['E', e.high, e.low]

/-- The failure of a request that a target answers with the error. -/
def ErrorCode.failure (e : ErrorCode) : LinkError := .errorReply (String.ofList e.text)

/-- A machine that serves the requests to a target, or says by an error that it does
not, and that can tell why it stopped last. -/
structure Machine (σ : Type) where
  serve : (q : Request) → σ → Except ErrorCode q.Reply × σ
  lastStop : σ → Stop

/-- The machine itself as a target. -/
def Machine.target {σ : Type} (μ : Machine σ) : Target σ := fun q x =>
  ((μ.serve q x).1.mapError ErrorCode.failure, (μ.serve q x).2)

namespace Link

/-! ## Responses -/

/-- What a reply can say. -/
inductive Response where
  | ok
  | data (bytes : List UInt8)
  | stop (s : Stop)
  | error (e : ErrorCode)
  /-- The command is not supported. -/
  | unsupported

/-- The text says the response. -/
inductive Says : Response → List Char → Prop
  | ok : Says .ok ['O', 'K']
  | data {bytes : List UInt8} {text : List Char} (spelling : Spells bytes text) :
      Says (.data bytes) text
  | signal {letter : Char} {number : UInt8} {text : List Char}
      (kind : letter = 'S' ∨ letter = 'T') (spelling : Spells [number] text) :
      Says (.stop (.signal number)) (letter :: text)
  | exited {status : UInt8} {text : List Char} (spelling : Spells [status] text) :
      Says (.stop (.exited status)) ('W' :: text)
  | terminated {number : UInt8} {text : List Char} (spelling : Spells [number] text) :
      Says (.stop (.terminated number)) ('X' :: text)
  | error (e : ErrorCode) : Says (.error e) e.text
  | unsupported : Says .unsupported []

/-- What comes of a request, as a response. -/
def respond {α σ : Type} (said : α → Response) :
    Except ErrorCode α × σ → Response × σ
  | (.ok a, x) => (said a, x)
  | (.error e, x) => (.error e, x)

end Link

open Link (Response Command respond)

/-- What a machine does at a command. The mode without acknowledgements is granted by
whoever speaks for it. -/
def Machine.perform {σ : Type} (μ : Machine σ) (granting : Bool) (c : Command) (x : σ) :
    Response × σ :=
  match c with
  | .startNoAck => (if granting then .ok else .unsupported, x)
  | .lastStop => (.stop (μ.lastStop x), x)
  | .readMemory address count => respond .data (μ.serve (.readMemory address count) x)
  | .writeMemory address data => respond (fun _ => .ok) (μ.serve (.writeMemory address data) x)
  | .readRegisters =>
    respond (fun registers : Snapshot => .data registers.toBytes) (μ.serve .readRegisters x)
  | .writeRegisters registers => respond (fun _ => .ok) (μ.serve (.writeRegisters registers) x)
  | .resume signal => respond .stop (μ.serve (.resume signal) x)
  | .step => respond .stop (μ.serve .step x)
  | .detach => respond (fun _ => .ok) (μ.serve .close x)

namespace Link

/-! ## Manners -/

/-- A packet on the wire, given the two digits of its checksum. -/
def packet (payload : List UInt8) (high low : Char) : List UInt8 :=
  packetStart :: (payload ++ [packetEnd, code high, code low])

/-- A packet that arrives damaged: its digits write a checksum, but not its own. -/
structure Garbled where
  payload : List UInt8
  high : Char
  low : Char
  sum : UInt8
  free : packetEnd ∉ payload
  short : payload.length ≤ packetLimit
  highDigit : IsDigitOf (sum.toNat / 16) high
  lowDigit : IsDigitOf sum.toNat low
  wrong : sum ≠ checksum payload

/-- The two digits of a byte, in either case. -/
structure Trailer (sum : UInt8) where
  high : Char
  low : Char
  highDigit : IsDigitOf (sum.toNat / 16) high
  lowDigit : IsDigitOf sum.toNat low

/-- How a stub makes the choices that the protocol leaves it. They may depend on a whim,
which changes with everything that the stub hears. -/
structure Manner (ω : Type) where
  /-- To refuse a command. -/
  refuses : ω → Bool
  /-- To garble a reply. -/
  garbles : ω → Option Garbled
  /-- To grant the mode without acknowledgements. -/
  grants : ω → Bool
  /-- How to say a response. -/
  wording : ω → (r : Response) → { text : List Char // Says r text }
  /-- How to encode a text. If the text fits into a packet, so does the encoding. -/
  encoding : ω → (text : List Char) → { encoded : List Char //
    Encodes text encoded ∧ (text.length ≤ packetLimit → encoded.length ≤ packetLimit) }
  /-- How to write a checksum. -/
  trailer : ω → (sum : UInt8) → Trailer sum
  next : ω → Transmission → ω

/-- An undamaged packet that says a response. -/
def Manner.packet {ω : Type} (m : Manner ω) (whim : ω) (r : Response) : List UInt8 :=
  let payload := codes (m.encoding whim (m.wording whim r).1).1
  let digits := m.trailer whim (checksum payload)
  Link.packet payload digits.high digits.low

/-- The manner of a stub that makes nothing of its choices: lowercase digits, no runs, no
refusals, no damage, and acknowledgements throughout. -/
def Manner.plain : Manner Unit where
  refuses _ := false
  garbles _ := none
  grants _ := false
  wording _
    | .ok => ⟨_, .ok⟩
    | .data bytes => ⟨_, .data (Text.Hex.spells_ofByte bytes)⟩
    | .stop (.signal number) => ⟨_, .signal (.inl rfl) (Text.Hex.spells_ofByte [number])⟩
    | .stop (.exited status) => ⟨_, .exited (Text.Hex.spells_ofByte [status])⟩
    | .stop (.terminated number) => ⟨_, .terminated (Text.Hex.spells_ofByte [number])⟩
    | .error e => ⟨_, .error e⟩
    | .unsupported => ⟨_, .unsupported⟩
  encoding _ text := ⟨text, .refl text, id⟩
  trailer _ _ := ⟨_, _, .inl rfl, .inl rfl⟩
  next _ _ := ()

instance : Inhabited (Manner Unit) := ⟨Manner.plain⟩

/-! ## The stub -/

/-- A reply that is not acknowledged yet. -/
structure Pending where
  response : Response
  /-- How often it has been garbled. -/
  garbled : Nat
  /-- Does the mode without acknowledgements begin behind it? -/
  granting : Bool

/-- A stub over a machine, with a manner of its own. -/
structure Stub {σ ω : Type} (μ : Machine σ) (m : Manner ω) where
  machine : σ
  whim : ω
  noAck : Bool
  /-- How often the present command has been refused. -/
  refusals : Nat
  pending : Option Pending

namespace Stub

variable {σ ω : Type} {μ : Machine σ} {m : Manner ω}

/-- A stub that has heard nothing yet. -/
def fresh (x : σ) (whim : ω) : Stub μ m := ⟨x, whim, false, 0, none⟩

/-- Sending a reply that is to be acknowledged. -/
def send (p : Pending) (s : Stub μ m) : List UInt8 × Stub μ m :=
  match m.garbles s.whim with
  | some g =>
    if p.garbled < 2 then
      (packet g.payload g.high g.low,
        { s with pending := some { p with garbled := p.garbled + 1 } })
    else (m.packet s.whim p.response, { s with pending := some p })
  | none => (m.packet s.whim p.response, { s with pending := some p })

/-- What the stub does at a command. A refused command is not performed. -/
def hear (c : Command) (s : Stub μ m) : List UInt8 × Stub μ m :=
  if s.noAck = false ∧ m.refuses s.whim = true ∧ s.refusals < 2 then
    ([0x2D], { s with refusals := s.refusals + 1 })
  else
    let granting := decide (c = .startNoAck) && m.grants s.whim
    let (response, machine) := μ.perform granting c s.machine
    if s.noAck then (m.packet s.whim response, { s with machine })
    else
      let (bytes, s) := send ⟨response, 0, granting⟩ { s with machine, refusals := 0 }
      (0x2B :: bytes, s)

/-- The stub at an acknowledgement of its reply. -/
def acknowledged (s : Stub μ m) : Stub μ m :=
  { s with pending := none, noAck := s.noAck || s.pending.any Pending.granting }

/-- What the stub does at a transmission. It goes by what stands on the wire. -/
def react (s : Stub μ m) (t : Transmission) : List UInt8 × Stub μ m :=
  let s := { s with whim := m.next s.whim t }
  match t with
  | .packet _ =>
    match Command.decode? t.text with
    | some c => s.hear c
    | none => ([], s)
  | .ack => ([], s.acknowledged)
  | .nak =>
    match s.pending with
    | some p => s.send p
    | none => ([], s)

instance : Peer (Stub μ m) := ⟨react⟩

end Stub

end Link

end AvrConformance
