import AvrConformance.Target

/-!
# Driving a target

On top of a target's requests this layer gives memory two regions, checks that
a read of memory yields what was asked for, and demands that the target can go
on after it stops. Each failure says during which action it happened.
-/

namespace AvrConformance

/-- A region of memory with addresses of its own. -/
inductive Region where
  | code
  | data
  deriving DecidableEq

namespace Region

/-- Where the region begins in the target's address space. -/
def base : Region → UInt32
  | code => 0
  | data => 0x800000

/-- The target's address of an address in the region. -/
def locate (region : Region) (address : UInt32) : UInt32 := region.base + address

def name : Region → String
  | code => "Code"
  | data => "Data"

end Region

/-- A procedure that may fail. -/
abbrev Drive (α : Type) : Type := ExceptT DriveError Procedure α

namespace Drive

variable {σ α β : Type}

/-- What a procedure that may fail comes to on a bench, and the state it leaves. -/
def conduct (d : Drive α) (b : Bench σ) (s : σ) : Except DriveError α × σ :=
  Procedure.run (ExceptT.run d) b s

def request (action : String) (q : Request) : Drive q.Reply :=
  ExceptT.mk do
    let answer ← Procedure.request q
    return answer.mapError (DriveError.request action)

def fail (action : String) (cause : LinkError) : Drive α :=
  throw (DriveError.request action cause)

def note (level : Level) (message : String) : Drive Unit :=
  ExceptT.lift (Procedure.note level message)

@[simp] theorem conduct_pure (a : α) (b : Bench σ) (s : σ) :
    conduct (pure a) b s = (.ok a, s) := rfl

/-- A procedure goes on where the first part leaves off, unless that fails. -/
@[simp] theorem conduct_bind (d : Drive α) (f : α → Drive β) (b : Bench σ) (s : σ) :
    conduct (d >>= f) b s =
      match d.conduct b s with
      | (.ok a, s) => (f a).conduct b s
      | (.error e, s) => (.error e, s) := by
  simp only [conduct, ExceptT.run_bind, Procedure.run_bind]
  rcases Procedure.run (ExceptT.run d) b s with ⟨_ | a, s⟩ <;> rfl

@[simp] theorem conduct_request (action : String) (q : Request) (b : Bench σ) (s : σ) :
    (request action q).conduct b s =
      ((b.target q s).1.mapError (DriveError.request action), (b.target q s).2) := rfl

@[simp] theorem conduct_fail (action : String) (cause : LinkError) (b : Bench σ) (s : σ) :
    (fail action cause : Drive α).conduct b s = (.error (.request action cause), s) := rfl

@[simp] theorem conduct_note (level : Level) (message : String) (b : Bench σ) (s : σ) :
    (note level message).conduct b s = (.ok (), b.note ⟨level, message⟩ s) := rfl

@[simp] theorem conduct_ite (c : Prop) [Decidable c] (d e : Drive α) (b : Bench σ) (s : σ) :
    conduct (if c then d else e) b s = if c then d.conduct b s else e.conduct b s := by
  split <;> rfl

def writeBlock (region : Region) (address : UInt32) (data : List UInt8) : Drive Unit := do
  let place := region.locate address
  note .debug
    (s!"write {region.name}[{Text.hex 1 address.toNat}] ({data.length} bytes) at "
      ++ Text.hex 6 place.toNat)
  request "writing memory" (.writeMemory place data)

def readBlock (region : Region) (address : UInt32) (count : Nat) : Drive (List UInt8) := do
  let place := region.locate address
  let data ← request "reading memory" (.readMemory place count)
  if data.length = count then return data
  else fail "reading memory" (.malformed (.blockLength count place data.length))

/-- Writing a program image to the start of code memory. -/
def loadProgram (image : List UInt8) : Drive Unit := writeBlock .code 0 image

def readRegisters : Drive Snapshot := request "reading registers" .readRegisters

def writeRegisters (registers : Snapshot) : Drive Unit :=
  request "writing registers" (.writeRegisters registers)

/-- A stop after which the target can go on. -/
def requireStopped (action : String) (stop : Stop) : Drive Stop :=
  if stop.isStopped then return stop else fail action (.unexpectedStop stop)

def resume (signal : Option UInt8) : Drive Stop := do
  requireStopped "resuming" (← request "resuming" (.resume signal))

def step : Drive Stop := do
  requireStopped "stepping" (← request "stepping" .step)

/-- Resetting the target, by resuming it with the signal that asks for it. -/
def reset : Drive Unit := do
  let _ ← resume (some Stop.hangup)

def close : Drive Unit := request "closing" .close

end Drive

end AvrConformance
