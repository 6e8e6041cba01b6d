import AvrConformance.Case
import AvrConformance.Opcode.Table

/-!
# Settings

What a run needs to know: where the target is and how to talk to it, and what
to run on it and how. Every setting has a default.
-/

namespace AvrConformance

/-- Where the target is and how to talk to it. -/
structure TargetSettings where
  host : String := "localhost"
  port : UInt16 := 1212
  /-- How long to wait for the target, in milliseconds; without it, for ever. -/
  ioTimeoutMs : Option UInt64 := none
  /-- Ask the stub to do without acknowledgements. -/
  noAck : Bool := false
  deriving DecidableEq

def TargetSettings.address (t : TargetSettings) : String := s!"{t.host}:{t.port}"

/-- How one instruction is executed on the target. -/
inductive Strategy where
  /-- Step over the instruction. -/
  | step
  /-- Put a `BREAK` behind the instruction, and resume. -/
  | breakAfter
  deriving DecidableEq

/-- What to run, and how. -/
structure RunSettings where
  strategy : Strategy := .step
  /-- Reset the target before each case. -/
  resetBetweenCases : Bool := true
  /-- The code address that the instruction under test is written to. -/
  codeOrigin : UInt32 := 0
  stackPointer : UInt16 := 0x045F
  /-- The mnemonics to run; if there are none, the whole table. -/
  opcodes : List String := []
  /-- Where to write the report file, if anywhere. -/
  reportPath : Option String := none
  deriving DecidableEq

/-- All settings. -/
structure Settings where
  target : TargetSettings := {}
  run : RunSettings := {}
  deriving DecidableEq

/-- Why settings cannot be used. -/
inductive SettingsError where
  /-- The file cannot be read, and why. -/
  | read (path cause : String)
  /-- The file does not hold settings. -/
  | parse (path : String)
  | unknownOpcode (name : String)
  | emptyHost
  | zeroTimeout
  /-- The code address is odd. -/
  | oddOrigin (origin : UInt32)
  /-- A defect known by its description alone. -/
  | described (text : String)
  deriving DecidableEq

namespace SettingsError

/-- The error in words, without its cause. -/
def message : SettingsError → String
  | read path _ => s!"cannot read config file {path}"
  | parse path => s!"invalid config file {path}"
  | unknownOpcode name => s!"unknown opcode '{name}'"
  | emptyHost => "invalid setting: target.host is empty"
  | zeroTimeout => "invalid setting: target.io_timeout_ms must be positive"
  | oddOrigin origin =>
    s!"invalid setting: run.code_origin {Text.hex 1 origin.toNat} is not word aligned"
  | described text => s!"invalid setting: {text}"

/-- The error and its cause, as far as it has one in words. -/
def chain : SettingsError → List String
  | read path cause => [message (read path cause), cause]
  | e => [e.message]

end SettingsError

namespace RunSettings

/-- The registers every case starts from before its operand is bound. -/
def baseline (r : RunSettings) : Snapshot := .patterned r.codeOrigin r.stackPointer

/-- The opcode of a mnemonic. -/
def find (name : String) : Except SettingsError Opcode :=
  match Opcode.lookup? name with
  | some o => .ok o
  | none => .error (.unknownOpcode name)

/-- The opcodes to run, in order, or the first mnemonic that is unknown. -/
def selected (r : RunSettings) : Except SettingsError (List Opcode) :=
  if r.opcodes.isEmpty then .ok Opcode.table else r.opcodes.mapM find

end RunSettings

/-- Are these settings usable? The first defect counts: the host, the timeout,
the code address, then the mnemonics in order. -/
def Settings.validate (s : Settings) : Except SettingsError Unit :=
  if s.target.host = "" then .error .emptyHost
  else if s.target.ioTimeoutMs = some 0 then .error .zeroTimeout
  else if s.run.codeOrigin % 2 ≠ 0 then .error (.oddOrigin s.run.codeOrigin)
  else s.run.selected.map fun _ => ()

end AvrConformance
