import AvrConformance.Drive
import AvrConformance.Settings
import AvrConformance.Report

/-!
# Campaigns

Executing a case puts it on the target, runs the instruction and captures what
it left. Running an opcode does so for all of its cases: a failing case is
recorded and the run goes on, while a failing target ends it with a partial
report. A campaign runs several opcodes in turn. An opcode whose cases cannot
be built is skipped, and a failing target ends the campaign, since the
connection is unusable afterwards.
-/

namespace AvrConformance

/-- The bytes put at the program counter: the instruction, and behind it what
the strategy needs there. -/
def Trial.image (t : Trial) : Strategy → List UInt8
  | .step => t.code
  | .breakAfter => t.code ++ LittleEndian.ofWord Opcode.breakWord

/-- Letting the instruction run, once all is in place. -/
def Strategy.launch : Strategy → Drive Stop
  | step => Drive.step
  | breakAfter => Drive.resume none

/-- Executing a trial: the registers it leaves, and how the target stopped. The
registers are written last, so that they are those the instruction starts from. -/
def Trial.execute (t : Trial) (settings : RunSettings) : Drive (Snapshot × Stop) := do
  if settings.resetBetweenCases then Drive.reset else pure ()
  Drive.writeBlock .code t.initial.pc (t.image settings.strategy)
  Drive.writeRegisters t.initial
  let stop ← settings.strategy.launch
  let registers ← Drive.readRegisters
  return (registers, stop)

/-- Why the run of an opcode yields no full report. -/
inductive RunError where
  /-- The target failed during this case. The report holds the verdicts before it. -/
  | aborted (label : Label) (cause : DriveError) (report : Report)
  /-- The cases cannot be built. -/
  | encode (error : EncodeError)

namespace RunError

/-- The error in words, without its cause. -/
def message : RunError → String
  | aborted label _ report => s!"{report.mnemonic} run aborted at {label.text}"
  | encode error => error.message

def chain : RunError → List String
  | aborted label cause report => message (aborted label cause report) :: cause.chain
  | encode error => [error.message]

end RunError

namespace Opcode

def verify (o : Opcode) (c : Case) (settings : RunSettings) : Drive Verdict := do
  let (actual, stop) ← c.execute settings
  let verdict := o.judge c actual stop
  Drive.note .debug (c.label.text ++ if verdict.passed then ": pass" else ": FAIL")
  return verdict

/-- Adding to some verdicts those on further cases in order, up to a case during
which the target fails, and that case with its failure. -/
def verifyFrom (o : Opcode) (settings : RunSettings) (soFar : Array Verdict) :
    List Case → Procedure (Array Verdict × Option (Case × DriveError))
  | [] => return (soFar, none)
  | c :: rest => do
    match ← (o.verify c settings).run with
    | .error cause => return (soFar, some (c, cause))
    | .ok verdict =>
      if verdict.passed then pure () else Procedure.note .warn verdict.text
      o.verifyFrom settings (soFar.push verdict) rest

/-- The verdicts on cases in order, as far as the target goes along. -/
def verifyAll (o : Opcode) (settings : RunSettings) (cases : List Case) :
    Procedure (List Verdict × Option (Case × DriveError)) := do
  let (verdicts, failure) ← o.verifyFrom settings #[] cases
  return (verdicts.toList, failure)

def run (o : Opcode) (settings : RunSettings) : Procedure (Except RunError Report) := do
  match o.cases settings.baseline with
  | .error e => return .error (.encode e)
  | .ok cases =>
    Procedure.note .info
      (s!"{o.mnemonic}: {cases.length} cases "
        ++ s!"({o.registers.length} registers x {o.values.length} values)")
    let startedAt ← Procedure.clock
    let (verdicts, failure) ← o.verifyAll settings cases
    match failure with
    | some (c, cause) =>
      let reason := s!"at {c.label.text}: {chainText cause.chain}"
      Procedure.note .error s!"{o.mnemonic} aborted {reason}"
      return .error (.aborted c.label cause ⟨o.mnemonic, startedAt, verdicts, some reason⟩)
    | none =>
      let report : Report := ⟨o.mnemonic, startedAt, verdicts, none⟩
      Procedure.note .info s!"{o.mnemonic}: {report.tally.text}"
      return .ok report

end Opcode

/-- The outcome of several opcodes run in turn. -/
structure Campaign where
  reports : List Report
  total : Tally
  /-- Why opcodes were skipped. -/
  rejected : List EncodeError
  /-- Did a failing target end the campaign early? -/
  aborted : Bool

namespace Campaign

def empty : Campaign := ⟨[], .empty, [], false⟩

def withReport (c : Campaign) (report : Report) : Campaign :=
  { c with reports := c.reports ++ [report], total := c.total + report.tally }

def withRejected (c : Campaign) (error : EncodeError) : Campaign :=
  { c with rejected := c.rejected ++ [error] }

/-- Everything ran, and everything passed. -/
def allPassed (c : Campaign) : Bool := c.total.allPassed && c.rejected.isEmpty

/-- The outcome in pieces of text: the reports, the opcodes skipped, and the total. -/
def texts (c : Campaign) : List String :=
  c.reports.map Report.text ++ c.rejected.map (fun e => s!"SKIPPED {e.message}\n")
    ++ [s!"total: {c.total.text}\n"]

/-- Going on with a campaign through further opcodes. -/
def proceed (settings : RunSettings) (soFar : Campaign) : List Opcode → Procedure Campaign
  | [] => return soFar
  | o :: rest => do
    match ← o.run settings with
    | .ok report => proceed settings (soFar.withReport report) rest
    | .error (.encode e) =>
      Procedure.note .error s!"skipping {o.mnemonic}: {e.message}"
      proceed settings (soFar.withRejected e) rest
    | .error (.aborted _ _ report) => return { soFar.withReport report with aborted := true }

def run (settings : RunSettings) (opcodes : List Opcode) : Procedure Campaign :=
  proceed settings empty opcodes

end Campaign

end AvrConformance
