import AvrConformance.Campaign
import AvrConformance.CommandLine
import AvrConformance.Report.Record
import AvrConformance.Settings.Record

/-!
# The program

The whole program is a dialogue with its surroundings: it reads the
configuration file, connects to the target, runs the campaign, prints the
reports and writes the report file. It ends with an exit status: 0 if
everything passed, 2 if the command line or the settings cannot be used, and 1
otherwise. Neither a report file that cannot be written nor a farewell that
fails changes the status.
-/

namespace AvrConformance

/-- What the program asks of its surroundings. -/
inductive Errand where
  /-- An inquiry of a procedure. -/
  | inquire (q : Inquiry)
  | readFile (path : String)
  | writeFile (path text : String)
  /-- Connect to a target and shake hands with it. -/
  | connect (target : TargetSettings)
  /-- Let go of the target, if it still is held. -/
  | release
  /-- Write to the standard output. -/
  | print (text : String)
  /-- Write a line to the standard error output. -/
  | complain (line : String)

/-- What answers an errand. A file that cannot be read or written answers with
the reason. -/
abbrev Errand.Answer : Errand → Type
  | inquire q => q.Answer
  | readFile _ => Except String String
  | writeFile _ _ => Except String Unit
  | connect _ => Except DriveError Unit
  | release => Unit
  | print _ => Unit
  | complain _ => Unit

/-- A computation that talks to the program's surroundings. -/
abbrev Program (α : Type) : Type := Dialogue Errand Errand.Answer α

namespace Program

def errand (e : Errand) : Program e.Answer := Dialogue.question e

/-- A procedure as a part of the program. -/
def perform {α : Type} (p : Procedure α) : Program α :=
  p.rephrase Errand.inquire fun _ answer => answer

def note (level : Level) (message : String) : Program Unit :=
  perform (Procedure.note level message)

/-- The settings that a command line selects. Without a file they are the defaults. -/
def settings (c : CommandLine) : Program (Except SettingsError Settings) := do
  match c.config with
  | none => return c.override {}
  | some path =>
    let content ← errand (.readFile path)
    return Settings.ofFile path content >>= c.override

/-- The opcodes of usable settings, which always select some. -/
def selection (s : Settings) : List Opcode :=
  match s.run.selected with
  | .ok opcodes => opcodes
  | .error _ => []

def printAll : List String → Program Unit
  | [] => return ()
  | text :: rest => do
    errand (.print text)
    printAll rest

/-- Writing the report file, if one is wanted. -/
def fileReports (path : Option String) (reports : List Report) : Program Unit := do
  match path with
  | none => return ()
  | some path =>
    match ← errand (.writeFile path (Report.fileText reports)) with
    | .ok () => note .info s!"report written to {path}"
    | .error cause => note .error s!"cannot write report to {path}: {cause}"

/-- Taking leave of a target that can still be talked to. -/
def takeLeave (c : Campaign) : Program Unit := do
  if c.aborted then return ()
  else
    match ← perform (ExceptT.run Drive.close) with
    | .ok () => return ()
    | .error e => note .error (chainText e.chain)

/-- The campaign over a connection, and all that follows. -/
def conduct (s : Settings) : Program Campaign := do
  note .info s!"connected to {s.target.host}:{s.target.port}, {(selection s).length} opcode(s)"
  let campaign ← perform (Campaign.run s.run (selection s))
  printAll campaign.texts
  fileReports s.run.reportPath campaign.reports
  takeLeave campaign
  errand .release
  return campaign

/-- The program, called with these words. -/
def run (words : List String) : Program UInt32 := do
  match CommandLine.parse words with
  | .error e =>
    errand (.complain e.message)
    errand (.complain CommandLine.usage)
    return 2
  | .ok c =>
    match ← settings c with
    | .error e =>
      errand (.complain s!"Error: {chainText e.chain}")
      return 2
    | .ok s =>
      match ← errand (.connect s.target) with
      | .error e =>
        note .error (chainText e.chain)
        return 1
      | .ok () =>
        let campaign ← conduct s
        return if campaign.allPassed then 0 else 1

end Program

end AvrConformance
