import AvrConformance.Settings
import AvrConformance.Flag
import AvrConformance.Drive
import AvrConformance.Json.Reader
import AvrConformance.Report.Record

/-!
# Typed data in JSON

How settings and the other types of the domain are read from JSON, and how
settings are written. A record is an object, whose unknown members are ignored
and whose known ones stand at most once, or an array of its fields in order. A
field of the settings that is missing has its default. An alternative without
content is its name, or an object that gives the name a null. Numbers are
unsigned integer literals within the range of their type.
-/

namespace AvrConformance

namespace Json

def below? (bound : Nat) : Json → Option Nat
  | .number n => n.nat?.filter (· < bound)
  | _ => none

def uint8? (j : Json) : Option UInt8 := (j.below? UInt8.size).map UInt8.ofNat

def uint16? (j : Json) : Option UInt16 := (j.below? UInt16.size).map UInt16.ofNat

def uint32? (j : Json) : Option UInt32 := (j.below? UInt32.size).map UInt32.ofNat

def uint64? (j : Json) : Option UInt64 := (j.below? UInt64.size).map UInt64.ofNat

def bool? : Json → Option Bool
  | .bool b => some b
  | _ => none

def text? : Json → Option String
  | .string s => s
  | _ => none

/-- A value that may be missing, which null says. -/
def optional? (read : Json → Option α) : Json → Option (Option α)
  | .null => some none
  | j => (read j).map some

/-- A list of values. -/
def list? (read : Json → Option α) : Json → Option (List α)
  | .array items => items.mapM read
  | _ => none

/-- The name of an alternative without content. -/
def name? : Json → Option String
  | .string s => s
  | .object [(key, .null)] => key
  | _ => none

/-- The one of some alternatives without content that is named. -/
def choice? (choices : List (String × α)) (j : Json) : Option α :=
  j.name?.bind fun name => choices.lookup name

/-- The values of a record's fields, where a field may be missing. -/
def fields? (names : List String) : Json → Option (List (Option Json))
  | .object members =>
    if members.all (fun (key, _) => key.isSome)
        ∧ names.all (fun name => members.countP (fun (key, _) => key == some name) ≤ 1) then
      some (names.map fun name => members.lookup (some name))
    else none
  | .array items =>
    if items.length ≤ names.length then
      some (items.map some ++ List.replicate (names.length - items.length) none)
    else none
  | _ => none

/-- A field that must be there. -/
def required (read : Json → Option α) (field : Option Json) : Option α := field.bind read

/-- A field that has a default. -/
def orElse (read : Json → Option α) (default : α) : Option Json → Option α
  | none => some default
  | some j => read j

end Json

def Flag.ofJson? : Json → Option Flag :=
  Json.choice? (Flag.all.map fun f => (f.letter.toString, f))

def Region.ofJson? : Json → Option Region := Json.choice? [("Code", .code), ("Data", .data)]

def Reg.ofJson? : Json → Option Reg
  | .object [(some "R", n)] => n.uint8?.map .r
  | j => j.choice? [("Sreg", .sreg), ("Sp", .sp), ("Pc", .pc)]

/-- A snapshot, with every register given. -/
def Snapshot.ofJson? (j : Json) : Option Snapshot :=
  match j.fields? ["r", "sreg", "sp", "pc"] with
  | some [r, sreg, sp, pc] => do
    let row ← Json.required (Json.list? Json.uint8?) r
    let sreg ← Json.required Json.uint8? sreg
    let sp ← Json.required Json.uint16? sp
    let pc ← Json.required Json.uint32? pc
    if h : row.toArray.size = 32 then return ⟨⟨row.toArray, h⟩, sreg, sp, pc⟩ else none
  | _ => none

namespace Strategy

def ofJson? : Json → Option Strategy :=
  Json.choice? [("step", .step), ("break_after", .breakAfter)]

def toJson : Strategy → Json
  | step => .text "step"
  | breakAfter => .text "break_after"

end Strategy

namespace TargetSettings

def fieldNames : List String := ["host", "port", "io_timeout_ms", "no_ack"]

def ofJson? (j : Json) : Option TargetSettings :=
  match j.fields? fieldNames with
  | some [host, port, timeout, noAck] =>
    return {
      host := ← Json.orElse Json.text? ({} : TargetSettings).host host
      port := ← Json.orElse Json.uint16? ({} : TargetSettings).port port
      ioTimeoutMs := ←
        Json.orElse (Json.optional? Json.uint64?) ({} : TargetSettings).ioTimeoutMs timeout
      noAck := ← Json.orElse Json.bool? ({} : TargetSettings).noAck noAck }
  | _ => none

def toJson (t : TargetSettings) : Json :=
  .record [("host", .text t.host), ("port", .nat t.port.toNat),
    ("io_timeout_ms", .optional (fun n => .nat n.toNat) t.ioTimeoutMs), ("no_ack", .bool t.noAck)]

end TargetSettings

namespace RunSettings

def fieldNames : List String :=
  ["strategy", "reset_between_cases", "code_origin", "stack_pointer", "opcodes", "report_path"]

def ofJson? (j : Json) : Option RunSettings :=
  match j.fields? fieldNames with
  | some [strategy, reset, origin, stack, opcodes, report] =>
    return {
      strategy := ← Json.orElse Strategy.ofJson? ({} : RunSettings).strategy strategy
      resetBetweenCases := ← Json.orElse Json.bool? ({} : RunSettings).resetBetweenCases reset
      codeOrigin := ← Json.orElse Json.uint32? ({} : RunSettings).codeOrigin origin
      stackPointer := ← Json.orElse Json.uint16? ({} : RunSettings).stackPointer stack
      opcodes := ← Json.orElse (Json.list? Json.text?) ({} : RunSettings).opcodes opcodes
      reportPath := ←
        Json.orElse (Json.optional? Json.text?) ({} : RunSettings).reportPath report }
  | _ => none

def toJson (r : RunSettings) : Json :=
  .record [("strategy", r.strategy.toJson), ("reset_between_cases", .bool r.resetBetweenCases),
    ("code_origin", .nat r.codeOrigin.toNat), ("stack_pointer", .nat r.stackPointer.toNat),
    ("opcodes", .array (r.opcodes.map Json.text)),
    ("report_path", .optional .text r.reportPath)]

end RunSettings

namespace Settings

def fieldNames : List String := ["target", "run"]

def ofJson? (j : Json) : Option Settings :=
  match j.fields? fieldNames with
  | some [target, run] =>
    return {
      target := ← Json.orElse TargetSettings.ofJson? {} target
      run := ← Json.orElse RunSettings.ofJson? {} run }
  | _ => none

def toJson (s : Settings) : Json :=
  .record [("target", s.target.toJson), ("run", s.run.toJson)]

/-- The usable settings that a file holds, given its path and its text, or why
it could not be read. -/
def ofFile (path : String) : Except String String → Except SettingsError Settings
  | .error cause => .error (.read path cause)
  | .ok text =>
    match (Json.parse? text).bind ofJson? with
    | none => .error (.parse path)
    | some settings => settings.validate.map fun _ => settings

end Settings

end AvrConformance
