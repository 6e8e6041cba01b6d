import AvrConformance.Report
import AvrConformance.Json.Printer

/-!
# Reports as data

The report file is a list of reports in indented JSON. The fields of each
record stand in a fixed order; an alternative without content is a string, and
one with content is an object whose only key names it.
-/

namespace AvrConformance

def Reg.toJson : Reg → Json
  | .r n => .record [("R", .nat n.toNat)]
  | .sreg => .text "Sreg"
  | .sp => .text "Sp"
  | .pc => .text "Pc"

def Snapshot.toJson (s : Snapshot) : Json :=
  .record [("r", .array (s.r.toList.map fun b => .nat b.toNat)), ("sreg", .nat s.sreg.toNat),
    ("sp", .nat s.sp.toNat), ("pc", .nat s.pc.toNat)]

def Stop.toJson : Stop → Json
  | .signal n => .record [("Signal", .nat n.toNat)]
  | .exited n => .record [("Exited", .nat n.toNat)]
  | .terminated n => .record [("Terminated", .nat n.toNat)]

def Label.toJson (l : Label) : Json :=
  .record [("mnemonic", .text l.mnemonic), ("register", .nat l.register.toNat),
    ("value", .nat l.value.toNat)]

def MismatchKind.toJson : MismatchKind → Json
  | .semantic => .text "Semantic"
  | .sideEffect => .text "SideEffect"

def Mismatch.toJson (m : Mismatch) : Json :=
  .record [("kind", m.kind.toJson), ("reg", m.reg.toJson), ("expected", .nat m.expected.toNat),
    ("actual", .nat m.actual.toNat)]

def Verdict.toJson (v : Verdict) : Json :=
  .record [("label", v.label.toJson), ("opcode", .nat v.opcode.toNat),
    ("initial", v.initial.toJson), ("expected", v.expected.toJson), ("actual", v.actual.toJson),
    ("stop", v.stop.toJson), ("mismatches", .array (v.mismatches.map Mismatch.toJson))]

namespace Report

def toJson (r : Report) : Json :=
  .record [("mnemonic", .text r.mnemonic), ("started_at", .text r.startedAt.compact),
    ("results", .array (r.verdicts.map Verdict.toJson)), ("aborted", .optional .text r.aborted)]

def json (r : Report) : String := r.toJson.pretty

def fileText (reports : List Report) : String := (Json.array (reports.map toJson)).pretty

end Report

end AvrConformance
