import AvrConformance.Tally
import AvrConformance.Timestamp

/-!
# Run reports

A report holds the verdicts on one opcode, in the order of execution, whether
or not they passed. If the target failed during the run, the report is partial
and says why.
-/

namespace AvrConformance

/-- The verdicts on one opcode. -/
structure Report where
  mnemonic : String
  startedAt : Timestamp
  verdicts : List Verdict
  /-- Why the run ended early, if it did. -/
  aborted : Option String
  deriving DecidableEq

namespace Report

/-- The verdicts that did not pass, in order. -/
def failures (r : Report) : List Verdict := r.verdicts.filter fun v => !v.passed

def tally (r : Report) : Tally := .ofVerdicts r.verdicts r.aborted.isSome

/-- The report in lines of text: the tally, each failure, and why it ended early. -/
def lines (r : Report) : List String :=
  [s!"{r.mnemonic} ({r.startedAt.text}): {r.tally.text}"]
    ++ r.failures.map (fun v => "  " ++ v.text)
    ++ (r.aborted.toList.map fun reason => "  ABORTED: " ++ reason)

def text (r : Report) : String := String.join (r.lines.map (· ++ "\n"))

end Report

end AvrConformance
