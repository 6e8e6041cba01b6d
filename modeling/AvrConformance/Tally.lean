import AvrConformance.Verdict

/-!
# Counting verdicts

A tally counts the verdicts of one run or of several. The three kinds of
failure are counted on their own: a verdict may show all of them. Tallies add
up field by field.
-/

namespace AvrConformance

/-- Counts over verdicts. -/
structure Tally where
  executed : Nat
  passed : Nat
  semanticFailures : Nat
  sideEffectFailures : Nat
  unexpectedStops : Nat
  abortedRuns : Nat
  deriving DecidableEq

namespace Tally

def empty : Tally := ⟨0, 0, 0, 0, 0, 0⟩

def add (s t : Tally) : Tally where
  executed := s.executed + t.executed
  passed := s.passed + t.passed
  semanticFailures := s.semanticFailures + t.semanticFailures
  sideEffectFailures := s.sideEffectFailures + t.sideEffectFailures
  unexpectedStops := s.unexpectedStops + t.unexpectedStops
  abortedRuns := s.abortedRuns + t.abortedRuns

instance : Add Tally := ⟨add⟩

/-- The tally of a list of verdicts from a run that was, or was not, cut short. -/
def ofVerdicts (verdicts : List Verdict) (aborted : Bool) : Tally where
  executed := verdicts.length
  passed := verdicts.countP Verdict.passed
  semanticFailures := verdicts.countP (·.has .semantic)
  sideEffectFailures := verdicts.countP (·.has .sideEffect)
  unexpectedStops := verdicts.countP Verdict.unexpectedStop
  abortedRuns := if aborted then 1 else 0

/-- The verdicts that did not pass. -/
def failed (t : Tally) : Nat := t.executed - t.passed

/-- Everything executed passed, and no run was cut short. -/
def allPassed (t : Tally) : Bool := t.passed == t.executed && t.abortedRuns == 0

/-- The tally in words. Unexpected stops and aborted runs are told only if there are any. -/
def text (t : Tally) : String :=
  s!"{t.executed} executed, {t.passed} passed, {t.failed} failed "
    ++ s!"({t.semanticFailures} semantic, {t.sideEffectFailures} side effect)"
    ++ (if t.unexpectedStops = 0 then "" else s!", {t.unexpectedStops} unexpected stop(s)")
    ++ (if t.abortedRuns = 0 then "" else s!", {t.abortedRuns} aborted")

end Tally

end AvrConformance
