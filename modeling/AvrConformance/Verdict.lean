import AvrConformance.Case
import AvrConformance.Stop

/-!
# Verdicts

The reference model says what registers an instruction must leave behind.
Judging a captured snapshot looks at every register once. A register that the
instruction may change is held against the model, and a difference there is
semantic. Any other register is held against its initial value, and a
difference there is a side effect. A case passes when there is no difference
and the target stopped with the trap signal.
-/

namespace AvrConformance

/-- The two ways for a register to be wrong. -/
inductive MismatchKind where
  /-- A register the instruction may write holds the wrong value. -/
  | semantic
  /-- A register the instruction must leave alone changed. -/
  | sideEffect
  deriving DecidableEq

def MismatchKind.text : MismatchKind → String
  | semantic => "semantic"
  | sideEffect => "side effect"

/-- A register that holds the wrong value. -/
structure Mismatch where
  kind : MismatchKind
  reg : Reg
  expected : UInt32
  actual : UInt32
  deriving DecidableEq

namespace Mismatch

/-- A status byte in reports: the number and the flags. -/
def sregText (sreg : UInt8) : String := s!"{Text.hex 2 sreg.toNat} ({Flag.render sreg})"

/-- The mismatch in words. A status byte is spelled out with the names of the
flags that differ; wider registers have at least four digits. -/
def text (m : Mismatch) : String :=
  let subject := s!"{m.kind.text} {m.reg.name}: expected "
  match m.reg with
  | .sreg =>
    let expected := m.expected.toUInt8
    let actual := m.actual.toUInt8
    let names := String.intercalate ", " ((Flag.differences expected actual).map Flag.name)
    s!"{subject}{sregText expected}, got {sregText actual} [{names}]"
  | .pc | .sp => s!"{subject}{Text.hex 4 m.expected.toNat}, got {Text.hex 4 m.actual.toNat}"
  | .r _ => s!"{subject}{Text.hex 2 m.expected.toNat}, got {Text.hex 2 m.actual.toNat}"

end Mismatch

/-- The outcome of one case, with all that is needed to diagnose it later. -/
structure Verdict where
  label : Label
  opcode : UInt16
  initial : Snapshot
  expected : Snapshot
  actual : Snapshot
  stop : Stop
  mismatches : List Mismatch
  deriving DecidableEq

namespace Verdict

/-- Did the target stop with anything but the trap signal? -/
def unexpectedStop (v : Verdict) : Bool := v.stop != .signal Stop.trap

/-- No register is wrong, and the stop is the expected one. -/
def passed (v : Verdict) : Bool := v.mismatches.isEmpty && !v.unexpectedStop

/-- The first mismatch of a kind, in numbering order. -/
def first? (v : Verdict) (kind : MismatchKind) : Option Mismatch :=
  v.mismatches.find? fun m => m.kind == kind

def has (v : Verdict) (kind : MismatchKind) : Bool := v.mismatches.any fun m => m.kind == kind

/-- The verdict in words: one line for a pass, and for a failure a line per
finding and the state it started from. -/
def text (v : Verdict) : String :=
  if v.passed then s!"PASS {v.label.text}"
  else
    let stop :=
      if v.unexpectedStop then [s!"    target {v.stop.text}, expected signal {Stop.trap}"] else []
    let initial :=
      s!"    initial SREG {Flag.render v.initial.sreg} PC {Text.hex 4 v.initial.pc.toNat}"
    String.intercalate "\n" (
      [s!"FAIL {v.label.text} (opcode {Text.hex 4 v.opcode.toNat})"] ++ stop
        ++ v.mismatches.map (fun m => "    " ++ m.text) ++ [initial])

end Verdict

namespace Opcode

/-- The snapshot an instruction must leave behind when started from `initial`
with the working register `rd` as its operand. -/
def expectedFrom (o : Opcode) (initial : Snapshot) (rd : Fin 32) : Snapshot :=
  let effect := o.instruction.execute initial.r[rd] initial.sreg
  let written := initial.set (.r (UInt8.ofNat rd)) effect.result.toUInt32
  let flagged :=
    if o.footprint.sreg then written.set .sreg effect.sreg.toUInt32 else written
  flagged.set .pc (initial.pc + o.length)

/-- The snapshot an instruction must leave behind in a case. -/
def expected (o : Opcode) (c : Case) : Snapshot := o.expectedFrom c.initial c.register

end Opcode

namespace Footprint

/-- The mismatch of one register, if it is wrong. -/
def mismatch? (f : Footprint) (rd : UInt8) (initial expected actual : Snapshot) (reg : Reg) :
    Option Mismatch :=
  let kind := if f.permits rd reg then .semantic else .sideEffect
  let wanted := if f.permits rd reg then expected.get reg else initial.get reg
  if actual.get reg = wanted then none else some ⟨kind, reg, wanted, actual.get reg⟩

/-- The mismatches of a captured snapshot, in numbering order. -/
def mismatches (f : Footprint) (rd : UInt8) (initial expected actual : Snapshot) :
    List Mismatch :=
  Reg.all.filterMap (f.mismatch? rd initial expected actual)

end Footprint

namespace Opcode

/-- The verdict on a captured snapshot and stop. -/
def judge (o : Opcode) (c : Case) (actual : Snapshot) (stop : Stop) : Verdict where
  label := c.label
  opcode := c.opcode
  initial := c.initial
  expected := o.expected c
  actual
  stop
  mismatches := o.footprint.mismatches c.label.register c.initial (o.expected c) actual

end Opcode

end AvrConformance
