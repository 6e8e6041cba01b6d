import AvrConformance.Snapshot
import AvrConformance.Opcode
import AvrConformance.LittleEndian

/-!
# Cases

A case binds an opcode's operand to one working register and one value. What
the target sees of it is a trial: an instruction word and the registers to load
before it. Cases come registers first, values within: the same opcode and
background always give the same cases in the same order, and an opcode with a
register that cannot be bound gives none at all.
-/

namespace AvrConformance

/-- What identifies a case in reports. -/
structure Label where
  mnemonic : String
  register : UInt8
  value : UInt8
  deriving DecidableEq

def Label.text (l : Label) : String :=
  s!"{l.mnemonic} r{Text.decimal 2 l.register.toNat} v={Text.hex 2 l.value.toNat}"

/-- What the target sees of a case. -/
structure Trial where
  /-- The registers before execution. -/
  initial : Snapshot
  /-- The instruction word. -/
  opcode : UInt16
  deriving DecidableEq

/-- The instruction word as it lies in code memory. -/
def Trial.code (t : Trial) : List UInt8 := LittleEndian.ofWord t.opcode

/-- One binding of an opcode's operand. -/
structure Case extends Trial where
  mnemonic : String
  /-- The working register that is the operand. -/
  register : Fin 32
  value : UInt8
  deriving DecidableEq

def Case.label (c : Case) : Label := ⟨c.mnemonic, UInt8.ofNat c.register, c.value⟩

namespace Opcode

/-- The case that binds a working register to a value over a background. -/
def case (o : Opcode) (background : Snapshot) (rd : Fin 32) (word : UInt16) (value : UInt8) :
    Case where
  initial := (background.set (.r (UInt8.ofNat rd)) value.toUInt32).set .sreg o.probe.toUInt32
  opcode := word
  mnemonic := o.mnemonic
  register := rd
  value := value

/-- The cases of one register, or why it cannot be bound. -/
def casesAt (o : Opcode) (values : List UInt8) (background : Snapshot) (rd : UInt8) :
    Except EncodeError (List Case) := do
  let register ← o.operand rd
  let word ← o.encode rd
  return values.map (o.case background register word)

/-- The cases of an opcode over a given list of values. -/
def casesWith (o : Opcode) (values : List UInt8) (background : Snapshot) :
    Except EncodeError (List Case) :=
  return (← o.registers.mapM (o.casesAt values background)).flatten

/-- The cases of an opcode over its own values. -/
def cases (o : Opcode) (background : Snapshot) : Except EncodeError (List Case) :=
  o.casesWith o.values background

end Opcode

end AvrConformance
