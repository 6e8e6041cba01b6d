import AvrConformance.Instruction
import AvrConformance.Footprint
import AvrConformance.Opcode.BitField

/-!
# Opcodes under test

An opcode says how to exercise one instruction: the instruction word with its
operand field, the registers that may be the operand, the operand values worth
trying and the status byte loaded beforehand. It is plain data. A malformed
one (a field too narrow, a range past the last register) is refused when a
register is bound to it, and never writes outside the register file.
-/

namespace AvrConformance

/-- How to exercise one instruction. -/
structure Opcode where
  mnemonic : String
  instruction : Instruction
  /-- The instruction word with an empty operand field. -/
  template : UInt16
  /-- The field of the destination register. -/
  destination : BitField
  first : UInt8
  last : UInt8
  /-- Operand values that reach the flag boundaries. -/
  values : List UInt8
  /-- The status byte before execution. It sets a flag the instruction writes,
  so that a missed clear shows, and where possible one it must keep. -/
  probe : UInt8
  /-- Length of the instruction in 16-bit words. -/
  words : UInt8
  deriving DecidableEq

/-- Why a register cannot be an opcode's operand. -/
inductive EncodeError where
  /-- The opcode does not list the register. -/
  | outOfRange (mnemonic : String) (value least greatest : UInt8)
  /-- The operand field has too few bits. -/
  | tooWide (mnemonic : String) (value width : UInt8)
  /-- The core has no such working register. -/
  | noSuchRegister (mnemonic : String) (value : UInt8)
  deriving DecidableEq

namespace EncodeError

def message : EncodeError → String
  | outOfRange mnemonic value least greatest =>
    s!"{mnemonic}: operand {value} outside legal range {least}..={greatest}"
  | tooWide mnemonic value width =>
    s!"{mnemonic}: operand {value} does not fit a {width}-bit field"
  | noSuchRegister mnemonic value =>
    s!"{mnemonic}: operand r{value} is past the last working register"

end EncodeError

namespace Opcode

/-- The working register that an operand names, if the opcode admits it. The
opcode's own range is asked first, then its field, then the core. -/
def operand (o : Opcode) (rd : UInt8) : Except EncodeError (Fin 32) :=
  if rd < o.first ∨ o.last < rd then .error (.outOfRange o.mnemonic rd o.first o.last)
  else if !o.destination.fits rd then .error (.tooWide o.mnemonic rd o.destination.width)
  else if h : rd.toNat < 32 then .ok ⟨rd.toNat, h⟩
  else .error (.noSuchRegister o.mnemonic rd)

/-- The instruction word with a register bound to the operand field. -/
def encode (o : Opcode) (rd : UInt8) : Except EncodeError UInt16 :=
  (o.operand rd).map fun _ => o.destination.insert o.template rd

/-- The registers the opcode lists, in order; none if the range is empty. -/
def registers (o : Opcode) : List UInt8 :=
  (List.range' o.first.toNat (o.last.toNat + 1 - o.first.toNat)).map UInt8.ofNat

/-- What the instruction may change. -/
def footprint (o : Opcode) : Footprint where
  destination := true
  sreg := o.instruction.affected != 0
  pc := true

/-- The bytes by which the program counter moves on. -/
def length (o : Opcode) : UInt32 := o.words.toUInt32 * 2

end Opcode

end AvrConformance
