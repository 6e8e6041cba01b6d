import AvrConformance.Reg

/-!
# What an instruction may change

A footprint names the roles an instruction may write: its destination, the
status register and the program counter. No instruction of the group moves the
stack pointer.
-/

namespace AvrConformance

/-- The roles an instruction may write. The destination becomes a register
once a case binds the operand. -/
structure Footprint where
  destination : Bool
  sreg : Bool
  pc : Bool
  deriving DecidableEq

namespace Footprint

/-- May a register change when `rd` is the destination? -/
def permits (f : Footprint) (rd : UInt8) : Reg → Bool
  | .r n => f.destination && n == rd
  | .sreg => f.sreg
  | .pc => f.pc
  | .sp => false

/-- The registers that may change when `rd` is the destination, in numbering order. -/
def registers (f : Footprint) (rd : UInt8) : List Reg := Reg.all.filter (f.permits rd)

end Footprint

end AvrConformance
