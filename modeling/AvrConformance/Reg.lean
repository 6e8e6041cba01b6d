import AvrConformance.Text.Number

/-!
# Register names

A snapshot of the core holds 35 registers: thirty-two working registers of one
byte each, the status register, the stack pointer and the program counter. The
debugger numbers them in this order. A name may carry a working register number
that the core does not have; such a name has a text and a number, and no place
in a snapshot.
-/

namespace AvrConformance

def workingRegisters : Nat := 32

/-- The name of a register. -/
inductive Reg where
  | r (n : UInt8)
  | sreg
  | sp
  | pc
  deriving DecidableEq

namespace Reg

/-- The debugger's number of a register. -/
def number : Reg → UInt8
  | r n => n
  | sreg => 32
  | sp => 33
  | pc => 34

/-- The register of a debugger's number, if there is one. -/
def ofNumber? (n : UInt8) : Option Reg :=
  if n < 32 then some (r n)
  else if n = 32 then some sreg
  else if n = 33 then some sp
  else if n = 34 then some pc
  else none

/-- Every register of a snapshot, in numbering order. -/
def all : List Reg :=
  (List.range workingRegisters).map (fun n => r (UInt8.ofNat n)) ++ [sreg, sp, pc]

/-- Does a snapshot have a place for this register? -/
def inSnapshot : Reg → Bool
  | r n => n < 32
  | _ => true

/-- The bytes a register takes in the register block. -/
def width : Reg → Nat
  | r _ => 1
  | sreg => 1
  | sp => 2
  | pc => 4

def name : Reg → String
  | r n => "r" ++ Text.decimal 2 n.toNat
  | sreg => "SREG"
  | sp => "SP"
  | pc => "PC"

/-- The place of a name in the order of names: working registers by number,
however large, before the three others. -/
def rank : Reg → Nat
  | r n => n.toNat
  | sreg => 256
  | sp => 257
  | pc => 258

instance : Ord Reg := ⟨fun a b => compare a.rank b.rank⟩

end Reg

end AvrConformance
