import AvrConformance.Flag

/-!
# Reference models

The single-register arithmetic and logic group: one operand register in, the
same register and the status byte out. Each model follows the flag equations of
the instruction set manual, and says which flags it writes; every other flag
keeps its value.
-/

namespace AvrConformance

/-- The instructions of the group. -/
inductive Instruction where
  /-- One's complement. -/
  | com
  /-- Two's complement. -/
  | neg
  /-- Exchange of the half bytes. -/
  | swap
  | inc
  | dec
  /-- Shift right, keeping the sign. -/
  | asr
  /-- Shift right, filling with zero. -/
  | lsr
  /-- Shift right, filling with the carry. -/
  | ror
  deriving DecidableEq

namespace Instruction

/-- What an instruction leaves in its register and in the status register. -/
structure Effect where
  result : UInt8
  sreg : UInt8
  deriving DecidableEq

def testBit (value n : UInt8) : Bool := (value &&& (1 <<< n)) != 0

/-- Negative, zero, and sign as their exclusive or with overflow. -/
def resultFlags (result : UInt8) (overflow : Bool) : UInt8 :=
  let negative := testBit result 7
  Flag.negative.when negative ||| Flag.zero.when (result == 0)
    ||| Flag.sign.when (negative != overflow) ||| Flag.overflow.when overflow

/-- The flags of a right shift: carry is the bit shifted out, and overflow the
exclusive or of negative and carry. -/
def shiftFlags (rd result : UInt8) : UInt8 :=
  let carry := testBit rd 0
  resultFlags result (testBit result 7 != carry) ||| Flag.carry.when carry

/-- The status bits an instruction writes. -/
def affected : Instruction → UInt8
  | com | asr | lsr | ror =>
    Flag.union [.carry, .zero, .negative, .overflow, .sign]
  | neg => Flag.union [.carry, .zero, .negative, .overflow, .sign, .halfCarry]
  | swap => 0
  | inc | dec => Flag.union [.zero, .negative, .overflow, .sign]

/-- The value an instruction leaves in its register. -/
def result (i : Instruction) (rd sreg : UInt8) : UInt8 :=
  match i with
  | com => 0xFF - rd
  | neg => 0 - rd
  | swap => (rd <<< 4) ||| (rd >>> 4)
  | inc => rd + 1
  | dec => rd - 1
  | asr => (rd >>> 1) ||| (rd &&& 0x80)
  | lsr => rd >>> 1
  | ror => (rd >>> 1) ||| (if Flag.carry.isSet sreg then 0x80 else 0)

/-- The flags an instruction computes from its operand and its result. -/
def flags (i : Instruction) (rd result : UInt8) : UInt8 :=
  match i with
  | com => resultFlags result false ||| Flag.carry.mask
  | neg =>
    resultFlags result (result == 0x80) ||| Flag.carry.when (result != 0)
      ||| Flag.halfCarry.when (testBit result 3 || testBit rd 3)
  | swap => 0
  | inc => resultFlags result (rd == 0x7F)
  | dec => resultFlags result (rd == 0x80)
  | asr | lsr | ror => shiftFlags rd result

/-- Executing an instruction on an operand and a status byte. -/
def execute (i : Instruction) (rd sreg : UInt8) : Effect :=
  let result := i.result rd sreg
  { result
    sreg := (sreg &&& ~~~i.affected) ||| (i.flags rd result &&& i.affected) }

end Instruction

end AvrConformance
