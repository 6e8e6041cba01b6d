import AvrConformance.Opcode

/-!
# The built-in opcodes

The group `1001 010d dddd xxxx`, one row per instruction. The destination is
the five-bit field at bit 4, and every working register may be it.
-/

namespace AvrConformance

namespace Opcode

/-- The word of `BREAK`, which stops a resumed target. -/
def breakWord : UInt16 := 0x9598

/-- Operand values for logic and shifts: all clear, all set, both alternations,
each half byte and each end bit. -/
def patternValues : List UInt8 := [0x00, 0xFF, 0xAA, 0x55, 0xF0, 0x0F, 0x01, 0x80]

/-- Operand values for arithmetic, with the edges of signed overflow. -/
def arithmeticValues : List UInt8 := [0x00, 0xFF, 0xAA, 0xF0, 0x01, 0x7F, 0x80, 0x08]

/-- A row of the group, given what differs between its members. -/
def singleRegister (mnemonic : String) (instruction : Instruction) (template : UInt16)
    (values : List UInt8) (probe : List Flag) : Opcode where
  mnemonic
  instruction
  template
  destination := ⟨4, 5⟩
  first := 0
  last := 31
  values
  probe := Flag.union probe
  words := 1

/-- The opcodes of the group. -/
def table : List Opcode := [
  singleRegister "COM" .com 0x9400 [0x00, 0xFF, 0xAA, 0xF0, 0x01] [.overflow],
  singleRegister "NEG" .neg 0x9401 arithmeticValues [.carry, .halfCarry, .transfer],
  singleRegister "SWAP" .swap 0x9402 patternValues [.carry, .negative, .sign, .transfer],
  singleRegister "INC" .inc 0x9403 arithmeticValues [.carry, .overflow, .halfCarry],
  singleRegister "ASR" .asr 0x9405 patternValues [.carry, .halfCarry],
  singleRegister "LSR" .lsr 0x9406 patternValues [.negative, .halfCarry],
  singleRegister "ROR" .ror 0x9407 patternValues [.carry, .halfCarry],
  singleRegister "DEC" .dec 0x940A arithmeticValues [.carry, .overflow, .halfCarry]]

/-- A mnemonic with its ASCII letters in upper case, the spelling of the table. -/
def canonicalMnemonic (name : String) : String := String.ofList (name.toList.map Char.toUpper)

/-- The opcode of a mnemonic, whose ASCII letters may be of either case. -/
def lookup? (name : String) : Option Opcode :=
  table.find? fun o => canonicalMnemonic o.mnemonic == canonicalMnemonic name

end Opcode

end AvrConformance
