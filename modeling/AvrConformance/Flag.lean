/-!
# The status flags

The status register of an AVR core (SREG) is one byte, and each of its bits is
a named flag. This module names them, gives each its place, and writes a
status byte the way the data sheets print it.
-/

namespace AvrConformance

/-- One bit of the status register. -/
inductive Flag where
  | carry
  | zero
  | negative
  | overflow
  | sign
  | halfCarry
  | transfer
  | interruptEnable
  deriving DecidableEq

namespace Flag

/-- Every flag, from the least significant bit up. -/
def all : List Flag :=
  [carry, zero, negative, overflow, sign, halfCarry, transfer, interruptEnable]

/-- The bit a flag occupies. -/
def bit : Flag → UInt8
  | carry => 0
  | zero => 1
  | negative => 2
  | overflow => 3
  | sign => 4
  | halfCarry => 5
  | transfer => 6
  | interruptEnable => 7

/-- The status byte in which this flag alone is set. -/
def mask (f : Flag) : UInt8 := 1 <<< f.bit

/-- The letter by which data sheets name the flag. -/
def letter : Flag → Char
  | carry => 'C'
  | zero => 'Z'
  | negative => 'N'
  | overflow => 'V'
  | sign => 'S'
  | halfCarry => 'H'
  | transfer => 'T'
  | interruptEnable => 'I'

def name : Flag → String
  | carry => "carry"
  | zero => "zero"
  | negative => "negative"
  | overflow => "overflow"
  | sign => "sign"
  | halfCarry => "half-carry"
  | transfer => "transfer"
  | interruptEnable => "interrupt-enable"

def isSet (f : Flag) (sreg : UInt8) : Bool := (sreg &&& f.mask) != 0

/-- The flag's bit if the condition holds, and nothing otherwise: status bytes
are put together from such terms. -/
def when (f : Flag) (condition : Bool) : UInt8 := if condition then f.mask else 0

/-- The status byte in which exactly the given flags are set. -/
def union (flags : List Flag) : UInt8 := flags.foldl (fun sreg f => sreg ||| f.mask) 0

/-- The flags on which two status bytes disagree, from the least significant up. -/
def differences (expected actual : UInt8) : List Flag :=
  all.filter fun f => f.isSet (expected ^^^ actual)

/-- A status byte, most significant flag first, a clear flag as a dash:
`---S-N-C` is 0x15. -/
def render (sreg : UInt8) : String :=
  String.ofList (all.reverse.map fun f => if f.isSet sreg then f.letter else '-')

end Flag

end AvrConformance
