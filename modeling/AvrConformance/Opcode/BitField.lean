/-!
# Fields of an instruction word

An operand sits in consecutive bits of the 16-bit instruction word. A field is
given by its lowest bit and its width; the part of it that lies beyond the word
does not exist. A lowest bit counts modulo 16, the width of the word, and a
width modulo 32, so that no field is without meaning.
-/

namespace AvrConformance

/-- Consecutive bits of an instruction word. -/
structure BitField where
  shift : UInt8
  width : UInt8
  deriving DecidableEq

namespace BitField

/-- How many values the width of the field tells apart. -/
def count (f : BitField) : Nat := Nat.pow 2 (f.width.toNat % 32)

/-- The word whose set bits are those of the field. -/
def mask (f : BitField) : UInt16 := UInt16.ofNat (f.count - 1) <<< f.shift.toUInt16

/-- Has the field enough bits for a value? -/
def fits (f : BitField) (value : UInt8) : Bool := value.toNat < f.count

/-- The word with the field's bits replaced by those of a value. -/
def insert (f : BitField) (word : UInt16) (value : UInt8) : UInt16 :=
  (word &&& ~~~f.mask) ||| ((value.toUInt16 <<< f.shift.toUInt16) &&& f.mask)

/-- The field's bits of a word, as far as a byte holds them. -/
def extract (f : BitField) (word : UInt16) : UInt8 :=
  ((word &&& f.mask) >>> f.shift.toUInt16).toUInt8

end BitField

end AvrConformance
