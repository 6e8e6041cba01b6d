/-!
# Bytes as hexadecimal

Every payload that carries bytes writes two hexadecimal digits per byte, high
half first, in lowercase. Either case is read.
-/

namespace AvrConformance.Text.Hex

/-- The lowercase digit of a half byte. -/
def digit (n : Nat) : Char := Nat.digitChar (n % 16)

/-- The value of a hexadecimal digit of either case. -/
def value? (c : Char) : Option Nat :=
  if '0' ≤ c ∧ c ≤ '9' then some (c.toNat - '0'.toNat)
  else if 'a' ≤ c ∧ c ≤ 'f' then some (c.toNat - 'a'.toNat + 10)
  else if 'A' ≤ c ∧ c ≤ 'F' then some (c.toNat - 'A'.toNat + 10)
  else none

def isDigit (c : Char) : Bool := (value? c).isSome

def ofByte (b : UInt8) : List Char := [digit (b.toNat / 16), digit b.toNat]

/-- The byte that two digits write. -/
def byte? (high low : Char) : Option UInt8 := do
  return UInt8.ofNat (16 * (← value? high) + (← value? low))

/-- Two characters read as a number of at most one byte, where a plus sign may
take the place of the first digit. Checksum trailers and stop codes are read
by this rule, which is more generous than that of data. -/
def lenientByte? (first second : Char) : Option UInt8 :=
  if first = '+' then (value? second).map UInt8.ofNat else byte? first second

/-- The bytes that a row of digits writes, two by two; a digit without a
partner or a character that is no digit spoils the row. -/
def bytes? : List Char → Option (List UInt8)
  | [] => some []
  | [_] => none
  | high :: low :: rest => do return (← byte? high low) :: (← bytes? rest)

def ofBytes (bytes : List UInt8) : String := String.ofList (bytes.flatMap ofByte)

end AvrConformance.Text.Hex
