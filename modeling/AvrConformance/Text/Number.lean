/-!
# Numbers as text

Reports and commands write numbers in decimal or in lowercase hexadecimal,
either as short as possible or filled with zeros to a least number of digits.
-/

namespace AvrConformance.Text

/-- Zeros in front of a digit string, up to a least length. -/
def zeroFill (digits : Nat) (text : String) : String :=
  String.ofList (List.replicate (digits - text.length) '0') ++ text

/-- Decimal with at least the given number of digits. -/
def decimal (digits n : Nat) : String := zeroFill digits (toString n)

/-- Lowercase hexadecimal without a mark, with at least the given number of digits. -/
def hexDigits (digits n : Nat) : String := zeroFill digits (String.ofList (Nat.toDigits 16 n))

/-- Lowercase hexadecimal marked `0x`, with at least the given number of digits. -/
def hex (digits n : Nat) : String := "0x" ++ hexDigits digits n

end AvrConformance.Text
