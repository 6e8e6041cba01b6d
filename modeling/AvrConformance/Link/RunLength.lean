import AvrConformance.Link.Packet

/-!
# Run-length encoding

A stub may shorten a reply: `c*n` stands for the character `c` followed by as
many further copies as the code of `n` exceeds 28 less one. A payload without
an asterisk is taken as it is. Otherwise it is taken byte by byte, and a byte
stands for the character of that code.
-/

namespace AvrConformance.Link.RunLength

/-- The character that announces a count. -/
def mark : UInt8 := 0x2A

/-- The code of the count that adds no copy. -/
def bias : Nat := 29

/-- The characters of a row of encoded bytes that follows `last`, if anything
came before. -/
def expandBytes (last : Option Char) : List UInt8 → Option (List Char)
  | [] => some []
  | [b] => if b = mark then none else some [Char.ofNat b.toNat]
  | b :: count :: rest =>
    if b = mark then
      match last with
      | none => none
      | some c =>
        if count.toNat < bias then none
        else (expandBytes last rest).map (List.replicate (count.toNat - bias) c ++ ·)
    else
      (expandBytes (some (Char.ofNat b.toNat)) (count :: rest)).map (Char.ofNat b.toNat :: ·)

/-- The text that a payload stands for. -/
def expand? (payload : String) : Option String :=
  if payload.toList.contains '*' then
    (expandBytes none (textBytes payload)).map String.ofList
  else some payload

end AvrConformance.Link.RunLength
