/-!
# JSON values

Configuration files are read into this type and reports are written from it.
It keeps what a reader of typed data has to tell apart: whether a number is
written as a plain integer, in which order members stand, and whether a string
literal has a text at all. A literal whose escapes name half of a surrogate
pair is good JSON and stands for no text.
-/

namespace AvrConformance

/-- A number as it is written. It is an integer literal if it has neither a
fraction nor an exponent. -/
structure Numeral where
  negative : Bool
  whole : Nat
  /-- The digits behind the point; none if there is no point. -/
  fraction : List (Fin 10)
  exponent : Option Int
  deriving DecidableEq

namespace Numeral

def ofInt (n : Int) : Numeral := ⟨n < 0, n.natAbs, [], none⟩

/-- The value of an unsigned integer literal. -/
def nat? (n : Numeral) : Option Nat :=
  if !n.negative ∧ n.fraction = [] ∧ n.exponent = none then some n.whole else none

end Numeral

/-- A JSON value. -/
inductive Json where
  | null
  | bool (b : Bool)
  | number (n : Numeral)
  /-- A string literal, without a text if it is malformed Unicode. -/
  | string (s : Option String)
  | array (items : List Json)
  /-- The members in the order of writing, duplicates included. -/
  | object (members : List (Option String × Json))

namespace Json

def text (s : String) : Json := .string (some s)

def nat (n : Nat) : Json := .number (.ofInt n)

/-- A value that may be missing, as null. -/
def optional (f : α → Json) : Option α → Json
  | none => .null
  | some a => f a

/-- A record: its fields in order. -/
def record (fields : List (String × Json)) : Json :=
  .object (fields.map fun (key, value) => (some key, value))

end Json

end AvrConformance
