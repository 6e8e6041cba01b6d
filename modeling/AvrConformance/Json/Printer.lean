import AvrConformance.Json
import AvrConformance.Text.Number

/-!
# Writing JSON

One printer serves two layouts: compact, without a blank, and indented, with
one item a line, two blanks per level and an empty array or object on one line.
A string is escaped only where JSON demands it; all else, beyond ASCII too,
stands as it is.
-/

namespace AvrConformance.Json

/-- Where a printer puts its blanks. -/
structure Layout where
  /-- What goes between items, by depth. -/
  lineBreak : Nat → List Char
  /-- What follows the colon of a member. -/
  afterColon : List Char

namespace Layout

/-- No blank at all. -/
def compact : Layout := ⟨fun _ => [], []⟩

/-- One item a line, two blanks per level. -/
def indented : Layout := ⟨fun depth => '\n' :: List.replicate (2 * depth) ' ', [' ']⟩

end Layout

def escape (c : Char) : List Char :=
  if c = '"' then ['\\', '"']
  else if c = '\\' then ['\\', '\\']
  else if c = '\x08' then ['\\', 'b']
  else if c = '\x0c' then ['\\', 'f']
  else if c = '\n' then ['\\', 'n']
  else if c = '\r' then ['\\', 'r']
  else if c = '\t' then ['\\', 't']
  else if c.toNat < 0x20 then ['\\', 'u'] ++ (Text.hexDigits 4 c.toNat).toList
  else [c]

/-- A string literal. One without a text is written as half a surrogate pair. -/
def literal : Option String → List Char
  | some s => '"' :: s.toList.flatMap escape ++ ['"']
  | none => "\"\\ud800\"".toList

def numeral (n : Numeral) : List Char :=
  (if n.negative then ['-'] else []) ++ Nat.toDigits 10 n.whole
    ++ (if n.fraction.isEmpty then [] else '.' :: n.fraction.map fun d => Nat.digitChar d.val)
    ++ (match n.exponent with
      | none => []
      | some e => 'e' :: (toString e).toList)

mutual

/-- A value at a depth of nesting. -/
def chars (layout : Layout) (depth : Nat) : Json → List Char
  | .null => "null".toList
  | .bool b => (if b then "true" else "false").toList
  | .number n => numeral n
  | .string s => literal s
  | .array [] => "[]".toList
  | .array (item :: items) =>
    '[' :: layout.lineBreak (depth + 1) ++ chars layout (depth + 1) item
      ++ itemChars layout (depth + 1) items ++ layout.lineBreak depth ++ [']']
  | .object [] => "\x7b\x7d".toList
  | .object ((key, value) :: members) =>
    '\x7b' :: layout.lineBreak (depth + 1) ++ literal key ++ ':' :: layout.afterColon
      ++ chars layout (depth + 1) value ++ memberChars layout (depth + 1) members
      ++ layout.lineBreak depth ++ ['\x7d']

/-- The items of an array behind the first. -/
def itemChars (layout : Layout) (depth : Nat) : List Json → List Char
  | [] => []
  | item :: items =>
    ',' :: layout.lineBreak depth ++ chars layout depth item ++ itemChars layout depth items

/-- The members of an object behind the first. -/
def memberChars (layout : Layout) (depth : Nat) : List (Option String × Json) → List Char
  | [] => []
  | (key, value) :: members =>
    ',' :: layout.lineBreak depth ++ literal key ++ ':' :: layout.afterColon
      ++ chars layout depth value ++ memberChars layout depth members

end

def render (layout : Layout) (j : Json) : String := String.ofList (chars layout 0 j)

def compact (j : Json) : String := j.render .compact

def pretty (j : Json) : String := j.render .indented

end AvrConformance.Json
