import AvrConformance.Text.Plain

/-!
# The log

A run notes what it does. Notes have a level of severity, and whoever keeps
them may keep only those severe enough. A message may have several lines; a log
that is written line by line sets in all but the first, so that a record is
seen to begin where a line begins.
-/

namespace AvrConformance

/-- How severe a note is. -/
inductive Level where
  | error
  | warn
  | info
  | debug
  deriving DecidableEq

namespace Level

/-- Every level, the most severe first. -/
def all : List Level := [error, warn, info, debug]

/-- The place of a level, the most severe first. -/
def rank : Level → Nat
  | error => 0
  | warn => 1
  | info => 2
  | debug => 3

def name : Level → String
  | error => "ERROR"
  | warn => "WARN"
  | info => "INFO"
  | debug => "DEBUG"

def ofName? (name : String) : Option Level :=
  all.find? fun l => l.name.toLower == name

end Level

/-- One record of the log. -/
structure Note where
  level : Level
  message : String
  deriving DecidableEq

namespace Note

/-- Does a log that keeps a level, and all more severe ones, keep this note? -/
def within (n : Note) (threshold : Level) : Bool := n.level.rank ≤ threshold.rank

def text (n : Note) : String := s!"{n.level.name} {n.message}"

/-- How far the further lines of a message are set in. -/
def indentation : Nat := 4

/-- Characters whose further lines are set in. -/
def hang (s : List Char) : List Char :=
  s.flatMap fun c => if c = '\n' then c :: List.replicate indentation ' ' else [c]

/-- The note as it is written under a heading: its further lines are set in, and
nothing in it steers the terminal that it may be read on. The end of the line
belongs to the record, so a sequence that the message leaves open may swallow
it. -/
def record (n : Note) (heading : String) : String :=
  let full := heading.toList ++ ' ' :: hang n.message.toList ++ ['\n']
  String.ofList (Text.Plain.ofText full)

end Note

end AvrConformance
