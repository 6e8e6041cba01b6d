import AvrConformance.Program
import AvrConformance.Link.Client

/-!
# Rehearsals

A rehearsal runs the program in surroundings that are known in advance: the
files it may read, the places it may write to, and a peer whose bytes lie
ready, or that refuses the connection. What the program prints, logs, writes
and transmits is kept.
-/

namespace AvrConformance

open Link (Session Ending)

/-- A piece of the standard error output. -/
inductive Remark where
  | note (n : Note)
  | line (text : String)

/-- The bytes a peer sends, and how its stream ends. -/
structure Recording where
  bytes : List UInt8
  ending : Ending

/-- Surroundings known in advance, and what the program did in them. -/
structure Rehearsal where
  /-- The text at a path, or why it cannot be read. -/
  files : String → Except String String
  /-- Whether a path can be written to, or why not. -/
  places : String → Except String Unit
  /-- The peer, or why it cannot be reached. -/
  peer : Except String Recording
  clock : Timestamp
  session : Option (Session Unit)
  output : Array String
  remarks : Array Remark
  written : List (String × String)

namespace Rehearsal

/-- Surroundings in which nothing has happened yet. -/
def fresh (files : String → Except String String) (places : String → Except String Unit)
    (peer : Except String Recording) (clock : Timestamp) : Rehearsal where
  files
  places
  peer
  clock
  session := none
  output := #[]
  remarks := #[]
  written := []

def withNote (n : Note) (r : Rehearsal) : Rehearsal :=
  { r with remarks := r.remarks.push (.note n) }

/-- The surroundings with a session whose log has moved to the remarks. -/
def withSession (s : Session Unit) (r : Rehearsal) : Rehearsal :=
  { r with
    remarks := r.remarks ++ s.notes.map Remark.note
    session := some { s with notes := #[] } }

/-- The answer to a request, which fails without a session. -/
def request (q : Request) (r : Rehearsal) : q.Answer × Rehearsal :=
  match r.session with
  | none => (.error .notConnected, r)
  | some s =>
    let (answer, s) := Session.target q s
    (answer, r.withSession s)

/-- The surroundings as a bench for procedures. -/
def bench : Bench Rehearsal where
  target := request
  note := withNote
  clock := clock

def connect (target : TargetSettings) (r : Rehearsal) : Except DriveError Unit × Rehearsal :=
  match r.peer with
  | .error cause => (.error (.connection target.address cause), r)
  | .ok recording =>
    let (answer, s) :=
      (Session.fresh target.address recording.bytes recording.ending ()).start target.noAck
    (answer, r.withSession s)

def answer : (e : Errand) → Rehearsal → e.Answer × Rehearsal
  | .inquire q, r => bench.answer q r
  | .readFile path, r => (r.files path, r)
  | .writeFile path text, r =>
    match r.places path with
    | .ok () => (.ok (), { r with written := r.written ++ [(path, text)] })
    | .error cause => (.error cause, r)
  | .connect target, r => r.connect target
  | .release, r =>
    match r.session with
    | none => ((), r)
    | some s => ((), r.withSession s.release)
  | .print text, r => ((), { r with output := r.output.push text })
  | .complain line, r => ((), { r with remarks := r.remarks.push (.line line) })

/-- The exit status of the program, and what it did. -/
def run (words : List String) (r : Rehearsal) : UInt32 × Rehearsal :=
  Dialogue.run answer (Program.run words) r

def outputText (r : Rehearsal) : String := String.join r.output.toList

/-- The standard error output, with the notes a log of some level keeps, if there
is a log. A record is headed by its level. -/
def remarkText (threshold : Option Level) (r : Rehearsal) : String :=
  String.join <| r.remarks.toList.map fun
    | .line text => text ++ "\n"
    | .note n =>
      match threshold with
      | some level => if n.within level then n.record n.level.name else ""
      | none => ""

/-- Everything transmitted, as it stands on the wire. -/
def transmitted (r : Rehearsal) : String :=
  match r.session with
  | none => ""
  | some s => s.transmitted

end Rehearsal

end AvrConformance
