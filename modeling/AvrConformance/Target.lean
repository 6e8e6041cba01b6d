import AvrConformance.Dialogue
import AvrConformance.Link.Error
import AvrConformance.Note
import AvrConformance.Timestamp

/-!
# Targets

A target is a machine under remote control. Seven requests are all that is
needed of it: to read and write its memory and its registers, to run and to
step it, and to let it go. Any state machine that answers them is a target.

A procedure drives a target: besides making requests it notes what it does and
reads the clock. It runs on a bench, which holds the target, the log and the
clock.
-/

namespace AvrConformance

/-- A request to a target. Addresses are those of its single address space. -/
inductive Request where
  | readMemory (address : UInt32) (count : Nat)
  | writeMemory (address : UInt32) (data : List UInt8)
  | readRegisters
  | writeRegisters (registers : Snapshot)
  /-- Run until something stops the target, delivering a signal if one is given. -/
  | resume (signal : Option UInt8)
  /-- Execute a single instruction. -/
  | step
  /-- Let the target go. -/
  | close
  deriving DecidableEq

/-- What a request yields when it succeeds. -/
abbrev Request.Reply : Request → Type
  | readMemory _ _ => List UInt8
  | writeMemory _ _ => Unit
  | readRegisters => Snapshot
  | writeRegisters _ => Unit
  | resume _ => Stop
  | step => Stop
  | close => Unit

abbrev Request.Answer (q : Request) : Type := Except LinkError q.Reply

/-- A machine that answers requests and keeps a state. -/
abbrev Target (σ : Type) : Type := (q : Request) → σ → q.Answer × σ

/-- What a procedure asks for. -/
inductive Inquiry where
  | request (q : Request)
  | note (n : Note)
  | clock

abbrev Inquiry.Answer : Inquiry → Type
  | request q => q.Answer
  | note _ => Unit
  | clock => Timestamp

/-- A computation that drives a target. -/
abbrev Procedure (α : Type) : Type := Dialogue Inquiry Inquiry.Answer α

/-- Where procedures run: a target, what becomes of notes, and a clock. -/
structure Bench (σ : Type) where
  target : Target σ
  note : Note → σ → σ
  clock : σ → Timestamp

def Bench.answer {σ : Type} (b : Bench σ) : (q : Inquiry) → σ → q.Answer × σ
  | .request q, s => b.target q s
  | .note n, s => ((), b.note n s)
  | .clock, s => (b.clock s, s)

/-- The bench of a target without a log, at a standing clock. -/
def Target.bench {σ : Type} (t : Target σ) (now : Timestamp) : Bench σ where
  target := t
  note _ s := s
  clock _ := now

/-- The bench of a target with a log beside it, at a standing clock. -/
def Target.loggedBench {σ : Type} (t : Target σ) (now : Timestamp) :
    Bench (σ × Array Note) where
  target q s :=
    let (answer, state) := t q s.1
    (answer, state, s.2)
  note n s := (s.1, s.2.push n)
  clock _ := now

namespace Procedure

def request (q : Request) : Procedure q.Answer := Dialogue.question (Inquiry.request q)

def note (level : Level) (message : String) : Procedure Unit :=
  Dialogue.question (Inquiry.note ⟨level, message⟩)

def clock : Procedure Timestamp := Dialogue.question Inquiry.clock

variable {σ α β : Type}

def run (p : Procedure α) (b : Bench σ) (s : σ) : α × σ := Dialogue.run b.answer p s

@[simp] theorem run_pure (a : α) (b : Bench σ) (s : σ) :
    (pure a : Procedure α).run b s = (a, s) := rfl

@[simp] theorem run_bind (p : Procedure α) (f : α → Procedure β) (b : Bench σ) (s : σ) :
    Procedure.run (p >>= f) b s = Procedure.run (f (p.run b s).1) b (p.run b s).2 :=
  Dialogue.run_bind b.answer p f s

@[simp] theorem run_request (q : Request) (b : Bench σ) (s : σ) :
    (request q).run b s = b.target q s := rfl

@[simp] theorem run_note (level : Level) (message : String) (b : Bench σ) (s : σ) :
    (note level message).run b s = ((), b.note ⟨level, message⟩ s) := rfl

@[simp] theorem run_clock (b : Bench σ) (s : σ) : clock.run b s = (b.clock s, s) := rfl

@[simp] theorem run_ite (c : Prop) [Decidable c] (p q : Procedure α) (b : Bench σ) (s : σ) :
    Procedure.run (if c then p else q) b s = if c then p.run b s else q.run b s := by
  split <;> rfl

end Procedure

end AvrConformance
