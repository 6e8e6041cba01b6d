import Std.Data.HashMap
import AvrConformance.Target
import AvrConformance.Opcode.Table
import AvrConformance.LittleEndian

/-!
# Simulated targets

A simulated target executes the instructions of the table by their reference
models, on a sparse memory whose unwritten bytes read 0xFF. Faults make it go
wrong on purpose: at a given execution, or at each one, it fails, stops
otherwise, keeps status bits it should have written, or flips bits of a
register.
-/

namespace AvrConformance

/-- What goes wrong in an execution. -/
structure Fault where
  /-- The execution it strikes; without one it strikes all. -/
  at? : Option Nat
  /-- The answer in place of an execution, if there is to be none. -/
  prevention? : Option (Except LinkError Stop) := none
  /-- The status bits that keep their value. -/
  kept : UInt8 := 0
  /-- The bits that are flipped in a register, after the status bits are kept. -/
  flip? : Option (Reg × UInt32) := none

namespace Fault

/-- Does the fault strike an execution? -/
def strikes (f : Fault) (n : Nat) : Bool := f.at?.getD n == n

/-- What the fault makes of the registers after an execution that started with
the status byte `sreg`, unless it flips a register that the core does not
have. -/
def disturb? (sreg : UInt8) (s : Snapshot) (f : Fault) : Option Snapshot :=
  let s := { s with sreg := (s.sreg &&& ~~~f.kept) ||| (sreg &&& f.kept) }
  match f.flip? with
  | some (reg, bits) => s.set? reg (s.get reg ^^^ bits)
  | none => some s

end Fault

/-- A simulated machine. -/
structure Simulator where
  faults : List Fault
  memory : Std.HashMap UInt32 UInt8
  registers : Snapshot
  /-- How many executions were begun. -/
  executed : Nat
  /-- Whether a fault asked for a register that the core does not have, which
  leaves the machine without meaning. -/
  broken : Bool

namespace Simulator

/-- A machine with empty memory and zero registers. -/
def fresh (faults : List Fault) : Simulator := ⟨faults, ∅, .zero, 0, false⟩

def byte (m : Simulator) (address : UInt32) : UInt8 := m.memory.getD address 0xFF

def bytes (m : Simulator) (address : UInt32) (count : Nat) : List UInt8 :=
  (List.range count).map fun i => m.byte (address + UInt32.ofNat i)

/-- The machine with consecutive bytes of its memory replaced. -/
def store (m : Simulator) (address : UInt32) : List UInt8 → Simulator
  | [] => m
  | b :: rest => { m with memory := m.memory.insert address b }.store (address + 1) rest

def word (m : Simulator) : UInt16 :=
  LittleEndian.word (m.byte m.registers.pc) (m.byte (m.registers.pc + 1))

/-- The opcode of an instruction word, whatever its operand. -/
def decode? (word : UInt16) : Option Opcode :=
  Opcode.table.find? fun o => o.template == word &&& 0xFE0F

/-- The registers after an instruction by its reference model. -/
def advance (o : Opcode) (word : UInt16) (s : Snapshot) : Snapshot :=
  let rd := Reg.r (o.destination.extract word)
  let effect := o.instruction.execute (s.get rd).toUInt8 s.sreg
  { s.set rd effect.result.toUInt32 with sreg := effect.sreg, pc := s.pc + 2 }

/-- The faults that strike an execution, in order. -/
def faultsAt (m : Simulator) (n : Nat) : List Fault := m.faults.filter fun f => f.strikes n

/-- Executing one instruction. A word that is no instruction stops the machine
with signal 4. -/
def execute (m : Simulator) : Except LinkError Stop × Simulator :=
  let active := m.faultsAt m.executed
  let m := { m with executed := m.executed + 1 }
  match active.findSome? Fault.prevention? with
  | some prevented => (prevented, m)
  | none =>
    match decode? m.word with
    | none => (.ok (.signal 4), m)
    | some o =>
      match active.foldlM (Fault.disturb? m.registers.sreg) (advance o m.word m.registers) with
      | some registers => (.ok (.signal Stop.trap), { m with registers })
      | none => (.error .closed, { m with broken := true })

/-- Executing up to a breakpoint or another stop, for a limited number of
instructions; past the limit the machine stops with signal 2. -/
def resume (m : Simulator) : Nat → Except LinkError Stop × Simulator
  | 0 => (.ok (.signal 2), m)
  | left + 1 =>
    if m.word = Opcode.breakWord then (.ok (.signal Stop.trap), m)
    else
      match m.execute with
      | (.ok (.signal n), next) =>
        if n = Stop.trap then next.resume left else (.ok (.signal n), next)
      | (answer, next) => (answer, next)

/-- How many instructions a resumed machine executes at most. -/
def resumeLimit : Nat := 8

/-- A simulated target. Memory and registers are always within reach. -/
def target : Target Simulator
  | .readMemory address count, m => (.ok (m.bytes address count), m)
  | .writeMemory address data, m => (.ok (), m.store address data)
  | .readRegisters, m => (.ok m.registers, m)
  | .writeRegisters registers, m => (.ok (), { m with registers })
  | .resume signal, m =>
    if signal = some Stop.hangup then (.ok (.signal Stop.trap), { m with registers := .zero })
    else m.resume resumeLimit
  | .step, m => m.execute
  | .close, m => (.ok (), m)

end Simulator

end AvrConformance
