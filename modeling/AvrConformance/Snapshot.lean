import AvrConformance.Reg

/-!
# Register snapshots

A snapshot is the whole architectural state that a case can observe. There is
no partial form: every register always has a value. Reading widens a value to
32 bits and writing cuts one down to the register's width.
-/

namespace AvrConformance

/-- The value of every register at one moment. The program counter is a byte
address into code memory. -/
structure Snapshot where
  r : Vector UInt8 32
  sreg : UInt8
  sp : UInt16
  pc : UInt32
  deriving DecidableEq

namespace Snapshot

/-- Every register zero, the state after a reset. -/
def zero : Snapshot := ⟨Vector.replicate 32 0, 0, 0, 0⟩

/-- The background every case starts from: working register `n` holds
`0xA0 + n`, so that a stray write shows even where it writes zero. -/
def patterned (pc : UInt32) (sp : UInt16) : Snapshot :=
  ⟨Vector.ofFn fun n => 0xA0 + UInt8.ofNat n, 0, sp, pc⟩

/-- The value of a register, widened. A register the core does not have reads as zero. -/
def get (s : Snapshot) : Reg → UInt32
  | .r n => if h : n.toNat < 32 then (s.r[n.toNat]).toUInt32 else 0
  | .sreg => s.sreg.toUInt32
  | .sp => s.sp.toUInt32
  | .pc => s.pc

/-- The snapshot with one register replaced by the low bits of a value. Writing
a register the core does not have changes nothing. -/
def set (s : Snapshot) (reg : Reg) (value : UInt32) : Snapshot :=
  match reg with
  | .r n =>
    if h : n.toNat < 32 then { s with r := s.r.set n.toNat value.toUInt8 } else s
  | .sreg => { s with sreg := value.toUInt8 }
  | .sp => { s with sp := value.toUInt16 }
  | .pc => { s with pc := value }

/-- Reading that refuses a register the core does not have. -/
def get? (s : Snapshot) (reg : Reg) : Option UInt32 :=
  if reg.inSnapshot then some (s.get reg) else none

/-- Writing that refuses a register the core does not have. -/
def set? (s : Snapshot) (reg : Reg) (value : UInt32) : Option Snapshot :=
  if reg.inSnapshot then some (s.set reg value) else none

/-- The registers on which two snapshots disagree, in numbering order. -/
def diff (s t : Snapshot) : List Reg := Reg.all.filter fun reg => s.get reg != t.get reg

end Snapshot

end AvrConformance
