import AvrConformance.Target
import AvrConformance.Opcode.Table
import AvrConformance.LittleEndian

/-!
# Machines behind a target

What it means for a target to be a machine with a byte of memory at every
address and a register file. The target's state is left open; a `Core` says how
to see the two in it. Addresses wrap, so a word may begin at the last address.
Bytes come to the same whether they are moved in parts or at once (`Memory.write_split`,
`Memory.read_split`), and what was written is read (`Memory.read_write`). A machine
that is let run goes on up to a breakpoint, if it comes to one
(`RunsToBreak`).
-/

namespace AvrConformance

/-- A byte at every address. -/
abbrev Memory : Type := UInt32 → UInt8

namespace Memory

/-- Memory with consecutive bytes replaced, and no other one touched. -/
def write (m : Memory) (address : UInt32) (data : List UInt8) : Memory :=
  fun place => data.getD (place - address).toNat (m place)

/-- The bytes that begin at an address. -/
def read (m : Memory) (address : UInt32) (count : Nat) : List UInt8 :=
  (List.range count).map fun i => m (address + UInt32.ofNat i)

/-- The word at an address, the less significant byte first. -/
def word (m : Memory) (address : UInt32) : UInt16 :=
  LittleEndian.word (m address) (m (address + 1))

/-- Bytes that fill the address space at most may be written in two parts. -/
theorem write_append (m : Memory) (address : UInt32) (front back : List UInt8)
    (hfits : (front ++ back).length ≤ UInt32.size) :
    m.write address (front ++ back) =
      (m.write address front).write (address + UInt32.ofNat front.length) back := by
  funext place
  simp only [List.length_append, UInt32.size] at hfits
  have hoffset : (place - (address + UInt32.ofNat front.length)).toNat =
      (4294967296 - front.length % 4294967296 + (place - address).toNat) % 4294967296 := by
    have haddress := address.toNat_lt
    have hplace := place.toNat_lt
    simp only [UInt32.toNat_sub, UInt32.toNat_add, UInt32.toNat_ofNat']
    omega
  have hsmall : (place - address).toNat < 4294967296 := UInt32.toNat_lt _
  simp only [write, List.getD_eq_getElem?_getD]
  by_cases hfront : (place - address).toNat < front.length
  · -- counted from the second part, a place in the first one is behind the end
    have hbehind : back.length ≤ (place - (address + UInt32.ofNat front.length)).toNat := by
      omega
    rw [List.getElem?_append_left hfront, List.getElem?_eq_none hbehind, Option.getD_none]
  · have hback : (place - (address + UInt32.ofNat front.length)).toNat =
        (place - address).toNat - front.length := by
      omega
    have hpast : front.length ≤ (place - address).toNat := Nat.le_of_not_lt hfront
    rw [List.getElem?_append_right hpast, List.getElem?_eq_none hpast, Option.getD_none, hback]

/-- Nothing is written where there is no data. -/
@[simp] theorem write_nil (m : Memory) (address : UInt32) : m.write address [] = m := rfl

/-- Bytes may be written up to any length first, and the rest behind that, if there is one. -/
theorem write_split (m : Memory) (address : UInt32) (data : List UInt8) (size : Nat)
    (hfits : data.length ≤ UInt32.size) :
    (m.write address (data.take size)).write (address + UInt32.ofNat size) (data.drop size) =
      m.write address data := by
  rcases Nat.le_total size data.length with hlong | hshort
  · have hparts := m.write_append address (data.take size) (data.drop size)
      (by rw [List.take_append_drop]; exact hfits)
    rw [List.take_append_drop, List.length_take_of_le hlong] at hparts
    exact hparts.symm
  · rw [List.take_of_length_le hshort, List.drop_of_length_le hshort, write_nil]

/-- Each byte is written to its place. -/
theorem write_apply_add (m : Memory) (address : UInt32) {data : List UInt8}
    (hfits : data.length ≤ UInt32.size) {i : Nat} (h : i < data.length) :
    m.write address data (address + UInt32.ofNat i) = data[i] := by
  have hsmall : i < UInt32.size := Nat.lt_of_lt_of_le h hfits
  have hoffset : (address + UInt32.ofNat i - address).toNat = i := by
    rw [UInt32.add_comm, UInt32.add_sub_cancel, UInt32.toNat_ofNat', Nat.mod_eq_of_lt hsmall]
  simp only [write, hoffset]
  rw [List.getD_eq_getElem?_getD, List.getElem?_eq_getElem h, Option.getD_some]

/-- And no other place is written to. -/
theorem write_apply_of_ne (m : Memory) {address place : UInt32} {data : List UInt8}
    (h : ∀ i < data.length, place ≠ address + UInt32.ofNat i) :
    m.write address data place = m place := by
  have hback : place = address + UInt32.ofNat (place - address).toNat := by
    rw [UInt32.ofNat_toNat, UInt32.add_comm, UInt32.sub_add_cancel]
  have hpast : data.length ≤ (place - address).toNat :=
    Nat.le_of_not_lt fun hlt => h _ hlt hback
  simp only [write]
  rw [List.getD_eq_getElem?_getD, List.getElem?_eq_none hpast, Option.getD_none]

theorem length_read (m : Memory) (address : UInt32) (count : Nat) :
    (m.read address count).length = count := by
  rw [read, List.length_map, List.length_range]

/-- Bytes may be read in two parts. -/
theorem read_add (m : Memory) (address : UInt32) (front back : Nat) :
    m.read address (front + back) =
      m.read address front ++ m.read (address + UInt32.ofNat front) back := by
  simp only [read, List.range_add, List.map_append, List.map_map, Function.comp_def,
    UInt32.ofNat_add, UInt32.add_assoc]

/-- Bytes may be read up to any length first, and the rest behind that, if there is one. -/
theorem read_split (m : Memory) (address : UInt32) (count size : Nat) :
    m.read address (min size count) ++ m.read (address + UInt32.ofNat size) (count - size) =
      m.read address count := by
  rcases Nat.le_total size count with hlong | hshort
  · rw [Nat.min_eq_left hlong, ← read_add, Nat.add_sub_cancel' hlong]
  · rw [Nat.min_eq_right hshort, Nat.sub_eq_zero_of_le hshort]
    exact List.append_nil _

/-- What was written is read. -/
theorem read_write (m : Memory) (address : UInt32) {data : List UInt8}
    (hfits : data.length ≤ UInt32.size) :
    (m.write address data).read address data.length = data := by
  apply List.ext_getElem (length_read _ _ _)
  intro i _ hi
  simp only [read, List.getElem_map, List.getElem_range]
  exact m.write_apply_add address hfits hi

/-- A word written at an address is found there, whatever is written behind it. -/
theorem word_write (m : Memory) (address : UInt32) (w : UInt16) (rest : List UInt8) :
    (m.write address (LittleEndian.ofWord w ++ rest)).word address = w := by
  have hlow : address - address = 0 := UInt32.sub_self address
  have hhigh : address + 1 - address = 1 := by
    rw [UInt32.add_comm]
    exact UInt32.add_sub_cancel 1 address
  have hw : w.toNat < 65536 := w.toNat_lt
  simp only [word, write, hlow, hhigh, LittleEndian.ofWord, LittleEndian.word]
  apply UInt16.toNat_inj.mp
  simp
  omega

end Memory

/-- Stepping by `next` leads from some registers to others that stand at a breakpoint, the
first one on the way. -/
inductive RunsToBreak (next : UInt16 → Snapshot → Snapshot) (m : Memory) :
    Snapshot → Snapshot → Prop
  | stop {r : Snapshot} (h : m.word r.pc = Opcode.breakWord) : RunsToBreak next m r r
  | go {r s : Snapshot} (h : m.word r.pc ≠ Opcode.breakWord)
      (hrest : RunsToBreak next m (next (m.word r.pc) r) s) : RunsToBreak next m r s

/-- There is only one breakpoint that a run can come to. -/
theorem RunsToBreak.unique {next : UInt16 → Snapshot → Snapshot} {m : Memory}
    {r s t : Snapshot} (hs : RunsToBreak next m r s) (ht : RunsToBreak next m r t) : s = t := by
  induction hs with
  | stop h =>
      cases ht with
      | stop => rfl
      | go hgoes => exact absurd h hgoes
  | go h _ ih =>
      cases ht with
      | stop hstops => exact absurd hstops h
      | go _ hrest => exact ih hrest

/-- Where a target's state holds its memory and its registers. -/
structure Core (σ : Type) where
  memory : σ → Memory
  registers : σ → Snapshot

namespace Target

variable {σ : Type}

/-- The target overwrites exactly what it is given, and tells its registers. -/
structure Stores (t : Target σ) (core : Core σ) : Prop where
  write_memory : ∀ address data s, data.length ≤ UInt32.size →
    (t (.writeMemory address data) s).1 = .ok () ∧
    core.memory (t (.writeMemory address data) s).2 = (core.memory s).write address data ∧
    core.registers (t (.writeMemory address data) s).2 = core.registers s
  write_registers : ∀ registers s,
    (t (.writeRegisters registers) s).1 = .ok () ∧
    core.memory (t (.writeRegisters registers) s).2 = core.memory s ∧
    core.registers (t (.writeRegisters registers) s).2 = registers
  read_registers : ∀ s, (t .readRegisters s).1 = .ok (core.registers s)

/-- The target comes back from a reset with a signal, in whatever state. -/
def Resets (t : Target σ) : Prop :=
  ∀ s, ∃ number, (t (.resume (some Stop.hangup)) s).1 = .ok (.signal number)

/-- A step replaces the registers as `next` says and stops with the signal that
`signal` says, given the word at the program counter and the registers. -/
def StepsBy (t : Target σ) (core : Core σ) (next : UInt16 → Snapshot → Snapshot)
    (signal : UInt16 → Snapshot → UInt8) : Prop :=
  ∀ s,
    let registers := core.registers s
    let word := (core.memory s).word registers.pc
    (t .step s).1 = .ok (.signal (signal word registers)) ∧
    core.registers (t .step s).2 = next word registers

/-- Let run, the target steps by `next` up to a breakpoint, stops there with a trap and
leaves the registers as they are. -/
def ResumesBy (t : Target σ) (core : Core σ) (next : UInt16 → Snapshot → Snapshot) : Prop :=
  ∀ s registers, RunsToBreak next (core.memory s) (core.registers s) registers →
    (t (.resume none) s).1 = .ok (.signal Stop.trap) ∧
    core.registers (t (.resume none) s).2 = registers

end Target

/-! ## The machine that holds nothing else -/

/-- Memory and registers. -/
structure Bare where
  memory : Memory
  registers : Snapshot

namespace Bare

/-- Where the bare machine holds its memory and its registers. -/
def core : Core Bare := ⟨memory, registers⟩

/-- Bare memory and registers as a target that steps as it is told, and that a
reset, like any other resume, leaves as `upset` says. -/
def target (next : UInt16 → Snapshot → Snapshot) (signal : UInt16 → Snapshot → UInt8)
    (upset : Bare → Bare) : Target Bare
  | .readMemory address count, s =>
    (.ok ((List.range count).map fun i => s.memory (address + UInt32.ofNat i)), s)
  | .writeMemory address data, s => (.ok (), { s with memory := s.memory.write address data })
  | .readRegisters, s => (.ok s.registers, s)
  | .writeRegisters registers, s => (.ok (), { s with registers })
  | .resume _, s => (.ok (.signal Stop.trap), upset s)
  | .step, s =>
    let word := s.memory.word s.registers.pc
    (.ok (.signal (signal word s.registers)), { s with registers := next word s.registers })
  | .close, s => (.ok (), s)

variable (next : UInt16 → Snapshot → Snapshot) (signal : UInt16 → Snapshot → UInt8)
  (upset : Bare → Bare)

theorem target_stores : (target next signal upset).Stores core where
  write_memory _ _ _ _ := ⟨rfl, rfl, rfl⟩
  write_registers _ _ := ⟨rfl, rfl, rfl⟩
  read_registers _ := rfl

theorem target_resets : (target next signal upset).Resets := fun _ => ⟨Stop.trap, rfl⟩

theorem target_stepsBy : (target next signal upset).StepsBy core next signal :=
  fun _ => ⟨rfl, rfl⟩

open Classical in
/-- The bare machine after a run, which goes on up to a breakpoint if it comes to one. -/
noncomputable def runToBreak (s : Bare) : Bare :=
  if h : ∃ registers, RunsToBreak next s.memory s.registers registers then
    { s with registers := h.choose }
  else s

theorem target_resumesBy : (target next signal (runToBreak next)).ResumesBy core next := by
  intro s registers hrun
  have hsome : ∃ registers, RunsToBreak next s.memory s.registers registers := ⟨_, hrun⟩
  have hleft : runToBreak next s = { s with registers := hsome.choose } := dif_pos hsome
  refine ⟨rfl, ?_⟩
  show (runToBreak next s).registers = registers
  rw [hleft]
  exact hsome.choose_spec.unique hrun

end Bare

end AvrConformance
