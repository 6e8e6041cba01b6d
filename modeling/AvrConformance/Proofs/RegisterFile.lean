import Mathlib.Algebra.GroupWithZero.Nat
import AvrConformance.Proofs.Snapshot

/-!
# Rows of writes

Registers are written one after another, each write cut to the width of its register. What a
register holds at the end depends on nothing but the last write to it, and a register that is
never written holds what it held (`get_writeAll`, by induction on the row from what one write
does). So writes to different registers may change places anywhere in a row
(`writeAll_swap`).

A write is to a register that the core has, and then no write of a row is refused and no
reading afterwards (`writeAll?_eq`). Together with what `diff` lists this is
`Snapshot.register_file`.
-/

namespace AvrConformance

namespace Reg

/-- The part of a value that fits into a register is its remainder by the register's width. -/
theorem toNat_cut (reg : Reg) (value : UInt32) :
    (reg.cut value).toNat = value.toNat % 2 ^ (8 * reg.width) := by
  cases reg with
  | r n => exact UInt32.toNat_toUInt8 value
  | sreg => exact UInt32.toNat_toUInt8 value
  | sp => exact UInt32.toNat_toUInt16 value
  | pc => exact (Nat.mod_eq_of_lt value.toNat_lt).symm

end Reg

/-- A value on its way into a register that the core has. -/
structure Write where
  reg : Reg
  value : UInt32
  held : reg.inSnapshot = true

/-- The value that a row of writes leaves to a register, before it is cut: that of the last
write to it. -/
def lastWritten (writes : List Write) (reg : Reg) : Option UInt32 :=
  ((writes.filter fun w => w.reg = reg).getLast?).map Write.value

/-- Only the first write counts if none of the others is to the register. -/
theorem lastWritten_cons (w : Write) (rest : List Write) (reg : Reg) :
    lastWritten (w :: rest) reg =
      (lastWritten rest reg).or (if w.reg = reg then some w.value else none) := by
  unfold lastWritten
  by_cases hreg : w.reg = reg
  · rw [List.filter_cons_of_pos (by simpa using hreg), List.getLast?_cons, if_pos hreg]
    cases (rest.filter fun w => w.reg = reg).getLast? <;> rfl
  · rw [List.filter_cons_of_neg (by simpa using hreg), if_neg hreg, Option.or_none]

namespace Snapshot

/-- The snapshot after a row of writes. -/
def writeAll (s : Snapshot) (writes : List Write) : Snapshot :=
  writes.foldl (fun s w => s.set w.reg w.value) s

/-- The snapshot after a row of writes, unless one of them is refused. -/
def writeAll? (s : Snapshot) (writes : List Write) : Option Snapshot :=
  writes.foldlM (fun s w => s.set? w.reg w.value) s

/-- No write is refused. -/
theorem writeAll?_eq (s : Snapshot) (writes : List Write) :
    s.writeAll? writes = some (s.writeAll writes) := by
  induction writes generalizing s with
  | nil => rfl
  | cons w rest ih =>
      have hwritten : s.set? w.reg w.value = some (s.set w.reg w.value) := if_pos w.held
      rw [writeAll?, List.foldlM_cons, hwritten]
      exact ih (s.set w.reg w.value)

theorem get?_eq_some {reg : Reg} (h : reg.inSnapshot = true) (s : Snapshot) :
    s.get? reg = some (s.get reg) := if_pos h

/-- What one write does. -/
theorem get_write (s : Snapshot) (w : Write) (reg : Reg) :
    (s.set w.reg w.value).get reg = if w.reg = reg then reg.cut w.value else s.get reg := by
  by_cases hreg : w.reg = reg
  · subst hreg
    rw [if_pos rfl, get_set_self s w.held]
  · rw [if_neg hreg, get_set_of_ne s hreg]

/-- What a row of writes does. -/
theorem get_writeAll (s : Snapshot) (writes : List Write) (reg : Reg) :
    (s.writeAll writes).get reg =
      ((lastWritten writes reg).map reg.cut).getD (s.get reg) := by
  induction writes generalizing s with
  | nil => rfl
  | cons w rest ih =>
      have hstep : s.writeAll (w :: rest) = (s.set w.reg w.value).writeAll rest := rfl
      rw [hstep, ih, lastWritten_cons, get_write]
      -- a later write to the register hides this one
      cases lastWritten rest reg with
      | some value => rfl
      | none => by_cases hreg : w.reg = reg <;> simp [hreg]

/-- Rows of writes that leave each register the same value come to the same. -/
theorem writeAll_congr {writes others : List Write}
    (h : ∀ reg, lastWritten writes reg = lastWritten others reg) (s : Snapshot) :
    s.writeAll writes = s.writeAll others := by
  apply eq_of_get_eq
  intro reg _
  rw [get_writeAll, get_writeAll, h]

/-- Writes to different registers may change places. -/
theorem writeAll_swap {v w : Write} (h : v.reg ≠ w.reg) (s : Snapshot)
    (before behind : List Write) :
    s.writeAll (before ++ v :: w :: behind) = s.writeAll (before ++ w :: v :: behind) := by
  have hpair : ∀ s : Snapshot, s.writeAll (v :: w :: behind) = s.writeAll (w :: v :: behind) := by
    apply writeAll_congr
    intro reg
    simp only [lastWritten_cons, Option.or_assoc]
    by_cases hv : v.reg = reg
    · have hw : w.reg ≠ reg := fun hw => h (hv.trans hw.symm)
      rw [if_neg hw, Option.none_or, Option.or_none]
    · rw [if_neg hv, Option.none_or, Option.or_none]
  have hsplit : ∀ rest, s.writeAll (before ++ rest) = (s.writeAll before).writeAll rest :=
    fun rest => List.foldl_append
  rw [hsplit, hsplit, hpair]

theorem diff_comm (s t : Snapshot) : s.diff t = t.diff s := by
  unfold diff
  congr 1
  funext reg
  exact bne_comm

/-- A register is a difference if it is read differently. -/
theorem mem_diff_iff_get? {s t : Snapshot} {reg : Reg} :
    reg ∈ s.diff t ↔ s.get? reg ≠ t.get? reg := by
  rw [mem_diff, Reg.mem_all]
  unfold get?
  by_cases h : reg.inSnapshot = true <;> simp [h]

/-- **The register file.** Registers that the core has can be written and read in any row.
At the end each of them holds the remainder, by its own width, of what was last written to
it, or what it held before if nothing was. Writes to different registers may change places.
The differences between the first and the last state are the registers that are read
differently, in numbering order and each once; no difference at all is equality, and it does
not matter from which of the two states it is looked at. -/
theorem register_file (s : Snapshot) :
    (∀ writes : List Write, ∃ t, s.writeAll? writes = some t ∧
      (∀ reg ∈ Reg.all, ∃ old new, s.get? reg = some old ∧ t.get? reg = some new ∧
        new.toNat = match lastWritten writes reg with
          | some value => value.toNat % 2 ^ (8 * reg.width)
          | none => old.toNat) ∧
      (s.diff t).Pairwise (fun a b => a.number < b.number) ∧
      ∀ reg, reg ∈ s.diff t ↔ s.get? reg ≠ t.get? reg) ∧
    (∀ (before behind : List Write) (v w : Write), v.reg ≠ w.reg →
      s.writeAll? (before ++ v :: w :: behind) = s.writeAll? (before ++ w :: v :: behind)) ∧
    ∀ t : Snapshot, (s.diff t = [] ↔ s = t) ∧ s.diff t = t.diff s := by
  refine ⟨fun writes => ?_, fun before behind v w hreg => ?_, fun t => ?_⟩
  · refine ⟨s.writeAll writes, writeAll?_eq s writes, fun reg hreg => ?_,
      pairwise_number_diff s _, fun reg => mem_diff_iff_get?⟩
    have hheld := Reg.mem_all.mp hreg
    refine ⟨_, _, get?_eq_some hheld s, get?_eq_some hheld _, ?_⟩
    rw [get_writeAll]
    cases lastWritten writes reg with
    | some value => exact reg.toNat_cut value
    | none => rfl
  · rw [writeAll?_eq, writeAll?_eq, writeAll_swap hreg]
  · exact ⟨diff_eq_nil_iff, diff_comm s t⟩

end Snapshot

end AvrConformance
