import AvrConformance.Verdict
import AvrConformance.Proofs.Snapshot

/-!
# Precision of verdicts

Judging holds some registers against the model and the others against their
initial value. Nothing is lost by the two references:

* **frame**: the model moves no register outside the footprint
  (`get_expected_of_not_permits`), so both references are the expected snapshot;
* **shape**: the mismatches are the differences between the expected and the
  captured snapshot, each with its kind and its two values (`judge_mismatches`);
* **precision**: a verdict passes exactly when the captured snapshot is the
  expected one and the stop is the trap (`judge_passed_iff`), and otherwise names
  every wrong register once, with the right kind (`judge_precise`).
-/

namespace AvrConformance

namespace Opcode

/-- Outside the footprint the expected snapshot is the initial one. -/
theorem get_expected_of_not_permits (o : Opcode) (c : Case) {reg : Reg}
    (h : o.footprint.permits c.label.register reg = false) :
    (o.expected c).get reg = c.initial.get reg := by
  have hrd : reg ≠ .r (UInt8.ofNat c.register) := by
    rintro rfl
    simp [Footprint.permits, footprint, Case.label] at h
  have hpc : reg ≠ .pc := by
    rintro rfl
    simp [Footprint.permits, footprint] at h
  -- the model writes three registers at most, and all of them are in the footprint
  simp only [expected, expectedFrom]
  rw [Snapshot.get_set_of_ne _ (Ne.symm hpc)]
  by_cases hflags : o.footprint.sreg = true
  · have hsreg : reg ≠ .sreg := by
      rintro rfl
      simp [Footprint.permits, hflags] at h
    rw [if_pos hflags, Snapshot.get_set_of_ne _ (Ne.symm hsreg),
      Snapshot.get_set_of_ne _ (Ne.symm hrd)]
  · rw [if_neg hflags, Snapshot.get_set_of_ne _ (Ne.symm hrd)]

/-- The kind that a mismatch of a register has. -/
def mismatchKind (o : Opcode) (c : Case) (reg : Reg) : MismatchKind :=
  if reg ∈ o.footprint.registers c.label.register then .semantic else .sideEffect

/-- The mismatch of a register whose expected and captured values differ. -/
def mismatchAt (o : Opcode) (c : Case) (actual : Snapshot) (reg : Reg) : Mismatch :=
  ⟨o.mismatchKind c reg, reg, (o.expected c).get reg, actual.get reg⟩

/-- Either reference of the comparison is the expected snapshot. -/
theorem mismatch?_eq (o : Opcode) (c : Case) (actual : Snapshot) {reg : Reg}
    (hreg : reg ∈ Reg.all) :
    o.footprint.mismatch? c.label.register c.initial (o.expected c) actual reg =
      if (o.expected c).get reg = actual.get reg then none
      else some (o.mismatchAt c actual reg) := by
  have hmem : reg ∈ o.footprint.registers c.label.register ↔
      o.footprint.permits c.label.register reg = true := by
    simp [Footprint.registers, hreg]
  simp only [Footprint.mismatch?, mismatchAt, mismatchKind, hmem]
  cases hpermits : o.footprint.permits c.label.register reg with
  | true => simp [eq_comm]
  | false =>
      have hframe := get_expected_of_not_permits o c hpermits
      simp [hframe, eq_comm]

/-- The mismatches are the differences from the expected snapshot. -/
theorem judge_mismatches (o : Opcode) (c : Case) (actual : Snapshot) (stop : Stop) :
    (o.judge c actual stop).mismatches =
      ((o.expected c).diff actual).map (o.mismatchAt c actual) := by
  -- for any part of the registers, since the induction goes through their list
  have hsome : ∀ regs : List Reg, (∀ reg ∈ regs, reg ∈ Reg.all) →
      regs.filterMap (o.footprint.mismatch? c.label.register c.initial (o.expected c) actual) =
        (regs.filter fun reg => (o.expected c).get reg != actual.get reg).map
          (o.mismatchAt c actual) := by
    intro regs hregs
    induction regs with
    | nil => rfl
    | cons reg rest ih =>
        have hrest := ih fun x hx => hregs x (List.mem_cons_of_mem _ hx)
        rw [List.filterMap_cons, mismatch?_eq o c actual (hregs reg List.mem_cons_self)]
        by_cases hsame : (o.expected c).get reg = actual.get reg
        · simp [hsame, hrest]
        · simp [hsame, hrest]
  exact hsome Reg.all fun _ h => h

/-- A verdict passes exactly on the expected snapshot and the trap. -/
theorem judge_passed_iff (o : Opcode) (c : Case) (actual : Snapshot) (stop : Stop) :
    (o.judge c actual stop).passed = true ↔
      actual = o.expected c ∧ stop = .signal Stop.trap := by
  have hstop : (o.judge c actual stop).unexpectedStop = false ↔ stop = .signal Stop.trap := by
    simp [Verdict.unexpectedStop, judge]
  have hregs : (o.judge c actual stop).mismatches.isEmpty = true ↔ actual = o.expected c := by
    rw [judge_mismatches, List.isEmpty_iff, List.map_eq_nil_iff, Snapshot.diff_eq_nil_iff]
    exact eq_comm
  simp only [Verdict.passed, Bool.and_eq_true, Bool.not_eq_true', hstop, hregs]

/-- Copying what the mismatches found over the expected snapshot gives the
captured one. -/
theorem foldl_mismatches (o : Opcode) (c : Case) (actual : Snapshot) (stop : Stop) :
    (o.judge c actual stop).mismatches.foldl (fun s m => s.set m.reg m.actual) (o.expected c) =
      actual := by
  rw [judge_mismatches, List.foldl_map]
  exact Snapshot.copy_diff (o.expected c) actual

/-- **Precision.** A verdict passes exactly when all 35 registers are captured as
expected and signal 5 stopped the target. Its mismatches are the registers that
differ, each once and in numbering order; a mismatch is semantic exactly when its
register is one that the instruction may change; and together they hold all that
the captured snapshot says beyond the expected one. -/
theorem judge_precise (o : Opcode) (c : Case) (actual : Snapshot) (stop : Stop) :
    ((o.judge c actual stop).passed = true ↔
      (∀ reg ∈ Reg.all, actual.get reg = (o.expected c).get reg) ∧ stop = .signal 5) ∧
    (o.judge c actual stop).mismatches.map Mismatch.reg = (o.expected c).diff actual ∧
    (o.judge c actual stop).mismatches.Pairwise (fun m n => m.reg.number < n.reg.number) ∧
    (∀ m ∈ (o.judge c actual stop).mismatches,
      m.kind = if m.reg ∈ o.footprint.registers c.label.register then .semantic
        else .sideEffect) ∧
    (o.judge c actual stop).mismatches.foldl (fun s m => s.set m.reg m.actual) (o.expected c) =
      actual := by
  refine ⟨?_, ?_, ?_, ?_, foldl_mismatches o c actual stop⟩
  · rw [judge_passed_iff]
    refine and_congr_left fun _ => ⟨?_, Snapshot.eq_of_get_eq⟩
    rintro rfl reg _
    rfl
  · rw [judge_mismatches, List.map_map]
    exact List.map_id _
  · rw [judge_mismatches, List.pairwise_map]
    exact Snapshot.pairwise_number_diff (o.expected c) actual
  · intro m hm
    rw [judge_mismatches, List.mem_map] at hm
    obtain ⟨reg, _, rfl⟩ := hm
    rfl

end Opcode

end AvrConformance
