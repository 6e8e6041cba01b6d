import AvrConformance.Opcode.Table
import AvrConformance.Case
import AvrConformance.Proofs.Result

/-!
# Generation of cases

Cases are generated register by register, a row of them for each (`Opcode.row`). If every
listed register can be bound, the cases are the product of the registers and the values
(`casesWith_eq_ok`), and each case binds one register over the background
(`exists_case_of_mem_cases`).
Every row of the table lists all working registers and can bind each of them, so
it has 32 cases for each of its values, and it has values (`cases_of_mem_table`).
None of them executes a breakpoint (`opcode_ne_breakWord_of_mem_table`).
-/

namespace AvrConformance

namespace Opcode

/-- Only one working register has the number, however the operand is encoded. -/
theorem toNat_of_operand {o : Opcode} {rd : UInt8} {register : Fin 32}
    (h : o.operand rd = .ok register) : rd.toNat = register.val := by
  unfold operand at h
  split at h
  · cases h
  split at h
  · cases h
  split at h
  · injection h with h
    rw [← h]
  · cases h

/-- The cases of a register that can be bound. -/
theorem casesAt_eq_ok {o : Opcode} {rd : UInt8} {register : Fin 32}
    (h : o.operand rd = .ok register) (values : List UInt8) (background : Snapshot) :
    o.casesAt values background rd =
      .ok (values.map (o.case background register (o.destination.insert o.template rd))) := by
  simp only [casesAt, encode, h]
  rfl

/-- Each case binds a register that the opcode admits, over the background. -/
theorem exists_case_of_mem_cases {o : Opcode} {background : Snapshot} {cases : List Case}
    (h : o.cases background = .ok cases) {c : Case} (hc : c ∈ cases) :
    ∃ rd register value, o.operand rd = .ok register ∧
      c = o.case background register (o.destination.insert o.template rd) value := by
  unfold Opcode.cases casesWith at h
  obtain ⟨rows, hrows, h⟩ := except_bind_eq_ok.mp h
  cases h
  obtain ⟨row, hrow, hc⟩ := List.mem_flatten.mp hc
  obtain ⟨rd, -, hrd⟩ := mem_of_mapM_eq_ok hrows hrow
  unfold casesAt at hrd
  obtain ⟨register, hregister, -⟩ := except_bind_eq_ok.mp hrd
  have hcases := casesAt_eq_ok hregister o.values background
  unfold casesAt at hcases
  rw [hcases] at hrd
  injection hrd with hrd
  rw [← hrd] at hc
  obtain ⟨value, -, rfl⟩ := List.mem_map.mp hc
  exact ⟨rd, register, value, hregister, rfl⟩

/-- A case begins where its background is. -/
theorem pc_of_mem_cases {o : Opcode} {background : Snapshot} {cases : List Case}
    (h : o.cases background = .ok cases) {c : Case} (hc : c ∈ cases) :
    c.initial.pc = background.pc := by
  obtain ⟨rd, register, value, -, rfl⟩ := exists_case_of_mem_cases h hc
  show ((background.set _ _).set .sreg _).pc = background.pc
  simp only [Snapshot.set]
  split <;> rfl

/-- The cases of a register of the core. -/
def row (o : Opcode) (values : List UInt8) (background : Snapshot) (rd : UInt8) : List Case :=
  values.map (o.case background (Fin.ofNat 32 rd.toNat) (o.destination.insert o.template rd))

theorem length_row (o : Opcode) (values : List UInt8) (background : Snapshot) (rd : UInt8) :
    (o.row values background rd).length = values.length := List.length_map _

theorem casesAt_eq_row {o : Opcode} {rd : UInt8} {register : Fin 32}
    (h : o.operand rd = .ok register) (values : List UInt8) (background : Snapshot) :
    o.casesAt values background rd = .ok (o.row values background rd) := by
  have hvalue : register = Fin.ofNat 32 rd.toNat := by
    apply Fin.ext
    rw [toNat_of_operand h, Fin.val_ofNat, Nat.mod_eq_of_lt register.isLt]
  rw [casesAt_eq_ok h, hvalue, row]

/-- If every listed register can be bound, the cases are their rows. -/
theorem casesWith_eq_rows {o : Opcode} (h : ∀ rd ∈ o.registers, ∃ n, o.operand rd = .ok n)
    (values : List UInt8) (background : Snapshot) :
    o.casesWith values background = .ok (o.registers.flatMap (o.row values background)) := by
  have hrows : ∀ rd ∈ o.registers,
      o.casesAt values background rd = .ok (o.row values background rd) := by
    intro rd hrd
    obtain ⟨n, hn⟩ := h rd hrd
    exact casesAt_eq_row hn values background
  rw [List.flatMap_def, casesWith, mapM_eq_ok hrows]
  rfl

/-- If every listed register can be bound, each gives a case for each value. -/
theorem casesWith_eq_ok {o : Opcode} (h : ∀ rd ∈ o.registers, ∃ n, o.operand rd = .ok n)
    (values : List UInt8) (background : Snapshot) :
    ∃ cases, o.casesWith values background = .ok cases ∧
      cases.length = o.registers.length * values.length := by
  refine ⟨_, casesWith_eq_rows h values background, ?_⟩
  simp [List.length_flatMap, length_row, List.map_const']

/-- The rows of the table differ in what they test, not in where. -/
theorem layout_of_mem_table {o : Opcode} (h : o ∈ table) :
    o.first = 0 ∧ o.last = 31 ∧ o.destination = ⟨4, 5⟩ ∧ o.values ≠ [] := by
  simp only [table, List.mem_cons, List.not_mem_nil, or_false] at h
  rcases h with rfl | rfl | rfl | rfl | rfl | rfl | rfl | rfl <;>
    refine ⟨rfl, rfl, rfl, ?_⟩ <;> decide

/-- A row of the table can bind every register it lists, of which there are 32. -/
theorem operand_of_mem_table {o : Opcode} (h : o ∈ table) :
    o.registers.length = 32 ∧ ∀ rd ∈ o.registers, ∃ n, o.operand rd = .ok n := by
  obtain ⟨hfirst, hlast, hfield, -⟩ := layout_of_mem_table h
  refine ⟨by simp [registers, hfirst, hlast], fun rd hrd => ?_⟩
  simp only [registers, hfirst, hlast, List.mem_map, List.mem_range'_1] at hrd
  obtain ⟨n, ⟨-, hn⟩, rfl⟩ := hrd
  have hsmall : (UInt8.ofNat n).toNat < 32 := by
    rw [UInt8.toNat_ofNat']
    simp at hn
    omega
  have hrange : ¬ (UInt8.ofNat n < o.first ∨ o.last < UInt8.ofNat n) := by
    rw [hfirst, hlast, UInt8.lt_iff_toNat_lt, UInt8.lt_iff_toNat_lt]
    show ¬ (_ < 0 ∨ 31 < _)
    omega
  have hfits : o.destination.fits (UInt8.ofNat n) = true := by
    rw [hfield]
    simpa [BitField.fits, BitField.count] using hsmall
  refine ⟨⟨(UInt8.ofNat n).toNat, hsmall⟩, ?_⟩
  rw [operand, if_neg hrange, hfits]
  simp only [Bool.not_true, Bool.false_eq_true, if_false, dif_pos hsmall]

/-- A row of the table has 32 cases for each of its values, and it has values. -/
theorem cases_of_mem_table {o : Opcode} (h : o ∈ table) (background : Snapshot) :
    ∃ cases, o.cases background = .ok cases ∧ cases.length = 32 * o.values.length ∧
      cases ≠ [] := by
  obtain ⟨hcount, hbind⟩ := operand_of_mem_table h
  obtain ⟨cases, hcases, hlength⟩ := casesWith_eq_ok hbind o.values background
  rw [hcount] at hlength
  refine ⟨cases, hcases, hlength, ?_⟩
  rintro rfl
  have hvalues : o.values ≠ [] := (layout_of_mem_table h).2.2.2
  have hsome : 0 < o.values.length := List.length_pos_iff.mpr hvalues
  have hnone : 0 = 32 * o.values.length := hlength
  omega

/-- The word of a case is the template with a register of the core bound to it. -/
theorem exists_opcode_of_mem_cases {o : Opcode} {background : Snapshot} {cases : List Case}
    (h : o.cases background = .ok cases) {c : Case} (hc : c ∈ cases) :
    ∃ register : Fin 32, c.opcode = o.destination.insert o.template (UInt8.ofNat register) := by
  obtain ⟨rd, register, value, hregister, rfl⟩ := exists_case_of_mem_cases h hc
  refine ⟨register, ?_⟩
  rw [← toNat_of_operand hregister, UInt8.ofNat_toNat]
  rfl

/-- No case of a row of the table executes a breakpoint. -/
theorem opcode_ne_breakWord_of_mem_table {o : Opcode} (ho : o ∈ table) {background : Snapshot}
    {cases : List Case} (h : o.cases background = .ok cases) {c : Case} (hc : c ∈ cases) :
    c.opcode ≠ breakWord := by
  -- there are eight rows and 32 registers, and these are all looked at
  have hall : ∀ o ∈ table, ∀ register : Fin 32,
      o.destination.insert o.template (UInt8.ofNat register) ≠ breakWord := by decide
  obtain ⟨register, hword⟩ := exists_opcode_of_mem_cases h hc
  rw [hword]
  exact hall o ho register

end Opcode

end AvrConformance
