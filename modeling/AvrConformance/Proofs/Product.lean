import Mathlib.Data.List.Nodup
import AvrConformance.Proofs.Encoding
import AvrConformance.Proofs.Generation
import AvrConformance.Proofs.Result
import AvrConformance.Proofs.Snapshot

/-!
# Cases as a product

The cases of an opcode are the product of its registers and the values, registers first: the
case at a place tells its register by the quotient of the place and its value by the remainder
(`Opcode.IsProduct`). There are cases exactly if every listed register can be bound; otherwise
the lowest one that cannot is what is objected to, be there values or not
(`Opcode.FirstUnbound`).

A snapshot ignores a write to a register that the core does not have. That generation never
makes one is said by a second account of it, whose writes are refused then: it comes to the
same cases, and none of its writes is refused (`Opcode.guardedTrials_eq`).
-/

namespace AvrConformance

/-! ## Products of lists -/

/-- In rows of one length, a place tells its row by the quotient. -/
theorem getElem?_flatMap_of_length {α β : Type} {f : α → List β} {n : Nat}
    (h : ∀ a, (f a).length = n) (l : List α) (k : Nat) :
    (l.flatMap f)[k]? = l[k / n]?.bind fun a => (f a)[k % n]? := by
  rcases Nat.eq_zero_or_pos n with rfl | hn
  · -- rows without an element make no list
    have hempty : ∀ a, f a = [] := fun a => List.length_eq_zero_iff.mp (h a)
    simp [hempty]
  induction l generalizing k with
  | nil => rfl
  | cons a l ih =>
      rw [List.flatMap_cons]
      rcases Nat.lt_or_ge k n with hk | hk
      · rw [List.getElem?_append_left (by rw [h]; exact hk), Nat.div_eq_of_lt hk,
          Nat.mod_eq_of_lt hk]
        rfl
      · rw [List.getElem?_append_right (by rw [h]; exact hk), h, ih,
          Nat.div_eq_sub_div hn hk, Nat.mod_eq_sub_mod hk, List.getElem?_cons_succ]

namespace Opcode

variable {o : Opcode}

/-! ## The registers that are listed -/

theorem getElem?_registers (o : Opcode) (k : Nat) :
    o.registers[k]? =
      if k < o.last.toNat + 1 - o.first.toNat then some (UInt8.ofNat (o.first.toNat + k))
      else none := by
  rw [registers, List.getElem?_map]
  split
  next hk => rw [List.getElem?_range' hk, Nat.one_mul, Option.map_some]
  next hk =>
    rw [List.getElem?_eq_none (by rw [List.length_range']; exact Nat.le_of_not_lt hk)]
    rfl

theorem length_registers (o : Opcode) :
    o.registers.length = o.last.toNat + 1 - o.first.toNat := by
  rw [registers, List.length_map, List.length_range']

theorem mem_registers {rd : UInt8} : rd ∈ o.registers ↔ o.Lists rd := by
  have hlast : o.last.toNat < 256 := o.last.toNat_lt
  simp only [registers, List.mem_map, List.mem_range'_1, Lists, UInt8.le_iff_toNat_le]
  constructor
  · rintro ⟨n, hn, rfl⟩
    rw [UInt8.toNat_ofNat', Nat.mod_eq_of_lt (by omega)]
    omega
  · intro hlisted
    exact ⟨rd.toNat, by omega, UInt8.ofNat_toNat⟩

/-- The lowest of the listed registers that cannot be bound. -/
structure FirstUnbound (o : Opcode) (rd : UInt8) : Prop where
  listed : o.Lists rd
  unbound : ¬ o.Binds rd
  least : ∀ lower, o.Lists lower → lower < rd → o.Binds lower

/-- The registers are listed from the lowest up. -/
theorem pairwise_registers (o : Opcode) : o.registers.Pairwise (· < ·) := by
  have hlast : o.last.toNat < 256 := o.last.toNat_lt
  rw [registers, List.pairwise_map]
  refine List.Pairwise.imp_of_mem ?_ List.pairwise_lt_range'
  intro a b ha hb hlt
  rw [List.mem_range'_1] at ha hb
  rw [UInt8.lt_iff_toNat_lt, UInt8.toNat_ofNat', UInt8.toNat_ofNat', Nat.mod_eq_of_lt (by omega),
    Nat.mod_eq_of_lt (by omega)]
  exact hlt

/-- What stands in front of a register in the list is below it. -/
theorem firstUnbound_iff {rd : UInt8} :
    o.FirstUnbound rd ↔ ∃ front behind, o.registers = front ++ rd :: behind ∧
      (∀ lower ∈ front, o.Binds lower) ∧ ¬ o.Binds rd := by
  constructor
  · rintro ⟨hlisted, hunbound, hleast⟩
    obtain ⟨front, behind, hsplit⟩ := List.append_of_mem (mem_registers.mpr hlisted)
    refine ⟨front, behind, hsplit, fun lower hlower => ?_, hunbound⟩
    have hsorted := o.pairwise_registers
    rw [hsplit, List.pairwise_append] at hsorted
    have hlt := hsorted.2.2 lower hlower rd List.mem_cons_self
    have hmem : lower ∈ o.registers := by
      rw [hsplit]
      exact List.mem_append_left _ hlower
    exact hleast lower (mem_registers.mp hmem) hlt
  · rintro ⟨front, behind, hsplit, hfront, hunbound⟩
    have hmem : rd ∈ o.registers := by
      rw [hsplit]
      exact List.mem_append_right _ List.mem_cons_self
    refine ⟨mem_registers.mp hmem, hunbound, fun lower hlower hlt => ?_⟩
    have hsorted := o.pairwise_registers
    have hlisted := mem_registers.mpr hlower
    rw [hsplit] at hsorted hlisted
    rcases List.mem_append.mp hlisted with hin | hin
    · exact hfront lower hin
    · -- from the register on there is none below it
      have htail := (List.pairwise_append.mp hsorted).2.1
      rcases List.mem_cons.mp hin with rfl | hin
      · exact absurd hlt (UInt8.lt_irrefl _)
      · exact absurd hlt (UInt8.lt_asymm (List.rel_of_pairwise_cons htail hin))

/-! ## Which cases there are -/

theorem exists_operand_of_binds (h : o.destination.Proper) {rd : UInt8} (hlisted : o.Lists rd)
    (hbound : o.Binds rd) : ∃ n, o.operand rd = .ok n :=
  ⟨⟨rd.toNat, hbound.2⟩, (operand_eq_ok_iff h).mpr ⟨hlisted, hbound, rfl⟩⟩

theorem casesAt_eq_ok_iff (h : o.destination.Proper) {values : List UInt8} {background : Snapshot}
    {rd : UInt8} (hlisted : o.Lists rd) :
    (∃ cases, o.casesAt values background rd = .ok cases) ↔ o.Binds rd := by
  constructor
  · rintro ⟨cases, hcases⟩
    obtain ⟨n, hn, -⟩ := except_bind_eq_ok.mp hcases
    exact ((operand_eq_ok_iff h).mp hn).2.1
  · intro hbound
    obtain ⟨n, hn⟩ := exists_operand_of_binds h hlisted hbound
    exact ⟨_, casesAt_eq_row hn values background⟩

/-- The cases of a register fail only for the register. -/
theorem casesAt_eq_error_iff (h : o.destination.Proper) {values : List UInt8}
    {background : Snapshot} {rd : UInt8} (hlisted : o.Lists rd) {e : EncodeError} :
    o.casesAt values background rd = .error e ↔ ¬ o.Binds rd ∧ e = o.objection rd := by
  by_cases hbound : o.Binds rd
  · have hmade : ∃ cases, o.casesAt values background rd = .ok cases :=
      (casesAt_eq_ok_iff h hlisted).mpr hbound
    obtain ⟨cases, hcases⟩ := hmade
    rw [hcases]
    exact iff_of_false nofun fun hnone => hnone.1 hbound
  · have herror : o.casesAt values background rd = .error (o.objection rd) := by
      rw [casesAt, operand_eq_error h hlisted hbound]
      rfl
    rw [herror, Except.error.injEq]
    exact ⟨fun he => ⟨hbound, he.symm⟩, fun he => he.2.symm⟩

theorem casesWith_eq_error_iff (h : o.destination.Proper) (values : List UInt8)
    (background : Snapshot) (e : EncodeError) :
    o.casesWith values background = .error e ↔
      ∃ rd, o.FirstUnbound rd ∧ e = o.objection rd := by
  have hrows : o.casesWith values background = .error e ↔
      o.registers.mapM (o.casesAt values background) = .error e := by
    rw [casesWith, except_bind_eq_error]
    refine or_iff_left ?_
    rintro ⟨parts, -, hdone⟩
    cases hdone
  rw [hrows, mapM_eq_error_iff]
  -- all registers in question are listed ones
  have hmem : ∀ {front rd behind}, o.registers = front ++ rd :: behind →
      (∀ lower ∈ front, o.Lists lower) ∧ o.Lists rd := by
    intro front rd behind hsplit
    refine ⟨fun lower hlower => mem_registers.mp ?_, mem_registers.mp ?_⟩
    · rw [hsplit]
      exact List.mem_append_left _ hlower
    · rw [hsplit]
      exact List.mem_append_right _ List.mem_cons_self
  constructor
  · rintro ⟨front, rd, behind, hsplit, hfront, herror⟩
    obtain ⟨hlisted, hrd⟩ := hmem hsplit
    obtain ⟨hunbound, he⟩ := (casesAt_eq_error_iff h hrd).mp herror
    refine ⟨rd, firstUnbound_iff.mpr ⟨front, behind, hsplit, fun lower hlower => ?_, hunbound⟩, he⟩
    exact (casesAt_eq_ok_iff h (hlisted lower hlower)).mp (hfront lower hlower)
  · rintro ⟨rd, hfirst, he⟩
    obtain ⟨front, behind, hsplit, hfront, hunbound⟩ := firstUnbound_iff.mp hfirst
    obtain ⟨hlisted, hrd⟩ := hmem hsplit
    refine ⟨front, rd, behind, hsplit, fun lower hlower => ?_, ?_⟩
    · exact (casesAt_eq_ok_iff h (hlisted lower hlower)).mpr (hfront lower hlower)
    · exact (casesAt_eq_error_iff h hrd).mpr ⟨hunbound, he⟩

theorem casesWith_of_binds (h : o.destination.Proper) (hbound : ∀ rd, o.Lists rd → o.Binds rd)
    (values : List UInt8) (background : Snapshot) :
    o.casesWith values background = .ok (o.registers.flatMap (o.row values background)) := by
  refine casesWith_eq_rows (fun rd hrd => ?_) values background
  have hlisted := mem_registers.mp hrd
  exact exists_operand_of_binds h hlisted (hbound rd hlisted)

theorem casesWith_eq_ok_iff (h : o.destination.Proper) (values : List UInt8)
    (background : Snapshot) (cases : List Case) :
    o.casesWith values background = .ok cases ↔
      (∀ rd, o.Lists rd → o.Binds rd) ∧
        cases = o.registers.flatMap (o.row values background) := by
  constructor
  · intro hcases
    have hbound : ∀ rd, o.Lists rd → o.Binds rd := by
      intro rd hlisted
      obtain ⟨rows, hrows, -⟩ := except_bind_eq_ok.mp hcases
      exact (casesAt_eq_ok_iff h hlisted).mp
        (exists_of_mapM_eq_ok hrows rd (mem_registers.mpr hlisted))
    refine ⟨hbound, ?_⟩
    rw [casesWith_of_binds h hbound] at hcases
    exact (Except.ok.inj hcases).symm
  · rintro ⟨hbound, rfl⟩
    exact casesWith_of_binds h hbound values background

/-! ## What the cases are -/

/-- The cases are the product of the listed registers and the values, registers first, each
with the word and the initial registers that are its own. -/
structure IsProduct (o : Opcode) (values : List UInt8) (background : Snapshot)
    (cases : List Case) : Prop where
  length : cases.length = (o.last.toNat + 1 - o.first.toNat) * values.length
  mnemonic : ∀ c ∈ cases, c.mnemonic = o.mnemonic
  register : ∀ k c, cases[k]? = some c → c.register.val = o.first.toNat + k / values.length
  value : ∀ k c, cases[k]? = some c → values[k % values.length]? = some c.value
  opcode : ∀ c ∈ cases, o.encode (UInt8.ofNat c.register) = .ok c.opcode
  initial : ∀ c ∈ cases, ∀ reg, c.initial.get reg =
    if reg = .r (UInt8.ofNat c.register) then c.value.toUInt32
    else if reg = .sreg then o.probe.toUInt32
    else background.get reg

theorem get_case (o : Opcode) (background : Snapshot) (rd : Fin 32) (word : UInt16)
    (value : UInt8) (reg : Reg) :
    (o.case background rd word value).initial.get reg =
      if reg = .r (UInt8.ofNat rd) then value.toUInt32
      else if reg = .sreg then o.probe.toUInt32
      else background.get reg := by
  show ((background.set (.r (UInt8.ofNat rd)) value.toUInt32).set
    .sreg o.probe.toUInt32).get reg = _
  have hcore : Reg.inSnapshot (.r (UInt8.ofNat rd)) = true := by
    have hrd : rd.val % 256 = rd.val := Nat.mod_eq_of_lt (Nat.lt_trans rd.isLt (by decide))
    simp [Reg.inSnapshot, UInt8.lt_iff_toNat_lt, hrd, rd.isLt]
  by_cases hsreg : reg = .sreg
  · subst hsreg
    have hother : Reg.sreg ≠ .r (UInt8.ofNat rd) := by
      intro hsame
      cases hsame
    rw [Snapshot.get_set_self _ rfl, if_neg hother, if_pos rfl]
    exact congrArg UInt8.toUInt32 (UInt8.toUInt8_toUInt32 _)
  · rw [Snapshot.get_set_of_ne _ (Ne.symm hsreg), if_neg hsreg]
    by_cases hreg : reg = .r (UInt8.ofNat rd)
    · subst hreg
      rw [Snapshot.get_set_self _ hcore, if_pos rfl]
      exact congrArg UInt8.toUInt32 (UInt8.toUInt8_toUInt32 _)
    · rw [Snapshot.get_set_of_ne _ (Ne.symm hreg), if_neg hreg]

/-- A case of the rows binds a listed register. -/
theorem exists_of_mem_rows {values : List UInt8} {background : Snapshot} {c : Case}
    (hc : c ∈ o.registers.flatMap (o.row values background)) :
    ∃ rd value, o.Lists rd ∧
      c = o.case background (Fin.ofNat 32 rd.toNat) (o.destination.insert o.template rd) value := by
  obtain ⟨rd, hrd, hc⟩ := List.mem_flatMap.mp hc
  obtain ⟨value, -, rfl⟩ := List.mem_map.mp hc
  exact ⟨rd, value, mem_registers.mp hrd, rfl⟩

/-- The place of a case tells which register and which value it binds. -/
theorem exists_of_getElem?_rows {values : List UInt8} {background : Snapshot} {k : Nat} {c : Case}
    (hc : (o.registers.flatMap (o.row values background))[k]? = some c) :
    ∃ rd value, o.Lists rd ∧ rd.toNat = o.first.toNat + k / values.length ∧
      values[k % values.length]? = some value ∧
      c = o.case background (Fin.ofNat 32 rd.toNat) (o.destination.insert o.template rd) value := by
  rw [getElem?_flatMap_of_length (o.length_row values background)] at hc
  obtain ⟨rd, hrd, hc⟩ := Option.bind_eq_some_iff.mp hc
  obtain ⟨value, hvalue, rfl⟩ := Option.map_eq_some_iff.mp ((List.getElem?_map ..).symm.trans hc)
  have hlisted := mem_registers.mp (List.mem_of_getElem? hrd)
  refine ⟨rd, value, hlisted, ?_, hvalue, rfl⟩
  generalize k / values.length = place at hrd
  rw [getElem?_registers] at hrd
  split at hrd
  next hplace =>
    cases hrd
    have hlast : o.last.toNat < 256 := o.last.toNat_lt
    rw [UInt8.toNat_ofNat', Nat.mod_eq_of_lt (by omega)]
  next => cases hrd

theorem isProduct_rows (h : o.destination.Proper) (hbound : ∀ rd, o.Lists rd → o.Binds rd)
    (values : List UInt8) (background : Snapshot) :
    o.IsProduct values background (o.registers.flatMap (o.row values background)) where
  length := by
    simp [List.length_flatMap, length_row, List.map_const', length_registers]
  mnemonic := by
    intro c hc
    obtain ⟨rd, value, -, rfl⟩ := exists_of_mem_rows hc
    rfl
  register := by
    intro k c hc
    obtain ⟨rd, value, hlisted, hrd, -, rfl⟩ := exists_of_getElem?_rows hc
    show rd.toNat % 32 = _
    rw [Nat.mod_eq_of_lt (hbound rd hlisted).2, hrd]
  value := by
    intro k c hc
    obtain ⟨rd, value, -, -, hvalue, rfl⟩ := exists_of_getElem?_rows hc
    exact hvalue
  opcode := by
    intro c hc
    obtain ⟨rd, value, hlisted, rfl⟩ := exists_of_mem_rows hc
    have hcore := (hbound rd hlisted).2
    have hrd : UInt8.ofNat (Fin.ofNat 32 rd.toNat).val = rd := by
      rw [Fin.val_ofNat, Nat.mod_eq_of_lt hcore, UInt8.ofNat_toNat]
    show o.encode (UInt8.ofNat (Fin.ofNat 32 rd.toNat).val) = _
    rw [hrd]
    exact (encode_eq_ok_iff h).mpr ⟨hlisted, hbound rd hlisted, rfl⟩
  initial := by
    intro c hc reg
    obtain ⟨rd, value, -, rfl⟩ := exists_of_mem_rows hc
    exact o.get_case background _ _ value reg

/-- Cases at different places differ in the register or, unless a value comes twice, in the
value. -/
theorem IsProduct.nodup_labels {values : List UInt8} {background : Snapshot} {cases : List Case}
    (h : o.IsProduct values background cases) (hvalues : values.Nodup) :
    (cases.map Case.label).Nodup := by
  rw [List.nodup_iff_getElem?_ne_getElem?]
  intro i j hlt hj hsame
  rw [List.length_map] at hj
  have hi : i < cases.length := Nat.lt_trans hlt hj
  rw [List.getElem?_map, List.getElem?_map, List.getElem?_eq_getElem hi,
    List.getElem?_eq_getElem hj, Option.map_some, Option.map_some, Option.some.injEq] at hsame
  obtain ⟨-, hregister, hvalue⟩ := Label.mk.inj hsame
  have hfirst := List.getElem?_eq_getElem hi
  have hsecond := List.getElem?_eq_getElem hj
  have hquotient : i / values.length = j / values.length := by
    have hcode := congrArg UInt8.toNat hregister
    have hone := (cases[i]).register.isLt
    have hother := (cases[j]).register.isLt
    rw [UInt8.toNat_ofNat', UInt8.toNat_ofNat', Nat.mod_eq_of_lt (by omega),
      Nat.mod_eq_of_lt (by omega), h.register i _ hfirst, h.register j _ hsecond] at hcode
    exact Nat.add_left_cancel hcode
  have hremainder : i % values.length = j % values.length := by
    have hone := h.value i _ hfirst
    have hother := h.value j _ hsecond
    rw [← hvalue] at hother
    obtain ⟨hbelow, -⟩ := List.getElem?_eq_some_iff.mp hone
    exact (List.getElem?_inj hbelow hvalues).mp (hone.trans hother.symm)
  have hplaces : i = j := by
    rw [← Nat.div_add_mod i values.length, hquotient, hremainder, Nat.div_add_mod]
  omega

/-! ## Writes -/

/-- A trial as it is made, where writing a register that the core does not have is refused. -/
def guardedTrial (o : Opcode) (background : Snapshot) (word : UInt16) (rd value : UInt8) :
    Option Trial := do
  let bound ← background.set? (.r rd) value.toUInt32
  let initial ← bound.set? .sreg o.probe.toUInt32
  return ⟨initial, word⟩

/-- The trials of one register as they are made: none if a write is refused. -/
def guardedRow (o : Opcode) (values : List UInt8) (background : Snapshot) (rd : UInt8) :
    ExceptT EncodeError Option (List Trial) := do
  let word ← liftM (o.encode rd)
  values.mapM fun value => liftM (o.guardedTrial background word rd value)

/-- The trials of an opcode as they are made, register by register up to the first that cannot
be bound: none if a write is refused on the way. -/
def guardedTrials (o : Opcode) (values : List UInt8) (background : Snapshot) :
    ExceptT EncodeError Option (List Trial) := do
  let rows ← o.registers.mapM (o.guardedRow values background)
  return rows.flatten

theorem guardedTrial_eq (o : Opcode) (background : Snapshot) (word : UInt16) {rd : UInt8}
    (hcore : rd.toNat < 32) (value : UInt8) :
    o.guardedTrial background word rd value =
      some (o.case background (Fin.ofNat 32 rd.toNat) word value).toTrial := by
  have hrd : UInt8.ofNat (Fin.ofNat 32 rd.toNat).val = rd := by
    rw [Fin.val_ofNat, Nat.mod_eq_of_lt hcore, UInt8.ofNat_toNat]
  have hplace : Reg.inSnapshot (.r rd) = true := by
    simpa [Reg.inSnapshot, UInt8.lt_iff_toNat_lt] using hcore
  have hsreg : Reg.inSnapshot .sreg = true := rfl
  simp only [guardedTrial, Snapshot.set?, hplace, hsreg, if_true, Opcode.case, hrd]
  rfl

theorem run_guardedRow (h : o.destination.Proper) (values : List UInt8) (background : Snapshot)
    {rd : UInt8} (hlisted : o.Lists rd) :
    (o.guardedRow values background rd).run =
      some ((o.casesAt values background rd).map (List.map Case.toTrial)) := by
  by_cases hbound : o.Binds rd
  · let word := o.destination.insert o.template rd
    have hword : o.encode rd = .ok word := (encode_eq_ok_iff h).mpr ⟨hlisted, hbound, rfl⟩
    obtain ⟨n, hn⟩ := exists_operand_of_binds h hlisted hbound
    let made (value : UInt8) : Trial :=
      (o.case background (Fin.ofNat 32 rd.toNat) word value).toTrial
    have htrials : (values.mapM fun value =>
        (liftM (o.guardedTrial background word rd value) : ExceptT EncodeError Option Trial)).run =
          some (values.mapM fun value => .ok (made value)) := by
      refine run_mapM_of_some fun value _ => ?_
      rw [o.guardedTrial_eq background word hbound.2]
      rfl
    rw [mapM_eq_ok fun _ _ => rfl] at htrials
    rw [guardedRow, ExceptT.run_bind, hword, casesAt_eq_row hn, row]
    exact htrials.trans (by rw [Except.map, List.map_map]; rfl)
  · have hrefused := operand_eq_error h hlisted hbound
    rw [guardedRow, ExceptT.run_bind, encode_eq_error h hlisted hbound, casesAt, hrefused]
    rfl

/-- No write on the way to the cases is refused. -/
theorem guardedTrials_eq (h : o.destination.Proper) (values : List UInt8)
    (background : Snapshot) :
    (o.guardedTrials values background).run =
      some ((o.casesWith values background).map (List.map Case.toTrial)) := by
  have hrows : (o.registers.mapM (o.guardedRow values background)).run =
      some (o.registers.mapM fun rd =>
        (o.casesAt values background rd).map (List.map Case.toTrial)) :=
    run_mapM_of_some fun rd hrd => run_guardedRow h values background (mem_registers.mp hrd)
  rw [guardedTrials, ExceptT.run_bind, hrows, mapM_except_map, casesWith]
  cases o.registers.mapM (o.casesAt values background) with
  | error e => rfl
  | ok rows =>
      show some (Except.ok (rows.map (List.map Case.toTrial)).flatten) = _
      rw [← List.map_flatten]
      rfl

/-! ## The product -/

/-- **Cases as a product.** There are cases exactly if every listed register fits the field and
the core has it; then they are the product of the registers and the values, and no label comes
twice unless a value does. Otherwise the lowest register that cannot be bound is objected to,
with the error of its encoding, whatever the values are. In neither event is a register written
that the core does not have. -/
theorem cases_product (hshift : o.destination.shift ≤ 15) (hwidth : o.destination.width ≤ 31)
    (values : List UInt8) (background : Snapshot) :
    ((∃ cases, o.casesWith values background = .ok cases) ↔ ∀ rd, o.Lists rd → o.Binds rd) ∧
    (∀ cases, o.casesWith values background = .ok cases →
      o.IsProduct values background cases ∧
        (values.Nodup → (cases.map Case.label).Nodup)) ∧
    (∀ e, o.casesWith values background = .error e ↔
      ∃ rd, o.FirstUnbound rd ∧ o.encode rd = .error e ∧ e = o.objection rd) ∧
    (o.guardedTrials values background).run =
      some ((o.casesWith values background).map (List.map Case.toTrial)) := by
  have h := BitField.proper_of_le hshift hwidth
  refine ⟨?_, fun cases hcases => ?_, fun e => ?_, guardedTrials_eq h values background⟩
  · simp only [casesWith_eq_ok_iff h, exists_and_left, exists_eq, and_true]
  · obtain ⟨hbound, rfl⟩ := (casesWith_eq_ok_iff h values background cases).mp hcases
    have hproduct := isProduct_rows h hbound values background
    exact ⟨hproduct, hproduct.nodup_labels⟩
  · rw [casesWith_eq_error_iff h]
    constructor
    · rintro ⟨rd, hfirst, rfl⟩
      exact ⟨rd, hfirst, encode_eq_error h hfirst.listed hfirst.unbound, rfl⟩
    · rintro ⟨rd, hfirst, -, he⟩
      exact ⟨rd, hfirst, he⟩

/-- An opcode that lists every register from r30 up to the highest number there is, with a field
that is wide enough for all of them. -/
def crowded : Opcode :=
  { singleRegister "INC" .inc 0x9403 [] [] with destination := ⟨4, 8⟩, first := 30, last := 255 }

theorem cases_product_of_crowded :
    crowded.destination.shift ≤ 15 ∧ crowded.destination.width ≤ 31 ∧
      crowded.casesWith [] Snapshot.zero = .error (.noSuchRegister "INC" 32) := by
  have hshift : crowded.destination.shift ≤ 15 := by decide
  have hwidth : crowded.destination.width ≤ 31 := by decide
  have hfirst : crowded.FirstUnbound 32 := by
    refine ⟨by decide, by decide, fun lower _ hlt => ?_⟩
    have hsmall : lower.toNat < 32 := UInt8.lt_iff_toNat_lt.mp hlt
    exact ⟨Nat.lt_trans hsmall (by decide), hsmall⟩
  obtain ⟨-, -, herror, -⟩ := cases_product hshift hwidth [] Snapshot.zero
  exact ⟨hshift, hwidth, (herror _).mpr ⟨32, hfirst, rfl, rfl⟩⟩

end Opcode

end AvrConformance
