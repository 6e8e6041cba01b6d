import Mathlib.Data.Nat.Bitwise
import AvrConformance.Verdict

/-!
# What the architecture says

The reference models compute with bytes: they shift, mask and compare them. The
architecture speaks of numbers: of remainders, of exact signed values and of what is borrowed.
Here its account is written down in integers, and the models are held against it:

* **bits**: a flag of a status byte is the bit at its place, so that flags go through the
  operators on bytes one by one (`Flag.isSet_or` and the lemmas around it);
* **results**: the byte that a model leaves is the number of the account
  (`Instruction.toNat_result`);
* **flags**: so are the flags, those of which the model is made and those that it leaves
  alone (`Instruction.isSet_execute_eq`);
* **states**: and what else an expected snapshot holds is the initial one's, but for the
  program counter (`Opcode.expected_architectural`).
-/

namespace AvrConformance

namespace Flag

theorem toNat_mask (f : Flag) : f.mask.toNat = 2 ^ f.bit.toNat := by
  cases f <;> rfl

/-- A flag is the bit of the status byte at its place. -/
theorem isSet_eq_testBit (f : Flag) (sreg : UInt8) :
    f.isSet sreg = sreg.toNat.testBit f.bit.toNat := by
  have hbit : (sreg &&& f.mask).toNat =
      2 ^ f.bit.toNat * (sreg.toNat.testBit f.bit.toNat).toNat := by
    rw [UInt8.toNat_and, toNat_mask, Nat.and_comm, Nat.two_pow_and]
  rw [isSet, Bool.eq_iff_iff, bne_iff_ne, Ne, ← UInt8.toNat_inj, hbit]
  cases sreg.toNat.testBit f.bit.toNat <;> simp

@[simp] theorem isSet_or (f : Flag) (a b : UInt8) :
    f.isSet (a ||| b) = (f.isSet a || f.isSet b) := by
  simp [isSet_eq_testBit]

@[simp] theorem isSet_and (f : Flag) (a b : UInt8) :
    f.isSet (a &&& b) = (f.isSet a && f.isSet b) := by
  simp [isSet_eq_testBit]

@[simp] theorem isSet_not (f : Flag) (a : UInt8) : f.isSet (~~~a) = !f.isSet a := by
  have hbit : f.bit.toNat < 8 := by cases f <;> decide
  have ha : a.toNat < 2 ^ 8 := a.toNat_lt
  have hnot : (~~~a).toNat = 2 ^ 8 - (a.toNat + 1) := by
    rw [UInt8.toNat_not, Nat.sub_right_comm, Nat.sub_sub]
    rfl
  rw [isSet_eq_testBit, isSet_eq_testBit, hnot, Nat.testBit_two_pow_sub_succ ha]
  simp [hbit]

@[simp] theorem isSet_zero (f : Flag) : f.isSet 0 = false := by
  cases f <;> rfl

@[simp] theorem isSet_mask (f g : Flag) : f.isSet g.mask = decide (f = g) := by
  cases f <;> cases g <;> rfl

@[simp] theorem isSet_when (f g : Flag) (condition : Bool) :
    f.isSet (g.when condition) = (decide (f = g) && condition) := by
  cases condition <;> simp [Flag.when]

/-- A union has the flags that it is made of. -/
@[simp] theorem isSet_union (f : Flag) (flags : List Flag) :
    f.isSet (union flags) = decide (f ∈ flags) := by
  -- from any status byte on, since the union is a fold
  have hfold : ∀ sreg, f.isSet (flags.foldl (fun sreg g => sreg ||| g.mask) sreg) =
      (f.isSet sreg || decide (f ∈ flags)) := by
    induction flags with
    | nil => simp
    | cons g rest ih =>
        intro sreg
        rw [List.foldl_cons, ih]
        simp [Bool.or_assoc]
  rw [union, hfold, isSet_zero, Bool.false_or]

end Flag

/-! ## The account -/

/-- A byte read as a signed number. -/
def signed (d : Int) : Int := if d < 128 then d else d - 256

/-- The numbers that signed bytes stand for. -/
def IsSignedByte (v : Int) : Prop := -128 ≤ v ∧ v ≤ 127

instance (v : Int) : Decidable (IsSignedByte v) := inferInstanceAs (Decidable (_ ∧ _))

namespace Instruction

/-- What the register holds after an instruction on the operand `d`. Quotients are rounded
down and remainders are not negative. -/
def resultAfter (i : Instruction) (d : Int) (carry : Bool) : Int :=
  match i with
  | com => 255 - d
  | neg => (256 - d) % 256
  | swap => 16 * (d % 16) + d / 16
  | inc => (d + 1) % 256
  | dec => (d - 1) % 256
  | asr => signed d / 2 % 256
  | lsr => d / 2
  | ror => d / 2 + 128 * carry.toNat

/-- The carry after an instruction: a subtraction from zero borrows unless it is of zero,
and a shift moves the lowest bit out. -/
def carryAfter (i : Instruction) (d : Int) (carry : Bool) : Bool :=
  match i with
  | com => true
  | neg => d ≠ 0
  | asr | lsr | ror => d % 2 = 1
  | swap | inc | dec => carry

/-- The overflow after an instruction, given the negative flag and the carry it leaves: the
exact signed value of an arithmetic one is none that a byte has. -/
def overflowAfter (i : Instruction) (d : Int) (negative carry : Bool) : Bool :=
  match i with
  | com | swap => false
  | neg => ¬ IsSignedByte (-signed d)
  | inc => ¬ IsSignedByte (signed d + 1)
  | dec => ¬ IsSignedByte (signed d - 1)
  | asr | lsr | ror => negative != carry

/-- The half carry after an instruction: the lower half borrows unless it is zero. -/
def halfCarryAfter (i : Instruction) (d : Int) (halfCarry : Bool) : Bool :=
  if i = neg then d % 16 ≠ 0 else halfCarry

/-- The flags after an instruction on the operand `d`, from those before it. -/
def flagsAfter (i : Instruction) (d : Int) (before : Flag → Bool) : Flag → Bool :=
  let result := i.resultAfter d (before .carry)
  let negative : Bool := 128 ≤ result
  let carry := i.carryAfter d (before .carry)
  let overflow := i.overflowAfter d negative carry
  if i = swap then before
  else fun
    | .carry => carry
    | .zero => result = 0
    | .negative => negative
    | .overflow => overflow
    | .sign => negative != overflow
    | .halfCarry => i.halfCarryAfter d (before .halfCarry)
    | .transfer => before .transfer
    | .interruptEnable => before .interruptEnable

/-! ## Bytes as numbers -/

theorem beq_eq_decide (a b : UInt8) : (a == b) = decide (a.toNat = b.toNat) := by
  rw [Bool.eq_iff_iff, beq_iff_eq, decide_eq_true_iff, UInt8.toNat_inj]

theorem testBit_zero (a : UInt8) : testBit a 0 = decide ((a.toNat : Int) % 2 = 1) := by
  have hbit : testBit a 0 = a.toNat.testBit 0 := Flag.isSet_eq_testBit .carry a
  rw [hbit, Nat.testBit_eq_decide_div_mod_eq, decide_eq_decide]
  omega

theorem testBit_three (a : UInt8) : testBit a 3 = decide (8 ≤ a.toNat % 16) := by
  have hbit : testBit a 3 = a.toNat.testBit 3 := Flag.isSet_eq_testBit .overflow a
  rw [hbit, Nat.testBit_eq_decide_div_mod_eq, decide_eq_decide]
  omega

theorem testBit_seven (a : UInt8) : testBit a 7 = decide (128 ≤ a.toNat) := by
  have ha : a.toNat < 256 := a.toNat_lt
  have hbit : testBit a 7 = a.toNat.testBit 7 := Flag.isSet_eq_testBit .interruptEnable a
  rw [hbit, Nat.testBit_eq_decide_div_mod_eq, decide_eq_decide]
  omega

theorem toNat_half (a : UInt8) : (a >>> 1).toNat = a.toNat / 2 := by
  rw [UInt8.toNat_shiftRight]
  exact Nat.shiftRight_eq_div_pow a.toNat 1

/-- The highest bit adds to a byte in which it is clear. -/
theorem toNat_or_high {low high : UInt8} {b : Bool} (hlow : low.toNat < 128)
    (hhigh : high.toNat = 128 * b.toNat) : (low ||| high).toNat = low.toNat + 128 * b.toNat := by
  have hsum := Nat.two_pow_add_eq_or_of_lt (i := 7) hlow b.toNat
  rw [UInt8.toNat_or, hhigh, Nat.or_comm, ← hsum, Nat.add_comm]

/-- The halves of a byte have no bit in common once they have changed places. -/
theorem toNat_swap (a : UInt8) :
    ((a <<< 4) ||| (a >>> 4)).toNat = 16 * (a.toNat % 16) + a.toNat / 16 := by
  have ha : a.toNat < 256 := a.toNat_lt
  have hlow : (a >>> 4).toNat = a.toNat / 16 := by
    rw [UInt8.toNat_shiftRight]
    exact Nat.shiftRight_eq_div_pow a.toNat 4
  have hhigh : (a <<< 4).toNat = 16 * (a.toNat % 16) := by
    rw [UInt8.toNat_shiftLeft]
    show (a.toNat <<< 4) % 256 = 16 * (a.toNat % 16)
    rw [Nat.shiftLeft_eq]
    omega
  have hsmall : a.toNat / 16 < 2 ^ 4 := by omega
  rw [UInt8.toNat_or, hlow, hhigh]
  exact (Nat.two_pow_add_eq_or_of_lt hsmall _).symm

theorem toNat_negation (a : UInt8) : (0 - a).toNat = (256 - a.toNat) % 256 := UInt8.toNat_sub ..

/-! ## Results -/

/-- Half of a signed byte has the same highest bit again. -/
theorem signed_half (rd : UInt8) : signed rd.toNat / 2 % 256 =
    rd.toNat / 2 + 128 * (decide (128 ≤ rd.toNat)).toNat := by
  have hrd : rd.toNat < 256 := rd.toNat_lt
  unfold signed
  by_cases hhigh : 128 ≤ rd.toNat
  · simp only [hhigh, decide_true, Bool.toNat_true]
    split <;> omega
  · simp only [hhigh, decide_false, Bool.toNat_false]
    split <;> omega

/-- The model leaves the account's result. -/
theorem toNat_result (i : Instruction) (rd sreg : UInt8) :
    ((i.result rd sreg).toNat : Int) = i.resultAfter rd.toNat (Flag.carry.isSet sreg) := by
  have hrd : rd.toNat < 256 := rd.toNat_lt
  have hhalf : (rd >>> 1).toNat = rd.toNat / 2 := toNat_half rd
  have hclear : (rd >>> 1).toNat < 128 := by omega
  cases i with
  | com =>
      have hresult : (0xFF - rd).toNat = (256 - rd.toNat + 255) % 256 := UInt8.toNat_sub ..
      simp only [result, resultAfter, hresult]
      omega
  | neg =>
      simp only [result, resultAfter, toNat_negation]
      omega
  | swap =>
      simp only [result, resultAfter, toNat_swap]
      omega
  | inc =>
      have hresult : (rd + 1).toNat = (rd.toNat + 1) % 256 := UInt8.toNat_add ..
      simp only [result, resultAfter, hresult]
      omega
  | dec =>
      have hresult : (rd - 1).toNat = (255 + rd.toNat) % 256 := UInt8.toNat_sub ..
      simp only [result, resultAfter, hresult]
      omega
  | asr =>
      have hsign : (rd &&& 0x80).toNat = 128 * (testBit rd 7).toNat := by
        have hbit : testBit rd 7 = rd.toNat.testBit 7 :=
          Flag.isSet_eq_testBit .interruptEnable rd
        rw [hbit, UInt8.toNat_and, Nat.and_comm]
        exact Nat.two_pow_and rd.toNat 7
      simp only [result, resultAfter, signed_half, toNat_or_high hclear hsign, hhalf,
        testBit_seven]
      omega
  | lsr =>
      simp only [result, resultAfter, hhalf]
      omega
  | ror =>
      have hcarry : (if Flag.carry.isSet sreg then (0x80 : UInt8) else 0).toNat =
          128 * (Flag.carry.isSet sreg).toNat := by
        cases Flag.carry.isSet sreg <;> rfl
      simp only [result, resultAfter, toNat_or_high hclear hcarry, hhalf]
      omega

theorem result_eq_zero (i : Instruction) (rd sreg : UInt8) : (i.result rd sreg == 0) =
    decide (i.resultAfter rd.toNat (Flag.carry.isSet sreg) = 0) := by
  have hzero : (0 : UInt8).toNat = 0 := rfl
  rw [beq_eq_decide, ← toNat_result, hzero, decide_eq_decide]
  omega

theorem result_negative (i : Instruction) (rd sreg : UInt8) : testBit (i.result rd sreg) 7 =
    decide (128 ≤ i.resultAfter rd.toNat (Flag.carry.isSet sreg)) := by
  rw [testBit_seven, ← toNat_result, decide_eq_decide]
  omega

/-! ## Flags -/

/-- Only the least signed byte has a negative that is none. -/
theorem overflow_neg (rd sreg : UInt8) :
    (neg.result rd sreg == 0x80) = decide (¬ IsSignedByte (-signed rd.toNat)) := by
  have hrd : rd.toNat < 256 := rd.toNat_lt
  have hleast : (0x80 : UInt8).toNat = 128 := rfl
  rw [result, beq_eq_decide, toNat_negation, hleast, decide_eq_decide, IsSignedByte, signed]
  split <;> omega

theorem overflow_inc (rd : UInt8) :
    (rd == 0x7F) = decide (¬ IsSignedByte (signed rd.toNat + 1)) := by
  have hrd : rd.toNat < 256 := rd.toNat_lt
  have hgreatest : (0x7F : UInt8).toNat = 127 := rfl
  rw [beq_eq_decide, hgreatest, decide_eq_decide, IsSignedByte, signed]
  split <;> omega

theorem overflow_dec (rd : UInt8) :
    (rd == 0x80) = decide (¬ IsSignedByte (signed rd.toNat - 1)) := by
  have hrd : rd.toNat < 256 := rd.toNat_lt
  have hleast : (0x80 : UInt8).toNat = 128 := rfl
  rw [beq_eq_decide, hleast, decide_eq_decide, IsSignedByte, signed]
  split <;> omega

theorem carry_neg (rd sreg : UInt8) :
    (neg.result rd sreg != 0) = decide ((rd.toNat : Int) ≠ 0) := by
  have hrd : rd.toNat < 256 := rd.toNat_lt
  have hzero : (0 : UInt8).toNat = 0 := rfl
  rw [result, bne, beq_eq_decide, toNat_negation, hzero, ← decide_not, decide_eq_decide]
  omega

/-- Of a lower half and its negative one has its highest bit set, unless both are zero. -/
theorem halfCarry_neg (rd sreg : UInt8) :
    (testBit (neg.result rd sreg) 3 || testBit rd 3) = decide ((rd.toNat : Int) % 16 ≠ 0) := by
  have hrd : rd.toNat < 256 := rd.toNat_lt
  rw [result, testBit_three, testBit_three, toNat_negation, ← Bool.decide_or, decide_eq_decide]
  omega

@[simp] theorem isSet_resultFlags (f : Flag) (result : UInt8) (overflow : Bool) :
    f.isSet (resultFlags result overflow) = match f with
      | .zero => result == 0
      | .negative => testBit result 7
      | .sign => testBit result 7 != overflow
      | .overflow => overflow
      | _ => false := by
  cases f <;> simp [resultFlags]

/-- The flags that an instruction writes take their new values, and all others keep theirs. -/
theorem isSet_execute (i : Instruction) (rd sreg : UInt8) (f : Flag) :
    f.isSet (i.execute rd sreg).sreg =
      if f.isSet i.affected then f.isSet (i.flags rd (i.result rd sreg)) else f.isSet sreg := by
  simp only [execute, Flag.isSet_or, Flag.isSet_and, Flag.isSet_not]
  cases f.isSet i.affected <;> simp

/-- The model leaves the account's flags. -/
theorem isSet_execute_eq (i : Instruction) (rd sreg : UInt8) (f : Flag) :
    f.isSet (i.execute rd sreg).sreg = i.flagsAfter rd.toNat (fun g => g.isSet sreg) f := by
  rw [isSet_execute, flagsAfter]
  -- zero, negative and sign come from the result alone; overflow and carries are each one's own
  cases i with
  | com =>
      cases f <;> simp [affected, flags, result_eq_zero, result_negative, carryAfter,
        overflowAfter, halfCarryAfter]
  | neg =>
      cases f <;> simp [affected, flags, result_eq_zero, result_negative, carryAfter,
        overflowAfter, halfCarryAfter, overflow_neg, carry_neg, halfCarry_neg]
  | swap => simp [affected]
  | inc =>
      cases f <;> simp [affected, flags, result_eq_zero, result_negative, carryAfter,
        overflowAfter, halfCarryAfter, overflow_inc]
  | dec =>
      cases f <;> simp [affected, flags, result_eq_zero, result_negative, carryAfter,
        overflowAfter, halfCarryAfter, overflow_dec]
  | asr | lsr | ror =>
      cases f <;> simp [affected, flags, shiftFlags, result_eq_zero, result_negative, carryAfter,
        overflowAfter, halfCarryAfter, testBit_zero]

/-- What writes no flag leaves the status byte as it is. -/
theorem sreg_execute_of_affected {i : Instruction} (h : i.affected = 0) (rd sreg : UInt8) :
    (i.execute rd sreg).sreg = sreg := by
  simp [execute, h]

end Instruction

/-! ## States -/

namespace Opcode

/-- What the model makes of a case's operand and status byte. -/
def effect (o : Opcode) (c : Case) : Instruction.Effect :=
  o.instruction.execute c.initial.r[c.register] c.initial.sreg

/-- The expected snapshot, place by place. That the status byte is not written where the
instruction writes no flag makes no difference. -/
theorem expected_eq (o : Opcode) (c : Case) :
    o.expected c = ⟨c.initial.r.set c.register (o.effect c).result, (o.effect c).sreg,
      c.initial.sp, c.initial.pc + o.length⟩ := by
  have hnumber : (UInt8.ofNat c.register).toNat = c.register := by
    have hregister : c.register.val < 32 := c.register.isLt
    rw [UInt8.toNat_ofNat']
    omega
  have hkept : o.footprint.sreg = false → (o.effect c).sreg = c.initial.sreg := by
    intro hnone
    have haffected : o.instruction.affected = 0 := by simpa [footprint] using hnone
    exact Instruction.sreg_execute_of_affected haffected _ _
  show o.expectedFrom c.initial c.register = _
  rw [expectedFrom, ← effect]
  cases hwrites : o.footprint.sreg with
  | true => simp [Snapshot.set, hnumber]
  | false => simp [Snapshot.set, hnumber, hkept hwrites]

theorem toNat_add_length (o : Opcode) (pc : UInt32) :
    (pc + o.length).toNat = (pc.toNat + 2 * o.words.toNat) % 2 ^ 32 := by
  have hwords : o.words.toNat < 256 := o.words.toNat_lt
  rw [UInt32.toNat_add, length, UInt32.toNat_mul, UInt8.toNat_toUInt32]
  show (pc.toNat + o.words.toNat * 2 % 4294967296) % 4294967296 = _
  omega

/-- **The expected snapshot is the architecture's.** Whatever the opcode, its length
included, and whatever the case: the program counter moves on by the instruction's words;
the operand's register holds the result of the account, and the flags are those of the
account, for the operand and the flags that the registers held initially; `SWAP` leaves the
status byte alone. The stack pointer and all other working registers are unchanged. The
value that the case is named for plays no part. -/
theorem expected_architectural (o : Opcode) (c : Case) :
    let before := c.initial
    let after := o.expected c
    let d : Int := before.r[c.register].toNat
    let flags : Flag → Bool := fun f => f.isSet before.sreg
    after.pc.toNat = (before.pc.toNat + 2 * o.words.toNat) % 2 ^ 32 ∧
    (after.r[c.register].toNat : Int) = o.instruction.resultAfter d (flags .carry) ∧
    (∀ f : Flag, f.isSet after.sreg = o.instruction.flagsAfter d flags f) ∧
    (o.instruction = .swap → after.sreg = before.sreg) ∧
    after.sp = before.sp ∧
    (∀ n : Fin 32, n ≠ c.register → after.r.get n = before.r.get n) ∧
    ∀ value, o.expected { c with value } = after := by
  intro before after d flags
  have hafter := o.expected_eq c
  refine ⟨?_, ?_, ?_, ?_, ?_, ?_, fun _ => rfl⟩
  · simp only [after, hafter]
    exact o.toNat_add_length before.pc
  · simp only [after, hafter]
    have hset : (before.r.set c.register (o.effect c).result)[c.register] =
        (o.effect c).result := Vector.getElem_set_self ..
    rw [hset]
    exact o.instruction.toNat_result before.r[c.register] before.sreg
  · intro f
    simp only [after, hafter]
    exact o.instruction.isSet_execute_eq before.r[c.register] before.sreg f
  · intro hswap
    simp only [after, hafter]
    exact Instruction.sreg_execute_of_affected (by rw [hswap]; rfl) _ _
  · simp only [after, hafter]
    rfl
  · intro n hn
    simp only [after, hafter]
    have hne : c.register.val ≠ n.val := fun h => hn (Fin.ext h.symm)
    exact Vector.getElem_set_ne _ _ hne

end Opcode

end AvrConformance
