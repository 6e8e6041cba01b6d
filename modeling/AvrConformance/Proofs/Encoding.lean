import Mathlib.Data.Nat.Bitwise
import AvrConformance.Opcode.Table

/-!
# Operands in instruction words

A field is inserted into a word bit by bit (`BitField.testBit_insert`): the bits of the field
are the operand's, as far as the word has them, and all others stay. So what is read back is
the operand up to the end of the word (`BitField.toNat_extract_insert`).

An opcode binds the registers that it lists, that fit the width of its field and that the core
has (`Opcode.encode_eq_ok_iff`). The width may be more than the word has room for. Then an
operand loses its high bits: it is read back exactly if it has none there, and two operands
that differ in nothing else have one word (`Opcode.encode_names_operand`).
-/

namespace AvrConformance

/-! ## Words bit by bit -/

/-- Words of the same bits are the same. -/
theorem word_ext {a b : UInt16} (h : ∀ i < 16, a.toNat.testBit i = b.toNat.testBit i) : a = b := by
  apply UInt16.toNat_inj.mp
  apply Nat.eq_of_testBit_eq
  intro i
  by_cases hi : i < 16
  · exact h i hi
  · have hle : 2 ^ 16 ≤ 2 ^ i := Nat.pow_le_pow_right (by decide) (Nat.le_of_not_lt hi)
    rw [Nat.testBit_lt_two_pow (Nat.lt_of_lt_of_le a.toNat_lt hle),
      Nat.testBit_lt_two_pow (Nat.lt_of_lt_of_le b.toNat_lt hle)]

theorem testBit_complement (a : UInt16) {i : Nat} (hi : i < 16) :
    (~~~a).toNat.testBit i = !a.toNat.testBit i := by
  have hsize : UInt16.size = 2 ^ 16 := rfl
  have hnot : (~~~a).toNat = 2 ^ 16 - (a.toNat + 1) := by
    rw [UInt16.toNat_not, hsize, Nat.sub_sub, Nat.add_comm 1]
  rw [hnot, Nat.testBit_two_pow_sub_succ a.toNat_lt]
  simp [hi]

/-- A byte has eight bits. -/
theorem testBit_byte (value : UInt8) {i : Nat} (hi : 8 ≤ i) : value.toNat.testBit i = false := by
  have hle : 2 ^ 8 ≤ 2 ^ i := Nat.pow_le_pow_right (by decide) hi
  exact Nat.testBit_lt_two_pow (Nat.lt_of_lt_of_le value.toNat_lt hle)

namespace BitField

variable {f : BitField}

/-- The bits of the word from the lowest one of a field on. -/
def room (f : BitField) : Nat := 16 - f.shift.toNat

/-- Is this a bit of the field? -/
def Holds (f : BitField) (i : Nat) : Prop :=
  f.shift.toNat ≤ i ∧ i < f.shift.toNat + f.width.toNat

instance (f : BitField) (i : Nat) : Decidable (f.Holds i) := inferInstanceAs (Decidable (_ ∧ _))

/-- Shifts by less than the width of the word, and widths below 32, mean what they say. -/
structure Proper (f : BitField) : Prop where
  shift : f.shift.toNat < 16
  width : f.width.toNat < 32

theorem proper_of_le (hshift : f.shift ≤ 15) (hwidth : f.width ≤ 31) : f.Proper :=
  ⟨Nat.lt_succ_of_le (UInt8.le_iff_toNat_le.mp hshift),
    Nat.lt_succ_of_le (UInt8.le_iff_toNat_le.mp hwidth)⟩

theorem Proper.count (h : f.Proper) : f.count = 2 ^ f.width.toNat := by
  show 2 ^ (f.width.toNat % 32) = _
  rw [Nat.mod_eq_of_lt h.width]

theorem Proper.fits_iff (h : f.Proper) (value : UInt8) :
    f.fits value = true ↔ value.toNat < 2 ^ f.width.toNat := by
  rw [fits, decide_eq_true_eq, h.count]

/-- A word that is shifted to the field. -/
theorem testBit_shiftLeft (h : f.Proper) (a : UInt16) {i : Nat} (hi : i < 16) :
    (a <<< f.shift.toUInt16).toNat.testBit i =
      (decide (f.shift.toNat ≤ i) && a.toNat.testBit (i - f.shift.toNat)) := by
  have hshift : f.shift.toUInt16.toNat % 16 = f.shift.toNat := by
    rw [UInt8.toNat_toUInt16, Nat.mod_eq_of_lt h.shift]
  rw [UInt16.toNat_shiftLeft, hshift, Nat.testBit_mod_two_pow, Nat.testBit_shiftLeft]
  simp [hi]

theorem testBit_mask (h : f.Proper) {i : Nat} (hi : i < 16) :
    f.mask.toNat.testBit i = decide (f.Holds i) := by
  rw [mask, testBit_shiftLeft h _ hi, UInt16.toNat_ofNat', h.count, Nat.testBit_mod_two_pow,
    Nat.testBit_two_pow_sub_one, Bool.eq_iff_iff]
  simp only [Bool.and_eq_true, decide_eq_true_eq]
  unfold Holds
  omega

/-- The bits of the field become those of the value, and all others stay. -/
theorem testBit_insert (h : f.Proper) (word : UInt16) (value : UInt8) {i : Nat} (hi : i < 16) :
    (f.insert word value).toNat.testBit i =
      if f.Holds i then value.toNat.testBit (i - f.shift.toNat) else word.toNat.testBit i := by
  rw [insert, UInt16.toNat_or, Nat.testBit_or, UInt16.toNat_and, UInt16.toNat_and,
    Nat.testBit_and, Nat.testBit_and, testBit_complement _ hi, testBit_mask h hi,
    testBit_shiftLeft h _ hi, UInt8.toNat_toUInt16]
  by_cases hheld : f.Holds i
  · simp [hheld, hheld.1]
  · simp [hheld]

/-- Bits outside the field stay. -/
theorem insert_and_complement (h : f.Proper) (word : UInt16) (value : UInt8) :
    f.insert word value &&& ~~~f.mask = word &&& ~~~f.mask := by
  apply word_ext
  intro i hi
  rw [UInt16.toNat_and, UInt16.toNat_and, Nat.testBit_and, Nat.testBit_and,
    testBit_complement _ hi, testBit_mask h hi, testBit_insert h _ _ hi]
  by_cases hheld : f.Holds i <;> simp [hheld]

theorem testBit_extract (h : f.Proper) (word : UInt16) (i : Nat) :
    (f.extract word).toNat.testBit i =
      (decide (i < 8 ∧ i < f.width.toNat ∧ i < f.room) &&
        word.toNat.testBit (f.shift.toNat + i)) := by
  have hshift : f.shift.toUInt16.toNat % 16 = f.shift.toNat := by
    rw [UInt8.toNat_toUInt16, Nat.mod_eq_of_lt h.shift]
  rw [extract, UInt16.toNat_toUInt8, Nat.testBit_mod_two_pow, UInt16.toNat_shiftRight, hshift,
    Nat.testBit_shiftRight, UInt16.toNat_and, Nat.testBit_and]
  by_cases hroom : i < f.room
  · have hi : f.shift.toNat + i < 16 := by
      unfold room at hroom
      omega
    have hheld : f.Holds (f.shift.toNat + i) ↔ i < f.width.toNat := by
      unfold Holds
      omega
    rw [testBit_mask h hi, Bool.and_comm (word.toNat.testBit _), ← Bool.and_assoc]
    simp only [hheld, hroom, and_true, Bool.decide_and]
  · -- the word ends before this bit
    have hend : 2 ^ 16 ≤ 2 ^ (f.shift.toNat + i) := by
      apply Nat.pow_le_pow_right (by decide)
      unfold room at hroom
      omega
    rw [Nat.testBit_lt_two_pow (Nat.lt_of_lt_of_le word.toNat_lt hend)]
    simp

/-- What is read back is the value, up to the width of the field and to the end of the word. -/
theorem toNat_extract_insert (h : f.Proper) (word : UInt16) (value : UInt8) :
    (f.extract (f.insert word value)).toNat =
      value.toNat % 2 ^ min f.width.toNat f.room := by
  apply Nat.eq_of_testBit_eq
  intro i
  rw [testBit_extract h, Nat.testBit_mod_two_pow]
  by_cases hbyte : i < 8
  · by_cases hheld : i < f.width.toNat ∧ i < f.room
    · have hi : f.shift.toNat + i < 16 := by
        have hroom := hheld.2
        unfold room at hroom
        omega
      have hbit : f.Holds (f.shift.toNat + i) := ⟨by omega, by omega⟩
      rw [testBit_insert h _ _ hi, if_pos hbit, Nat.add_sub_cancel_left]
      have hsome : i < min f.width.toNat f.room := by omega
      simp [hbyte, hheld, hsome]
    · have hnone : ¬ i < min f.width.toNat f.room := by omega
      simp [hnone, hheld]
  · rw [testBit_byte value (Nat.le_of_not_lt hbyte)]
    simp [hbyte]

/-- A value that fits the width is read back up to the end of the word. -/
theorem toNat_extract_insert_of_lt (h : f.Proper) (word : UInt16) {value : UInt8}
    (hfits : value.toNat < 2 ^ f.width.toNat) :
    (f.extract (f.insert word value)).toNat = value.toNat % 2 ^ f.room := by
  rw [toNat_extract_insert h]
  rcases Nat.le_total f.width.toNat f.room with hle | hle
  · have hroom : value.toNat < 2 ^ f.room :=
      Nat.lt_of_lt_of_le hfits (Nat.pow_le_pow_right (by decide) hle)
    rw [Nat.min_eq_left hle, Nat.mod_eq_of_lt hfits, Nat.mod_eq_of_lt hroom]
  · rw [Nat.min_eq_right hle]

/-- An insertion looks at no bits of the value for which the word has no room. -/
theorem insert_congr (h : f.Proper) (word : UInt16) {value other : UInt8}
    (hsame : value.toNat % 2 ^ f.room = other.toNat % 2 ^ f.room) :
    f.insert word value = f.insert word other := by
  apply word_ext
  intro i hi
  rw [testBit_insert h _ _ hi, testBit_insert h _ _ hi]
  split
  · rename_i hheld
    have hroom : i - f.shift.toNat < f.room := by
      have hlow := hheld.1
      unfold room
      omega
    have hbit := congrArg (fun n => n.testBit (i - f.shift.toNat)) hsame
    simpa [Nat.testBit_mod_two_pow, hroom] using hbit
  · rfl

end BitField

namespace Opcode

variable {o : Opcode}

/-- Does the opcode list the register? -/
def Lists (o : Opcode) (rd : UInt8) : Prop := o.first ≤ rd ∧ rd ≤ o.last

/-- Has the width of the field a place for the register, and has the core the register? -/
def Binds (o : Opcode) (rd : UInt8) : Prop :=
  rd.toNat < 2 ^ o.destination.width.toNat ∧ rd.toNat < 32

instance (o : Opcode) (rd : UInt8) : Decidable (o.Lists rd) :=
  inferInstanceAs (Decidable (_ ∧ _))

instance (o : Opcode) (rd : UInt8) : Decidable (o.Binds rd) :=
  inferInstanceAs (Decidable (_ ∧ _))

/-- What an operand is refused for that the opcode lists: its field, or else the core. -/
def objection (o : Opcode) (rd : UInt8) : EncodeError :=
  if rd.toNat < 2 ^ o.destination.width.toNat then .noSuchRegister o.mnemonic rd
  else .tooWide o.mnemonic rd o.destination.width

theorem not_outside_iff {rd : UInt8} : ¬ (rd < o.first ∨ o.last < rd) ↔ o.Lists rd := by
  rw [not_or, UInt8.not_lt, UInt8.not_lt]
  rfl

theorem operand_eq_ok_iff (h : o.destination.Proper) {rd : UInt8} {register : Fin 32} :
    o.operand rd = .ok register ↔ o.Lists rd ∧ o.Binds rd ∧ rd.toNat = register.val := by
  unfold operand
  split
  next houtside =>
    refine iff_of_false nofun fun hbound => ?_
    exact not_outside_iff.mpr hbound.1 houtside
  next hinside =>
    have hlisted := not_outside_iff.mp hinside
    by_cases hfits : o.destination.fits rd = true
    · have hwidth := (h.fits_iff rd).mp hfits
      rw [hfits]
      simp only [Bool.not_true, Bool.false_eq_true, if_false]
      split
      next hcore =>
        rw [Except.ok.injEq, Fin.ext_iff]
        exact ⟨fun hsame => ⟨hlisted, ⟨hwidth, hcore⟩, hsame⟩, fun hbound => hbound.2.2⟩
      next hcore => exact iff_of_false nofun fun hbound => hcore hbound.2.1.2
    · rw [Bool.eq_false_iff.mpr hfits]
      simp only [Bool.not_false, if_true]
      exact iff_of_false nofun fun hbound => hfits ((h.fits_iff rd).mpr hbound.2.1.1)

/-- A listed register that cannot be bound is objected to. -/
theorem operand_eq_error (h : o.destination.Proper) {rd : UInt8} (hlisted : o.Lists rd)
    (hunbound : ¬ o.Binds rd) : o.operand rd = .error (o.objection rd) := by
  unfold operand objection
  rw [if_neg (not_outside_iff.mpr hlisted)]
  by_cases hwidth : rd.toNat < 2 ^ o.destination.width.toNat
  · have hcore : ¬ rd.toNat < 32 := fun hcore => hunbound ⟨hwidth, hcore⟩
    rw [(h.fits_iff rd).mpr hwidth]
    simp only [Bool.not_true, Bool.false_eq_true, if_false, dif_neg hcore, if_pos hwidth]
  · have hfits : o.destination.fits rd = false :=
      Bool.eq_false_iff.mpr fun hfits => hwidth ((h.fits_iff rd).mp hfits)
    rw [hfits]
    simp only [Bool.not_false, if_true, if_neg hwidth]

theorem encode_eq_error (h : o.destination.Proper) {rd : UInt8} (hlisted : o.Lists rd)
    (hunbound : ¬ o.Binds rd) : o.encode rd = .error (o.objection rd) := by
  rw [encode, operand_eq_error h hlisted hunbound]
  rfl

theorem encode_eq_ok_iff (h : o.destination.Proper) {rd : UInt8} {word : UInt16} :
    o.encode rd = .ok word ↔
      o.Lists rd ∧ o.Binds rd ∧ o.destination.insert o.template rd = word := by
  rw [encode]
  constructor
  · intro hok
    cases hoperand : o.operand rd with
    | error e =>
        rw [hoperand] at hok
        cases hok
    | ok register =>
        rw [hoperand] at hok
        obtain ⟨hlisted, hbound, -⟩ := (operand_eq_ok_iff h).mp hoperand
        exact ⟨hlisted, hbound, Except.ok.inj hok⟩
  · rintro ⟨hlisted, hbound, hword⟩
    have hoperand : o.operand rd = .ok ⟨rd.toNat, hbound.2⟩ :=
      (operand_eq_ok_iff h).mpr ⟨hlisted, hbound, rfl⟩
    rw [hoperand, ← hword]
    rfl

/-- **What a word says of its operand.** A word keeps the opcode's bits outside the field, and
its operand fits the width of the field. It is read back up to the end of the word, so that it
comes back whole exactly if the word has room for it, and two operands have one word exactly if
they are the same up to there. If the word has room for the field, or for the five bits of a
register, every operand comes back. -/
theorem encode_names_operand (hshift : o.destination.shift ≤ 15)
    (hwidth : o.destination.width ≤ 31) :
    (∀ rd word, o.encode rd = .ok word →
      rd.toNat < 2 ^ o.destination.width.toNat ∧
      word &&& ~~~o.destination.mask = o.template &&& ~~~o.destination.mask ∧
      (o.destination.extract word).toNat = rd.toNat % 2 ^ o.destination.room ∧
      (o.destination.extract word = rd ↔ rd.toNat < 2 ^ o.destination.room)) ∧
    (∀ rd other word word', o.encode rd = .ok word → o.encode other = .ok word' →
      (word = word' ↔ rd.toNat % 2 ^ o.destination.room = other.toNat % 2 ^ o.destination.room)) ∧
    (min 5 o.destination.width.toNat ≤ o.destination.room → ∀ rd word,
      o.encode rd = .ok word → o.destination.extract word = rd) := by
  have hproper := BitField.proper_of_le hshift hwidth
  have hread : ∀ {rd word}, o.encode rd = .ok word →
      (o.destination.extract word).toNat = rd.toNat % 2 ^ o.destination.room := by
    intro rd word hword
    obtain ⟨-, hbound, rfl⟩ := (encode_eq_ok_iff hproper).mp hword
    exact BitField.toNat_extract_insert_of_lt hproper o.template hbound.1
  have hback : ∀ {rd word}, o.encode rd = .ok word →
      (o.destination.extract word = rd ↔ rd.toNat < 2 ^ o.destination.room) := by
    intro rd word hword
    rw [← UInt8.toNat_inj, hread hword]
    exact Nat.mod_eq_iff_lt (Nat.ne_of_gt (Nat.two_pow_pos _))
  refine ⟨fun rd word hword => ?_, fun rd other word word' hword hother => ?_,
    fun hroom rd word hword => ?_⟩
  · obtain ⟨-, hbound, hinsert⟩ := (encode_eq_ok_iff hproper).mp hword
    refine ⟨hbound.1, ?_, hread hword, hback hword⟩
    rw [← hinsert]
    exact BitField.insert_and_complement hproper o.template rd
  · constructor
    · rintro rfl
      rw [← hread hword, hread hother]
    · intro hsame
      obtain ⟨-, -, rfl⟩ := (encode_eq_ok_iff hproper).mp hword
      obtain ⟨-, -, rfl⟩ := (encode_eq_ok_iff hproper).mp hother
      exact BitField.insert_congr hproper o.template hsame
  · obtain ⟨-, ⟨hfits, hcore⟩, -⟩ := (encode_eq_ok_iff hproper).mp hword
    refine (hback hword).mpr ?_
    -- a register has at most five bits, and at most those of the width
    rcases Nat.le_total 5 o.destination.width.toNat with hle | hle
    · rw [Nat.min_eq_left hle] at hroom
      exact Nat.lt_of_lt_of_le hcore (Nat.pow_le_pow_right Nat.two_pos hroom)
    · rw [Nat.min_eq_right hle] at hroom
      exact Nat.lt_of_lt_of_le hfits (Nat.pow_le_pow_right Nat.two_pos hroom)

/-- An opcode whose field is five bits wide, where the word has room for four of them. -/
def overhanging : Opcode :=
  { singleRegister "COM" .com 0x9400 [0x00] [.overflow] with destination := ⟨12, 5⟩ }

theorem encode_names_operand_of_overhanging :
    overhanging.destination.shift ≤ 15 ∧ overhanging.destination.width ≤ 31 ∧
      overhanging.encode 17 = .ok 0x1400 ∧
      (overhanging.destination.extract 0x1400).toNat = 17 % 2 ^ 4 := by
  have hshift : overhanging.destination.shift ≤ 15 := by decide
  have hwidth : overhanging.destination.width ≤ 31 := by decide
  have hword : overhanging.encode 17 = .ok 0x1400 := rfl
  obtain ⟨-, -, hread, -⟩ := (encode_names_operand hshift hwidth).1 17 0x1400 hword
  exact ⟨hshift, hwidth, hword, hread⟩

/-- The highest bit of an operand may be lost, and then its word names another register. -/
theorem encode_names_operand_but_for_lost_bits :
    overhanging.destination.shift ≤ 15 ∧ overhanging.destination.width ≤ 31 ∧
      overhanging.encode 16 = .ok 0x0400 ∧ overhanging.destination.extract 0x0400 ≠ 16 ∧
      overhanging.encode 0 = .ok 0x0400 :=
  ⟨by decide, by decide, rfl, by decide, rfl⟩

end Opcode

end AvrConformance
