import Mathlib.Data.Nat.Digits.Defs
import Mathlib.Tactic.Ring
import AvrConformance.Proofs.Architecture

/-!
# Shifts of several bytes

A core shifts one byte at a time. A longer number is shifted to the right from its most
significant byte on: the first byte by the shift that is wanted, and each byte after it by
`ROR`, which takes in from the carry what the byte before it gave out. This comes out right
because of what every step keeps: **twice the bytes that are left, and the carry that is given
out, are the bytes that were there, and the carry that was taken in**
(`twice_number_rotateEach`, by induction on the bytes).

Other instructions may be executed meanwhile as long as they leave the carry alone, as
counting and the exchange of half bytes do. The flags that neither they nor the shifts write
are at the end what they were at the start (`isSet_shiftEach_of_not_affected`).
-/

namespace AvrConformance.Instruction

/-! ## One execution -/

theorem isSet_execute_of_not_affected {i : Instruction} {f : Flag} (rd sreg : UInt8)
    (h : f.isSet i.affected = false) : f.isSet (i.execute rd sreg).sreg = f.isSet sreg := by
  rw [isSet_execute, h]
  rfl

/-- Counting and the exchange of half bytes leave the carry alone. -/
theorem carry_not_affected : ∀ i ∈ [inc, dec, swap], Flag.carry.isSet i.affected = false := by
  decide

/-- Neither do they or the shifts write these flags. -/
theorem kept_not_affected : ∀ i ∈ [inc, dec, swap, lsr, asr, ror],
    ∀ f ∈ [Flag.transfer, .interruptEnable, .halfCarry], f.isSet i.affected = false := by
  decide

/-- A shift takes in a bit above the byte and gives out the one at its lower end. -/
def Shifts (i : Instruction) (rd sreg : UInt8) (taken : Bool) : Prop :=
  2 * (i.execute rd sreg).result.toNat +
      (Flag.carry.isSet (i.execute rd sreg).sreg).toNat = rd.toNat + 256 * taken.toNat

/-- A shift takes in the bit that stands on top of its result. -/
theorem shifts_of_resultAfter {i : Instruction} (hi : i ∈ [lsr, asr, ror]) {rd sreg : UInt8}
    {taken : Bool}
    (h : i.resultAfter rd.toNat (Flag.carry.isSet sreg) = rd.toNat / 2 + 128 * taken.toNat) :
    i.Shifts rd sreg taken := by
  have hresult : ((i.execute rd sreg).result.toNat : Int) = _ := i.toNat_result rd sreg
  have hcarry : Flag.carry.isSet (i.execute rd sreg).sreg =
      decide ((rd.toNat : Int) % 2 = 1) := by
    rw [isSet_execute_eq]
    simp only [List.mem_cons, List.not_mem_nil, or_false] at hi
    rcases hi with rfl | rfl | rfl <;> rfl
  rw [h] at hresult
  by_cases hodd : (rd.toNat : Int) % 2 = 1
  · simp only [Shifts, hcarry, hodd, decide_true, Bool.toNat_true]
    omega
  · simp only [Shifts, hcarry, hodd, decide_false, Bool.toNat_false]
    omega

theorem lsr_shifts (rd sreg : UInt8) : lsr.Shifts rd sreg false :=
  shifts_of_resultAfter (by decide) (by simp [resultAfter])

theorem ror_shifts (rd sreg : UInt8) : ror.Shifts rd sreg (Flag.carry.isSet sreg) :=
  shifts_of_resultAfter (by decide) rfl

/-- What an arithmetic shift takes in is the bit that was on top. -/
theorem asr_shifts (rd sreg : UInt8) : asr.Shifts rd sreg (decide (128 ≤ rd.toNat)) :=
  shifts_of_resultAfter (by decide) (signed_half rd)

/-! ## Executions one after another -/

/-- The status byte after executions, each on an operand of its own and on the status byte
that the one before it left. -/
def sregAfter (sreg : UInt8) (executions : List (Instruction × UInt8)) : UInt8 :=
  executions.foldl (fun sreg e => (e.1.execute e.2 sreg).sreg) sreg

theorem isSet_sregAfter_of_not_affected {f : Flag} {executions : List (Instruction × UInt8)}
    (h : ∀ e ∈ executions, f.isSet e.1.affected = false) (sreg : UInt8) :
    f.isSet (sregAfter sreg executions) = f.isSet sreg := by
  induction executions generalizing sreg with
  | nil => rfl
  | cons e rest ih =>
      obtain ⟨hfirst, hrest⟩ := List.forall_mem_cons.mp h
      have hlater : f.isSet (sregAfter (e.1.execute e.2 sreg).sreg rest) =
          f.isSet (e.1.execute e.2 sreg).sreg := ih hrest _
      rw [← isSet_execute_of_not_affected e.2 sreg hfirst]
      exact hlater

/-- A byte of a longer number, and what is executed between the shift of the byte before it
and its own. -/
structure Stage where
  between : List (Instruction × UInt8)
  byte : UInt8

/-- What shifts leave: the bytes, and the last status byte. -/
structure Shifted where
  bytes : List UInt8
  sreg : UInt8
  deriving DecidableEq

/-- Bytes rotated one after another, with one status byte passed on through all that is
executed. -/
def rotateEach (sreg : UInt8) : List Stage → Shifted
  | [] => ⟨[], sreg⟩
  | stage :: rest =>
    let effect := ror.execute stage.byte (sregAfter sreg stage.between)
    let later := rotateEach effect.sreg rest
    ⟨effect.result :: later.bytes, later.sreg⟩

/-- A number shifted: `i` on its most significant byte, and a rotation of each byte that
follows. -/
def shiftEach (i : Instruction) (first : UInt8) (rest : List Stage) (sreg : UInt8) : Shifted :=
  let effect := i.execute first sreg
  let later := rotateEach effect.sreg rest
  ⟨effect.result :: later.bytes, later.sreg⟩

theorem length_rotateEach (sreg : UInt8) (stages : List Stage) :
    (rotateEach sreg stages).bytes.length = stages.length := by
  induction stages generalizing sreg with
  | nil => rfl
  | cons stage rest ih => exact congrArg Nat.succ (ih _)

/-! ### Flags that nothing writes -/

theorem isSet_rotateEach_of_not_affected {f : Flag} {stages : List Stage}
    (hror : f.isSet ror.affected = false)
    (h : ∀ stage ∈ stages, ∀ e ∈ stage.between, f.isSet e.1.affected = false) (sreg : UInt8) :
    f.isSet (rotateEach sreg stages).sreg = f.isSet sreg := by
  induction stages generalizing sreg with
  | nil => rfl
  | cons stage rest ih =>
      obtain ⟨hfirst, hrest⟩ := List.forall_mem_cons.mp h
      have hlater : f.isSet (rotateEach sreg (stage :: rest)).sreg =
          f.isSet (ror.execute stage.byte (sregAfter sreg stage.between)).sreg := ih hrest _
      rw [hlater, isSet_execute_of_not_affected _ _ hror,
        isSet_sregAfter_of_not_affected hfirst]

theorem isSet_shiftEach_of_not_affected {i : Instruction} {f : Flag} {rest : List Stage}
    (hi : f.isSet i.affected = false) (hror : f.isSet ror.affected = false)
    (h : ∀ stage ∈ rest, ∀ e ∈ stage.between, f.isSet e.1.affected = false)
    (first sreg : UInt8) : f.isSet (shiftEach i first rest sreg).sreg = f.isSet sreg := by
  rw [← isSet_execute_of_not_affected first sreg hi]
  exact isSet_rotateEach_of_not_affected hror h _

/-! ## Numbers of several bytes -/

/-- The number that bytes write, the most significant first. -/
def number (bytes : List UInt8) : Nat := Nat.ofDigits 256 (bytes.map UInt8.toNat).reverse

theorem number_cons (b : UInt8) (bytes : List UInt8) :
    number (b :: bytes) = number bytes + 256 ^ bytes.length * b.toNat := by
  simp [number, Nat.ofDigits_append]

theorem number_lt (bytes : List UInt8) : number bytes < 256 ^ bytes.length := by
  have hdigits : ∀ d ∈ (bytes.map UInt8.toNat).reverse, d < 256 := by
    intro d hd
    obtain ⟨b, -, rfl⟩ := List.mem_map.mp (List.mem_reverse.mp hd)
    exact b.toNat_lt
  simpa [number] using Nat.ofDigits_lt_base_pow_length (by decide) hdigits

/-- The number that bytes write in two's complement: one whose highest bit is set is
negative. -/
def signedNumber (bytes : List UInt8) : Int :=
  let above : Nat := 256 ^ bytes.length
  if 2 * number bytes < above then number bytes else number bytes - above

/-- The highest bit of a number is that of its most significant byte. -/
theorem top_iff (first : UInt8) (bytes : List UInt8) :
    256 ^ (bytes.length + 1) ≤ 2 * number (first :: bytes) ↔ 128 ≤ first.toNat := by
  have hlow : number bytes < 256 ^ bytes.length := number_lt bytes
  rw [number_cons, Nat.pow_succ]
  generalize 256 ^ bytes.length = weight at hlow ⊢
  constructor
  · intro h
    by_contra hsmall
    have hbelow : weight * first.toNat ≤ weight * 127 := Nat.mul_le_mul_left _ (by omega)
    omega
  · intro h
    have habove : weight * 128 ≤ weight * first.toNat := Nat.mul_le_mul_left _ h
    omega

/-! ## Shifts of numbers -/

/-- Put before bytes that take in what it gives out, a byte that is shifted carries on what
the shift keeps. -/
theorem twice_number_cons {i : Instruction} {rd sreg : UInt8} {taken out : Bool}
    {before after : List UInt8} (hlength : after.length = before.length)
    (hshifts : i.Shifts rd sreg taken)
    (h : 2 * number after + out.toNat = number before +
      256 ^ before.length * (Flag.carry.isSet (i.execute rd sreg).sreg).toNat) :
    2 * number ((i.execute rd sreg).result :: after) + out.toNat =
      number (rd :: before) + 256 ^ (before.length + 1) * taken.toNat := by
  rw [Shifts] at hshifts
  rw [number_cons, number_cons, hlength, Nat.pow_succ]
  generalize 256 ^ before.length = weight at h ⊢
  calc
    2 * (number after + weight * (i.execute rd sreg).result.toNat) + out.toNat
      = (2 * number after + out.toNat) + weight * (2 * (i.execute rd sreg).result.toNat) := by
        ring
    _ = number before + weight * (2 * (i.execute rd sreg).result.toNat +
          (Flag.carry.isSet (i.execute rd sreg).sreg).toNat) := by
        rw [h]
        ring
    _ = number before + weight * (rd.toNat + 256 * taken.toNat) := by
        rw [hshifts]
    _ = number before + weight * rd.toNat + weight * 256 * taken.toNat := by
        ring

/-- **What rotations keep**: twice the bytes that are left, and the carry that is given out,
are the bytes that were there, and the carry that was taken in. -/
theorem twice_number_rotateEach {stages : List Stage}
    (h : ∀ stage ∈ stages, ∀ e ∈ stage.between, Flag.carry.isSet e.1.affected = false)
    (sreg : UInt8) :
    2 * number (rotateEach sreg stages).bytes +
        (Flag.carry.isSet (rotateEach sreg stages).sreg).toNat =
      number (stages.map Stage.byte) +
        256 ^ stages.length * (Flag.carry.isSet sreg).toNat := by
  induction stages generalizing sreg with
  | nil => simp [rotateEach, number]
  | cons stage rest ih =>
      obtain ⟨hfirst, hrest⟩ := List.forall_mem_cons.mp h
      -- what comes between hands the carry on
      have hcarry : Flag.carry.isSet (sregAfter sreg stage.between) = Flag.carry.isSet sreg :=
        isSet_sregAfter_of_not_affected hfirst sreg
      have hshifts : ror.Shifts stage.byte (sregAfter sreg stage.between)
          (Flag.carry.isSet sreg) := hcarry ▸ ror_shifts _ _
      have hlater := ih hrest (ror.execute stage.byte (sregAfter sreg stage.between)).sreg
      rw [← List.length_map Stage.byte] at hlater ⊢
      exact twice_number_cons (by simp [length_rotateEach]) hshifts hlater

theorem twice_number_shiftEach {i : Instruction} {first sreg : UInt8} {taken : Bool}
    {rest : List Stage} (hshifts : i.Shifts first sreg taken)
    (h : ∀ stage ∈ rest, ∀ e ∈ stage.between, Flag.carry.isSet e.1.affected = false) :
    2 * number (shiftEach i first rest sreg).bytes +
        (Flag.carry.isSet (shiftEach i first rest sreg).sreg).toNat =
      number (first :: rest.map Stage.byte) + 256 ^ (rest.length + 1) * taken.toNat := by
  have hlater := twice_number_rotateEach h (i.execute first sreg).sreg
  rw [← List.length_map Stage.byte] at hlater ⊢
  exact twice_number_cons (by simp [length_rotateEach]) hshifts hlater

/-- A shift leaves `half` of the number in as many bytes, and the number's lowest bit in the
carry. The flags that no shift writes are as they were. -/
structure Halves (bytes : List UInt8) (sreg : UInt8) (after : Shifted) (half : Int) : Prop where
  length : after.bytes.length = bytes.length
  number : (number after.bytes : Int) = half
  carry : Flag.carry.isSet after.sreg = decide (Instruction.number bytes % 2 = 1)
  kept : ∀ f ∈ [Flag.transfer, .interruptEnable, .halfCarry],
    f.isSet after.sreg = f.isSet sreg

theorem halves_shiftEach {i : Instruction} (hi : i ∈ [lsr, asr, ror]) {first sreg : UInt8}
    {taken : Bool} {rest : List Stage} (hshifts : i.Shifts first sreg taken)
    (hbetween : ∀ stage ∈ rest, ∀ e ∈ stage.between, e.1 ∈ [inc, dec, swap]) :
    Halves (first :: rest.map Stage.byte) sreg (shiftEach i first rest sreg)
      ((number (first :: rest.map Stage.byte) + 256 ^ (rest.length + 1) * taken.toNat) / 2 :
        Nat) := by
  have htwice := twice_number_shiftEach hshifts fun stage hstage e he =>
    carry_not_affected e.1 (hbetween stage hstage e he)
  -- the bit that is taken in stands above the number and does not show in the carry
  have heven : 256 ^ (rest.length + 1) * taken.toNat =
      2 * (256 ^ rest.length * 128 * taken.toNat) := by ring
  rw [heven] at htwice ⊢
  generalize 256 ^ rest.length * 128 * taken.toNat = above at *
  refine ⟨?_, ?_, ?_, ?_⟩
  · simp [shiftEach, length_rotateEach]
  · have hbit := Bool.toNat_lt (Flag.carry.isSet (shiftEach i first rest sreg).sreg)
    omega
  · cases hcarry : Flag.carry.isSet (shiftEach i first rest sreg).sreg with
    | true =>
        rw [hcarry, Bool.toNat_true] at htwice
        rw [eq_comm, decide_eq_true_iff]
        omega
    | false =>
        rw [hcarry, Bool.toNat_false] at htwice
        rw [eq_comm, decide_eq_false_iff_not]
        omega
  · intro f hf
    refine isSet_shiftEach_of_not_affected ?_ ?_ ?_ first sreg
    · exact kept_not_affected i (List.mem_append_right [inc, dec, swap] hi) f hf
    · exact kept_not_affected ror (by decide) f hf
    · intro stage hstage e he
      have hmem : e.1 ∈ [inc, dec, swap] := hbetween stage hstage e he
      exact kept_not_affected e.1 (List.mem_append_left [lsr, asr, ror] hmem) f hf

/-- A negative number is halved, rounding down, by shifting its highest bit in again. -/
theorem signedNumber_div_two (first : UInt8) (bytes : List UInt8) :
    signedNumber (first :: bytes) / 2 % (256 ^ (bytes.length + 1) : Nat) =
      ((number (first :: bytes) +
        256 ^ (bytes.length + 1) * (decide (128 ≤ first.toNat)).toNat) / 2 : Nat) := by
  have hlt : number (first :: bytes) < 256 ^ (bytes.length + 1) := number_lt _
  have htop := top_iff first bytes
  have heven : 256 ^ (bytes.length + 1) = 2 * (256 ^ bytes.length * 128) := by ring
  rw [signedNumber, List.length_cons]
  generalize 256 ^ (bytes.length + 1) = above at *
  by_cases hhigh : 128 ≤ first.toNat
  · have hneg : ¬ 2 * number (first :: bytes) < above := by omega
    simp only [hhigh, hneg, if_false, decide_true, Bool.toNat_true, Nat.mul_one]
    -- the quotient is negative, and `above` makes it a number of as many bytes
    have hsum : ((number (first :: bytes) : Int) - above) / 2 + above =
        ((number (first :: bytes) + above) / 2 : Nat) := by omega
    rw [← Int.add_emod_right, hsum]
    exact Int.emod_eq_of_lt (by omega) (by omega)
  · have hpos : 2 * number (first :: bytes) < above := by omega
    simp only [hhigh, hpos, if_true, decide_false, Bool.toNat_false, Nat.mul_zero]
    exact Int.emod_eq_of_lt (by omega) (by omega)

/-- **Several bytes are shifted as one number.** Of a number of one byte or more, whatever the
status byte, the most significant byte is shifted and each byte after it rotated, with the
status byte passed on; in between, anything may be counted or have its half bytes exchanged.
Then the bytes that are left write half of the number, rounded down: for `LSR` of the number
as it stands, for `ASR` of the signed number, in two's complement again, and for `ROR` of the
number with the carry above it. The carry is then the number's lowest bit, and `T`, `I` and `H`
are as they were. -/
theorem shiftEach_halves (first : UInt8) (rest : List Stage) (sreg : UInt8)
    (hbetween : ∀ stage ∈ rest, ∀ e ∈ stage.between, e.1 ∈ [inc, dec, swap]) :
    let bytes := first :: rest.map Stage.byte
    let above : Nat := 256 ^ bytes.length
    Halves bytes sreg (shiftEach lsr first rest sreg) (number bytes / 2 : Nat) ∧
    Halves bytes sreg (shiftEach asr first rest sreg) (signedNumber bytes / 2 % above) ∧
    Halves bytes sreg (shiftEach ror first rest sreg)
      ((number bytes + (Flag.carry.isSet sreg).toNat * above) / 2 : Nat) := by
  intro bytes above
  have hlength : above = 256 ^ (rest.length + 1) := by simp [above, bytes]
  refine ⟨?_, ?_, ?_⟩
  · have h := halves_shiftEach (by decide) (lsr_shifts first sreg) hbetween
    rwa [Bool.toNat_false, Nat.mul_zero, Nat.add_zero] at h
  · have h := halves_shiftEach (by decide) (asr_shifts first sreg) hbetween
    have hsigned := signedNumber_div_two first (rest.map Stage.byte)
    rw [List.length_map] at hsigned
    rwa [hlength, hsigned]
  · have h := halves_shiftEach (by decide) (ror_shifts first sreg) hbetween
    rwa [hlength, Nat.mul_comm]

/-- The signed number `0x8103`, while two other bytes are counted: what is left is `0xC081`. -/
theorem shiftEach_halves_negative :
    let rest := [Stage.mk [(inc, 0x7F), (swap, 0x12), (dec, 0x80)] 0x03]
    (∀ stage ∈ rest, ∀ e ∈ stage.between, e.1 ∈ [inc, dec, swap]) ∧
    shiftEach asr 0x81 rest 0xE0 = ⟨[0xC0, 0x81], 0xF5⟩ ∧
    Halves [0x81, 0x03] 0xE0 ⟨[0xC0, 0x81], 0xF5⟩ 0xC081 := by
  intro rest
  have hbetween : ∀ stage ∈ rest, ∀ e ∈ stage.between, e.1 ∈ [inc, dec, swap] := by decide
  have hafter : shiftEach asr 0x81 rest 0xE0 = ⟨[0xC0, 0x81], 0xF5⟩ := by decide
  have hhalf : signedNumber [0x81, 0x03] / 2 % (256 ^ 2 : Nat) = 0xC081 := by decide
  refine ⟨hbetween, hafter, ?_⟩
  rw [← hafter, ← hhalf]
  exact (shiftEach_halves 0x81 rest 0xE0 hbetween).2.1

end AvrConformance.Instruction
