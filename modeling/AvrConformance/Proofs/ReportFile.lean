import AvrConformance.Report.Record
import AvrConformance.Proofs.Json
import AvrConformance.Proofs.Timestamp

/-!
# What a report file holds

A report file is text for other programs to read. Nothing of the reports that it is written
from is lost in it:

* **values**: a JSON value is found again in its text (`Json.render_injective`);
* **fields**: texts, numbers, lists and values that may be missing are told apart by what is
  written for them, and a missing value from all others, since null is written for no other
  (`Json.optional_injective`);
* **records**: so are the records of a report, one within another, since their fields stand in
  order and the names of their alternatives are apart (`Report.toJson_injective`).
-/

namespace AvrConformance

open Function (Injective)

namespace Json

/-! ## Fields -/

@[simp] theorem text_inj {s t : String} : text s = text t ↔ s = t := by
  simp [text]

@[simp] theorem nat_inj {m n : Nat} : nat m = nat n ↔ m = n := by
  refine ⟨fun h => ?_, congrArg nat⟩
  have hwhole : (Numeral.ofInt m).whole = (Numeral.ofInt n).whole :=
    congrArg Numeral.whole (Json.number.inj h)
  exact hwhole

@[simp] theorem record_inj {fields others : List (String × Json)} :
    record fields = record others ↔ fields = others := record_injective.eq_iff

@[simp] theorem text_ne_record (s : String) (fields : List (String × Json)) :
    text s ≠ record fields := nofun

@[simp] theorem record_ne_text (s : String) (fields : List (String × Json)) :
    record fields ≠ text s := nofun

section

variable {α : Type} {write : α → Json}

theorem list_inj (h : Injective write) {as bs : List α} :
    array (as.map write) = array (bs.map write) ↔ as = bs := by
  rw [Json.array.injEq, (List.map_injective_iff.mpr h).eq_iff]

/-- Nothing that is there is written as null. -/
theorem optional_injective (h : Injective write) (hnull : ∀ a, write a ≠ .null) :
    Injective (optional write) := by
  intro a b heq
  cases a with
  | none =>
      cases b with
      | none => rfl
      | some b => exact absurd heq.symm (hnull b)
  | some a =>
      cases b with
      | none => exact absurd heq (hnull a)
      | some b => exact congrArg some (h heq)

end

end Json

/-! ## Records -/

/-- A register of a number is written as an object, and each of the others by its name. -/
theorem Reg.toJson_injective : Injective Reg.toJson := by
  intro a b h
  cases a <;> cases b <;> simp_all [toJson, UInt8.toNat_inj]

theorem MismatchKind.toJson_injective : Injective MismatchKind.toJson := by
  intro a b h
  cases a <;> cases b <;> simp_all [toJson]

/-- The alternatives of a stop have names of their own for their numbers. -/
theorem Stop.toJson_injective : Injective Stop.toJson := by
  intro a b h
  cases a <;> cases b <;> simp_all [toJson, UInt8.toNat_inj]

theorem Label.toJson_injective : Injective Label.toJson := by
  rintro ⟨mnemonic, register, value⟩ ⟨mnemonic', register', value'⟩ h
  simpa [toJson, UInt8.toNat_inj] using h

theorem Snapshot.toJson_injective : Injective Snapshot.toJson := by
  rintro ⟨r, sreg, sp, pc⟩ ⟨r', sreg', sp', pc'⟩ h
  have hbyte : Injective fun b : UInt8 => Json.nat b.toNat := by
    intro b b' hb
    simpa [UInt8.toNat_inj] using hb
  simpa [toJson, Json.list_inj hbyte, Vector.toList_inj, UInt8.toNat_inj, UInt16.toNat_inj,
    UInt32.toNat_inj] using h

theorem Mismatch.toJson_injective : Injective Mismatch.toJson := by
  rintro ⟨kind, reg, expected, actual⟩ ⟨kind', reg', expected', actual'⟩ h
  simpa [toJson, MismatchKind.toJson_injective.eq_iff, Reg.toJson_injective.eq_iff,
    UInt32.toNat_inj] using h

theorem Verdict.toJson_injective : Injective Verdict.toJson := by
  rintro ⟨label, opcode, initial, expected, actual, stop, mismatches⟩
    ⟨label', opcode', initial', expected', actual', stop', mismatches'⟩ h
  simpa [toJson, Label.toJson_injective.eq_iff, UInt16.toNat_inj,
    Snapshot.toJson_injective.eq_iff, Stop.toJson_injective.eq_iff,
    Json.list_inj Mismatch.toJson_injective] using h

namespace Report

theorem toJson_injective : Injective toJson := by
  rintro ⟨mnemonic, startedAt, verdicts, aborted⟩ ⟨mnemonic', startedAt', verdicts', aborted'⟩ h
  have htext : Injective Json.text := fun s t hs => Json.text_inj.mp hs
  have hreason : Injective (Json.optional Json.text) :=
    Json.optional_injective htext fun s => nofun
  simpa [toJson, Timestamp.compact_injective.eq_iff, Json.list_inj Verdict.toJson_injective,
    hreason.eq_iff] using h

/-- **A report file loses nothing.** Two lists of reports are written alike only if they are
alike: in their number, and each report in its mnemonic, its start, its verdicts with all
registers, stops and mismatches, and in whether and why it was aborted. The texts may be any: a
reason that is missing, an empty one and the text `null` are written in three ways. -/
theorem fileText_eq_iff (reports others : List Report) :
    fileText reports = fileText others ↔ reports = others := by
  refine ⟨fun h => ?_, congrArg fileText⟩
  exact (Json.list_inj toJson_injective).mp (Json.render_injective Json.Layout.blank_indented h)

end Report

end AvrConformance
