import AvrConformance.Link.Reply
import AvrConformance.Proofs.Block

/-!
# Data and register blocks in hexadecimal

Rows of bytes and register blocks are written and read in the same way, though by different
readers: the one of data takes any even number of digits (`Reply.bytes_eq_ok_iff`), the one of
blocks the digits of 39 bytes, and both take the same digits for the same bytes
(`Text.Hex.codecs_agree`).

Both are said once more as readers of a text's bytes that are cut into slices at even offsets
(`Reply.slicedBytes`, `Snapshot.slicedBlock`). The slices are read by the generous rule, which
would let a plus sign through, and bytes can be cut in the middle of a character; that all
bytes were looked at beforehand is what keeps either from happening. So these readers and the
ones above do the same to every text (`Reply.bytes_eq_slicedBytes`,
`Snapshot.ofBlock_eq_slicedBlock`).
-/

namespace AvrConformance

open Text.Hex (Spells isDigit)
open Link (Ascii code codes textBytes)

namespace Text.Hex

/-! ## Digits among the bytes of a text -/

/-- The byte is the code of a digit. -/
def isDigitByte (b : UInt8) : Bool := isDigit (Char.ofNat b.toNat)

theorem isDigitByte_code {c : Char} (hc : c.toNat < 128) : isDigitByte (code c) = isDigit c := by
  rw [isDigitByte, Link.ofNat_code hc]

theorem toNat_lt_of_isDigitByte {b : UInt8} (h : isDigitByte b = true) : b.toNat < 128 := by
  have hvalid : b.toNat.isValidChar := .inl (Nat.lt_trans b.toNat_lt (by decide))
  have hchar : (Char.ofNat b.toNat).toNat = b.toNat := by
    rw [Char.ofNat, dif_pos hvalid]
    rfl
  rw [← hchar]
  exact (char_of_isDigit h).1

/-- All bytes of a text are digits if all its characters are. -/
theorem all_isDigitByte_iff (text : String) :
    (textBytes text).all isDigitByte = true ↔ ∀ c ∈ text.toList, isDigit c = true :=
  Link.all_textBytes_iff (fun _ => isDigitByte_code) (fun _ => toNat_lt_of_isDigitByte)
    (fun _ h => (char_of_isDigit h).1) text

/-! ## Slices -/

/-- The byte that the slice at an offset writes, by the generous rule. -/
def slice? (row : List UInt8) (offset : Nat) : Option UInt8 := do
  lenientByte? (Char.ofNat (← row[offset]?).toNat) (Char.ofNat (← row[offset + 1]?).toNat)

/-- The bytes that so many slices write, one behind the other from an offset on. A slice that
writes none is an error of its offset. -/
def slices {ε : Type} (spoiled : Nat → ε) (row : List UInt8) (offset : Nat) :
    Nat → Except ε (List UInt8)
  | 0 => .ok []
  | count + 1 =>
    match slice? row offset with
    | some b => (slices spoiled row (offset + 2) count).map (b :: ·)
    | none => .error (spoiled offset)

/-- The slice behind some bytes is that of the two bytes there. -/
theorem slice?_length (front rest : List UInt8) (b b' : UInt8) :
    slice? (front ++ b :: b' :: rest) front.length =
      lenientByte? (Char.ofNat b.toNat) (Char.ofNat b'.toNat) := by
  simp [slice?]

/-- The slices of a spelling write its bytes, whatever stands in front of it. -/
theorem slices_of_spells {ε : Type} (spoiled : Nat → ε) {bytes : List UInt8} {text : List Char}
    (h : Spells bytes text) (front : List UInt8) :
    slices spoiled (front ++ codes text) front.length bytes.length = .ok bytes := by
  induction h generalizing front with
  | nil => rfl
  | @cons b rest high low text highDigit lowDigit others ih =>
      have hhigh := (char_of_isDigit (isDigit_of_isDigitOf highDigit)).1
      have hlow := (char_of_isDigit (isDigit_of_isDigitOf lowDigit)).1
      have hslice : slice? (front ++ codes (high :: low :: text)) front.length = some b := by
        rw [Link.codes_cons, Link.codes_cons, slice?_length, Link.ofNat_code hhigh,
          Link.ofNat_code hlow]
        exact lenientByte?_of_digits highDigit lowDigit
      -- what has been read joins what stands in front
      have hrest : slices spoiled (front ++ codes (high :: low :: text)) (front.length + 2)
          rest.length = .ok rest := by
        have hread := ih (front ++ [code high, code low])
        rwa [List.append_assoc, List.length_append] at hread
      rw [List.length_cons, slices, hslice]
      show (slices spoiled _ (front.length + 2) rest.length).map _ = _
      rw [hrest]
      rfl

end Text.Hex

/-! ## Data -/

namespace Link.Reply

open Text.Hex (isDigitByte all_isDigitByte_iff)

/-- A text is taken for bytes if it spells them. -/
theorem bytes_eq_ok_iff {text : String} {bytes : List UInt8} :
    Reply.bytes text = .ok bytes ↔ Spells bytes text.toList := by
  rw [Reply.bytes, ← Text.Hex.bytes?_eq_some_iff]
  constructor
  · intro h
    split at h
    · cases h
    · split at h
      next row hrow =>
        cases h
        exact hrow
      next => cases h
  · intro h
    have hsize := (Text.Hex.bytes?_eq_some_iff.mp h).size_eq
    have heven : ¬ text.utf8ByteSize % 2 ≠ 0 := by omega
    rw [if_neg heven, h]

/-- Any even number of digits is taken for bytes. -/
theorem exists_bytes_iff {text : String} :
    (∃ bytes, Reply.bytes text = .ok bytes) ↔
      text.utf8ByteSize % 2 = 0 ∧ ∀ c ∈ text.toList, isDigit c = true := by
  simp only [bytes_eq_ok_iff]
  constructor
  · rintro ⟨bytes, h⟩
    refine ⟨?_, h.isDigit⟩
    rw [h.size_eq, Nat.mul_mod_right]
  · rintro ⟨heven, hdigits⟩
    have hascii : Ascii text.toList := fun c hc => (Text.Hex.char_of_isDigit (hdigits c hc)).1
    rw [utf8ByteSize_of_ascii hascii] at heven
    exact Text.Hex.exists_spells heven hdigits

/-- The reader of data by slices. -/
def slicedBytes (text : String) : Except LinkError (List UInt8) :=
  let row := textBytes text
  if row.length % 2 ≠ 0 then .error (.malformed (.oddHex text))
  else if row.all isDigitByte then
    Text.Hex.slices (fun _ => .malformed (.badHex text)) row 0 (row.length / 2)
  else .error (.malformed (.badHex text))

theorem bytes_eq_slicedBytes (text : String) : Reply.bytes text = slicedBytes text := by
  simp only [slicedBytes, length_textBytes]
  by_cases heven : text.utf8ByteSize % 2 = 0
  · rw [if_neg (not_not_intro heven)]
    by_cases hdigits : ∀ c ∈ text.toList, isDigit c = true
    · obtain ⟨bytes, hbytes⟩ := exists_bytes_iff.mpr ⟨heven, hdigits⟩
      have hspells := bytes_eq_ok_iff.mp hbytes
      have hcount : text.utf8ByteSize / 2 = bytes.length := by
        rw [hspells.size_eq, Nat.mul_div_cancel_left _ (by decide)]
      rw [if_pos ((all_isDigitByte_iff text).mpr hdigits), hbytes,
        textBytes_of_ascii hspells.ascii, hcount]
      exact (Text.Hex.slices_of_spells _ hspells []).symm
    · have hnone : Text.Hex.bytes? text.toList = none := by
        cases hrow : Text.Hex.bytes? text.toList with
        | none => rfl
        | some bytes => exact absurd (Text.Hex.bytes?_eq_some_iff.mp hrow).isDigit hdigits
      rw [if_neg (mt (all_isDigitByte_iff text).mp hdigits), Reply.bytes,
        if_neg (not_not_intro heven), hnone]
  · rw [if_pos heven, Reply.bytes, if_pos heven]

end Link.Reply

/-! ## Register blocks -/

namespace Snapshot

open Text.Hex (isDigitByte)

/-- The reader of register blocks by slices. -/
def slicedBlock (text : String) : Except BlockError Snapshot :=
  let row := textBytes text
  if row.length ≠ blockDigits ∨ row.all (fun b => b.toNat < 128) = false then
    .error (.length row.length)
  else
    match row.findIdx? (fun b => !isDigitByte b) with
    | some position => .error (.badDigit (position / 2 * 2))
    | none =>
      (Text.Hex.slices .badDigit row 0 blockBytes).bind fun bytes =>
        match ofBytes? bytes with
        | some s => .ok s
        | none => .error (.length row.length)

/-- In a text of ASCII, a byte is found where its character is. -/
theorem findIdx?_codes {text : List Char} (h : Ascii text) :
    (codes text).findIdx? (fun b => !isDigitByte b) = text.findIdx? (fun c => !isDigit c) := by
  induction text with
  | nil => rfl
  | cons c rest ih =>
      rw [Link.codes_cons, List.findIdx?_cons, List.findIdx?_cons, ih h.tail,
        Text.Hex.isDigitByte_code (h c List.mem_cons_self)]

theorem ofBlock_eq_slicedBlock (text : String) : ofBlock text = slicedBlock text := by
  have hascii : ((textBytes text).all fun b => b.toNat < 128) = false ↔ ¬ Ascii text.toList := by
    rw [← Link.all_ascii_iff, Bool.not_eq_true]
  simp only [slicedBlock, Link.length_textBytes]
  by_cases hsized : Sized text
  · have hpassed : ¬ (text.utf8ByteSize ≠ blockDigits ∨
        ((textBytes text).all fun b => b.toNat < 128) = false) := by
      rintro (hlength | hhigh)
      · exact hlength hsized.1
      · exact hascii.mp hhigh hsized.2
    rw [if_neg hpassed, Link.textBytes_of_ascii hsized.2, findIdx?_codes hsized.2]
    cases hfind : text.toList.findIdx? (fun c => !isDigit c) with
    | some position =>
        exact ofBlock_eq_badDigit_iff.mpr ⟨hsized, firstBadPair_iff.mpr ⟨position, hfind, rfl⟩⟩
    | none =>
        obtain ⟨s, hs⟩ := exists_ofBlock_iff.mpr
          ⟨hsized.length_eq, findIdx?_eq_none_iff_digits.mp hfind⟩
        have hslices : Text.Hex.slices BlockError.badDigit (codes text.toList) 0 blockBytes =
            .ok s.toBytes := by
          have hread := Text.Hex.slices_of_spells BlockError.badDigit (ofBlock_eq_ok_iff.mp hs) []
          rwa [length_toBytes] at hread
        rw [hs, hslices]
        simp only [Except.bind, ofBytes?_toBytes]
  · have hrefused := ofBlock_eq_length_iff.mpr ⟨rfl, hsized⟩
    rw [hrefused, if_pos]
    by_cases hlength : text.utf8ByteSize = blockDigits
    · exact .inr (hascii.mpr fun h => hsized ⟨hlength, h⟩)
    · exact .inl hlength

end Snapshot

/-! ## One codec -/

namespace Text.Hex

open Link Snapshot

theorem eq_toBytes_iff_layout {bytes : List UInt8} {s : Snapshot} :
    bytes = s.toBytes ↔ bytes.map UInt8.toNat = s.layout := by
  rw [← toBytes_map_toNat]
  exact (List.map_inj_right fun _ _ => UInt8.toNat_inj.mp).symm

/-- **Hexadecimal.** Bytes are found again in the text that is written for them. A text is
read as bytes exactly if it has an even number of bytes and only digits, and what is written
for those is the text with its letters in lowercase. A text is a register block exactly if it
is read as 39 bytes, namely those of the snapshot's layout, and then the snapshot's own block
is what is written for them. Neither reader differs from one that slices a text's bytes by
their offsets. -/
theorem codecs_agree :
    (∀ bytes, Reply.bytes (ofBytes bytes) = .ok bytes) ∧
    ∀ text : String,
      ((∃ bytes, Reply.bytes text = .ok bytes) ↔
        text.utf8ByteSize % 2 = 0 ∧ ∀ c ∈ text.toList, Digit c) ∧
      (∀ bytes, Reply.bytes text = .ok bytes →
        ofBytes bytes = text.toLower ∧ text.utf8ByteSize = 2 * bytes.length) ∧
      (∀ s, ofBlock text = .ok s ↔
        ∃ bytes, Reply.bytes text = .ok bytes ∧ bytes.length = 39 ∧
          bytes.map UInt8.toNat = s.layout) ∧
      (∀ bytes, Reply.bytes text = .ok bytes → bytes.length = 39 →
        ∃ s, ofBlock text = .ok s ∧ s.toBlock = ofBytes bytes) ∧
      Reply.bytes text = Reply.slicedBytes text ∧ ofBlock text = slicedBlock text := by
  refine ⟨fun bytes => ?_, fun text => ⟨?_, fun bytes hbytes => ?_, fun s => ?_,
    fun bytes hbytes hlength => ?_, Reply.bytes_eq_slicedBytes text, ofBlock_eq_slicedBlock text⟩⟩
  · rw [Reply.bytes_eq_ok_iff, ofBytes, String.toList_ofList]
    exact spells_ofByte bytes
  · rw [Reply.exists_bytes_iff]
    simp only [isDigit_iff]
  · have hspells := Reply.bytes_eq_ok_iff.mp hbytes
    exact ⟨spells_iff_ofBytes.mp hspells, hspells.size_eq⟩
  · simp only [ofBlock_eq_ok_iff, Reply.bytes_eq_ok_iff, ← eq_toBytes_iff_layout]
    constructor
    · intro hspells
      exact ⟨s.toBytes, hspells, length_toBytes s, rfl⟩
    · rintro ⟨bytes, hspells, -, rfl⟩
      exact hspells
  · obtain ⟨s, rfl⟩ := exists_toBytes_eq hlength
    exact ⟨s, ofBlock_eq_ok_iff.mpr (Reply.bytes_eq_ok_iff.mp hbytes), rfl⟩

end Text.Hex

end AvrConformance
