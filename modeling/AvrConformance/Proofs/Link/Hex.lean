import AvrConformance.Proofs.Link.Ascii
import AvrConformance.Text.Number

/-!
# Hexadecimal on the wire

A digit may be written in either case, and bytes are spelled two digits each
(`Spells`). Whoever spells bytes is understood, whatever case each digit is in
(`bytes?_eq_some_iff`): a spelling is the model's own one but for the case
(`spells_iff_toLower`), and all texts of so many digits are spellings
(`exists_spells`). The generous rule reads little more than two digits
(`lenientByte?_eq_some_iff`). Numbers are written as short as possible, and read
digit by digit (`number?_toDigits`).
-/

namespace AvrConformance

/-- A hexadecimal digit as it is transmitted. -/
def Link.LowerDigit (c : Char) : Prop := ('0' ≤ c ∧ c ≤ '9') ∨ ('a' ≤ c ∧ c ≤ 'f')

instance (c : Char) : Decidable (Link.LowerDigit c) := inferInstanceAs (Decidable (_ ∨ _))

namespace Text.Hex

open Link (Ascii LowerDigit)

/-! ## Digits -/

theorem lowerDigit_digitChar : ∀ m < 16, LowerDigit (Nat.digitChar m) := by decide

theorem lowerDigit_digit (n : Nat) : LowerDigit (digit n) :=
  lowerDigit_digitChar (n % 16) (Nat.mod_lt n (by decide))

/-- A hexadecimal digit of either case. -/
def Digit (c : Char) : Prop := LowerDigit c ∨ ('A' ≤ c ∧ c ≤ 'F')

theorem isDigit_iff {c : Char} : isDigit c = true ↔ Digit c := by
  unfold isDigit value? Digit LowerDigit
  split
  · simp [*]
  split
  · simp [*]
  split <;> simp [*]

/-- The character is the digit of a half byte, in either case. -/
def IsDigitOf (n : Nat) (c : Char) : Prop := c = digit n ∨ c = (digit n).toUpper

/-- A digit of either case has its value. -/
theorem value?_of_isDigitOf {n : Nat} {c : Char} (h : IsDigitOf n c) :
    value? c = some (n % 16) := by
  -- there are sixteen digits of either case, and these are all looked at
  have hall : ∀ m < 16, value? (Nat.digitChar m) = some m ∧
      value? (Nat.digitChar m).toUpper = some m := by decide
  obtain ⟨hlower, hupper⟩ := hall (n % 16) (Nat.mod_lt n (by decide))
  rcases h with rfl | rfl
  · exact hlower
  · exact hupper

/-- What has a value is of ASCII, and none of the characters that structure a packet. -/
theorem char_of_isDigit {c : Char} (h : isDigit c = true) :
    c.toNat < 128 ∧ c ≠ '#' ∧ c ≠ '+' ∧ c ≠ ',' ∧ c ≠ ':' ∧ c ≠ '*' := by
  have hrange := isDigit_iff.mp h
  simp only [Digit, LowerDigit, Char.le_def, UInt32.le_iff_toNat_le] at hrange
  have hbound : c.toNat < 128 := by
    show c.val.toNat < 128
    rcases hrange with (⟨-, h⟩ | ⟨-, h⟩) | ⟨-, h⟩ <;> exact Nat.lt_of_le_of_lt h (by decide)
  refine ⟨hbound, ?_, ?_, ?_, ?_, ?_⟩ <;> rintro rfl <;> exact absurd h (by decide)

theorem isDigit_of_isDigitOf {n : Nat} {c : Char} (h : IsDigitOf n c) : isDigit c = true := by
  rw [isDigit, value?_of_isDigitOf h]
  rfl

/-- The digits of a half byte are told by their lowercase. -/
theorem toLower_eq_digit_iff {c : Char} {n : Nat} : c.toLower = digit n ↔ IsDigitOf n c := by
  constructor
  · intro h
    by_cases hupper : c.val ≥ 'A'.val ∧ c.val ≤ 'Z'.val
    · -- there are 26 capitals, and these are all looked at
      have hall : ∀ k < 91, ∀ m < 16, (Char.ofNat k).toLower = Nat.digitChar m →
          Char.ofNat k = Nat.digitChar m ∨ Char.ofNat k = (Nat.digitChar m).toUpper := by decide
      have hbound : c.toNat < 91 := Nat.lt_succ_of_le (UInt32.le_iff_toNat_le.mp hupper.2)
      have hc := hall c.toNat hbound (n % 16) (Nat.mod_lt n (by decide))
      rw [Char.ofNat_toNat] at hc
      exact hc h
    · have hsame : c.toLower = c := dif_neg hupper
      rw [hsame] at h
      exact .inl h
  · have hall : ∀ m < 16, (Nat.digitChar m).toLower = Nat.digitChar m ∧
        (Nat.digitChar m).toUpper.toLower = Nat.digitChar m := by decide
    obtain ⟨hlower, hupper⟩ := hall (n % 16) (Nat.mod_lt n (by decide))
    rintro (rfl | rfl)
    · exact hlower
    · exact hupper

/-! ## Bytes -/

/-- The text spells the bytes, each in two digits of either case. -/
inductive Spells : List UInt8 → List Char → Prop
  | nil : Spells [] []
  | cons {b : UInt8} {rest : List UInt8} {high low : Char} {text : List Char}
      (highDigit : IsDigitOf (b.toNat / 16) high) (lowDigit : IsDigitOf b.toNat low)
      (others : Spells rest text) : Spells (b :: rest) (high :: low :: text)

/-- Two digits write their byte. -/
theorem byte?_of_digits {b : UInt8} {high low : Char} (hhigh : IsDigitOf (b.toNat / 16) high)
    (hlow : IsDigitOf b.toNat low) : byte? high low = some b := by
  have hb : b.toNat < 256 := b.toNat_lt
  have hsum : 16 * (b.toNat / 16 % 16) + b.toNat % 16 = b.toNat := by omega
  simp only [byte?, value?_of_isDigitOf hhigh, value?_of_isDigitOf hlow]
  show some (UInt8.ofNat (16 * (b.toNat / 16 % 16) + b.toNat % 16)) = some b
  rw [hsum, UInt8.ofNat_toNat]

/-- A digit is no plus sign, so two digits mean the same by the generous rule. -/
theorem lenientByte?_of_digits {b : UInt8} {high low : Char}
    (hhigh : IsDigitOf (b.toNat / 16) high) (hlow : IsDigitOf b.toNat low) :
    lenientByte? high low = some b := by
  have hplus : high ≠ '+' := (char_of_isDigit (isDigit_of_isDigitOf hhigh)).2.2.1
  rw [lenientByte?, if_neg hplus, byte?_of_digits hhigh hlow]

/-- What has a value is the digit of it in either case. -/
theorem isDigitOf_of_value? {c : Char} {n : Nat} (h : value? c = some n) :
    n < 16 ∧ IsDigitOf n c := by
  -- only characters of ASCII have values, and these are all looked at
  have hall : ∀ m < 128, ∀ n ∈ value? (Char.ofNat m),
      n < 16 ∧ (Char.ofNat m = digit n ∨ Char.ofNat m = (digit n).toUpper) := by decide
  have hdigit : isDigit c = true := by
    rw [isDigit, h]
    rfl
  have hvalue := hall c.toNat (char_of_isDigit hdigit).1 n
  rw [Char.ofNat_toNat] at hvalue
  exact hvalue h

theorem byte?_eq_some_iff {high low : Char} {b : UInt8} :
    byte? high low = some b ↔ IsDigitOf (b.toNat / 16) high ∧ IsDigitOf b.toNat low := by
  constructor
  · intro h
    simp only [byte?, bind, Option.bind_eq_some_iff, pure, Option.some.injEq] at h
    obtain ⟨m, hm, n, hn, rfl⟩ := h
    obtain ⟨hm16, hhigh⟩ := isDigitOf_of_value? hm
    obtain ⟨hn16, hlow⟩ := isDigitOf_of_value? hn
    have hsum : (UInt8.ofNat (16 * m + n)).toNat = 16 * m + n := by
      rw [UInt8.toNat_ofNat']
      omega
    have hdiv : (16 * m + n) / 16 = m := by omega
    have hmod : digit (16 * m + n) = digit n := by
      have : (16 * m + n) % 16 = n % 16 := by omega
      rw [digit, digit, this]
    rw [hsum, hdiv]
    refine ⟨hhigh, ?_⟩
    rw [IsDigitOf, hmod]
    exact hlow
  · rintro ⟨hhigh, hlow⟩
    exact byte?_of_digits hhigh hlow

/-- The generous rule reads two digits, or a plus sign and the digit of a half byte. -/
theorem lenientByte?_eq_some_iff {first second : Char} {b : UInt8} :
    lenientByte? first second = some b ↔
      (IsDigitOf (b.toNat / 16) first ∧ IsDigitOf b.toNat second) ∨
        (first = '+' ∧ b.toNat < 16 ∧ IsDigitOf b.toNat second) := by
  constructor
  · intro h
    rw [lenientByte?] at h
    split at h
    · rename_i hplus
      obtain ⟨n, hn, rfl⟩ := Option.map_eq_some_iff.mp h
      obtain ⟨hn16, hsecond⟩ := isDigitOf_of_value? hn
      have hsmall : (UInt8.ofNat n).toNat = n := by
        rw [UInt8.toNat_ofNat']
        omega
      rw [hsmall]
      exact .inr ⟨hplus, hn16, hsecond⟩
    · exact .inl (byte?_eq_some_iff.mp h)
  · rintro (⟨hfirst, hsecond⟩ | ⟨rfl, hsmall, hsecond⟩)
    · exact lenientByte?_of_digits hfirst hsecond
    · rw [lenientByte?, if_pos rfl, value?_of_isDigitOf hsecond, Nat.mod_eq_of_lt hsmall]
      simp

theorem lowerDigit_of_mem_ofByte {bytes : List UInt8} {c : Char}
    (h : c ∈ bytes.flatMap ofByte) : LowerDigit c := by
  obtain ⟨b, -, hc⟩ := List.mem_flatMap.mp h
  simp only [ofByte, List.mem_cons, List.not_mem_nil, or_false] at hc
  rcases hc with rfl | rfl <;> exact lowerDigit_digit _

/-- The half bytes of a byte need no cutting. -/
theorem ofByte_eq (b : UInt8) :
    ofByte b = [Nat.digitChar (b.toNat / 16), Nat.digitChar (b.toNat % 16)] := by
  have hb : b.toNat < 256 := b.toNat_lt
  have hhigh : b.toNat / 16 % 16 = b.toNat / 16 := Nat.mod_eq_of_lt (by omega)
  rw [ofByte, digit, digit, hhigh]

/-- The model's own spelling is one. -/
theorem spells_ofByte (bytes : List UInt8) : Spells bytes (bytes.flatMap ofByte) := by
  induction bytes with
  | nil => exact .nil
  | cons b rest ih => exact .cons (.inl rfl) (.inl rfl) ih

namespace Spells

variable {bytes : List UInt8} {text : List Char}

theorem length_eq (h : Spells bytes text) : text.length = 2 * bytes.length := by
  induction h with
  | nil => rfl
  | cons _ _ _ ih =>
      simp only [List.length_cons]
      omega

theorem isDigit (h : Spells bytes text) : ∀ c ∈ text, isDigit c = true := by
  induction h with
  | nil => exact fun _ hc => absurd hc List.not_mem_nil
  | cons highDigit lowDigit _ ih =>
      intro c hc
      rcases List.mem_cons.mp hc with rfl | hc
      · exact isDigit_of_isDigitOf highDigit
      rcases List.mem_cons.mp hc with rfl | hc
      · exact isDigit_of_isDigitOf lowDigit
      · exact ih c hc

theorem ascii (h : Spells bytes text) : Ascii text := by
  intro c hc
  exact (char_of_isDigit (h.isDigit c hc)).1

theorem size_eq {text : String} (h : Spells bytes text.toList) :
    text.utf8ByteSize = 2 * bytes.length := by
  rw [Link.utf8ByteSize_of_ascii h.ascii, h.length_eq]

/-- A spelled text is understood. -/
theorem bytes? (h : Spells bytes text) : Hex.bytes? text = some bytes := by
  induction h with
  | nil => rfl
  | cons highDigit lowDigit _ ih =>
      rw [Hex.bytes?, byte?_of_digits highDigit lowDigit, ih]
      rfl

end Spells

/-- No other texts are understood. -/
theorem bytes?_eq_some_iff {text : List Char} {bytes : List UInt8} :
    bytes? text = some bytes ↔ Spells bytes text := by
  refine ⟨?_, Spells.bytes?⟩
  fun_induction bytes? text generalizing bytes with
  | case1 =>
      rintro ⟨⟩
      exact .nil
  | case2 => exact nofun
  | case3 high low rest ih =>
      intro h
      simp only [bind, Option.bind_eq_some_iff, pure, Option.some.injEq] at h
      obtain ⟨b, hb, others, hothers, rfl⟩ := h
      obtain ⟨hhigh, hlow⟩ := byte?_eq_some_iff.mp hb
      exact .cons hhigh hlow (ih hothers)

/-- A spelling differs from the model's own one in the case of its digits only. -/
theorem spells_iff_toLower {bytes : List UInt8} {text : List Char} :
    Spells bytes text ↔ text.map Char.toLower = bytes.flatMap ofByte := by
  constructor
  · intro h
    induction h with
    | nil => rfl
    | cons highDigit lowDigit _ ih =>
        rw [List.map_cons, List.map_cons, toLower_eq_digit_iff.mpr highDigit,
          toLower_eq_digit_iff.mpr lowDigit, ih]
        rfl
  · intro h
    induction bytes generalizing text with
    | nil =>
        rw [List.map_eq_nil_iff.mp h]
        exact .nil
    | cons b rest ih =>
        obtain ⟨high, more, rfl, hhigh, hmore⟩ := List.map_eq_cons_iff.mp h
        obtain ⟨low, others, rfl, hlow, hothers⟩ := List.map_eq_cons_iff.mp hmore
        exact .cons (toLower_eq_digit_iff.mp hhigh) (toLower_eq_digit_iff.mp hlow) (ih hothers)

/-- So a text is a spelling if its lowercase is the model's own one. -/
theorem spells_iff_ofBytes {bytes : List UInt8} {text : String} :
    Spells bytes text.toList ↔ ofBytes bytes = text.toLower := by
  have hlower : text.toLower.toList = text.toList.map Char.toLower := String.toList_map
  rw [spells_iff_toLower, ← hlower, ← String.toList_inj, ofBytes, String.toList_ofList]
  exact eq_comm

/-- An even number of digits always spells something. -/
theorem exists_spells {text : List Char} (heven : text.length % 2 = 0)
    (hdigits : ∀ c ∈ text, isDigit c = true) : ∃ bytes, Spells bytes text := by
  fun_induction bytes? text with
  | case1 => exact ⟨[], .nil⟩
  | case2 => cases heven
  | case3 high low rest ih =>
      have hrest : rest.length % 2 = 0 := by
        simp only [List.length_cons] at heven
        omega
      obtain ⟨others, hothers⟩ := ih hrest fun c hc =>
        hdigits c (List.mem_cons_of_mem _ (List.mem_cons_of_mem _ hc))
      obtain ⟨m, hm⟩ := Option.isSome_iff_exists.mp (hdigits high List.mem_cons_self)
      obtain ⟨n, hn⟩ := Option.isSome_iff_exists.mp
        (hdigits low (List.mem_cons_of_mem _ List.mem_cons_self))
      have hbyte : byte? high low = some (UInt8.ofNat (16 * m + n)) := by
        rw [byte?, hm, hn]
        rfl
      obtain ⟨hhigh, hlow⟩ := byte?_eq_some_iff.mp hbyte
      exact ⟨_, .cons hhigh hlow hothers⟩

/-! ## Numbers -/

/-- The number that some digits write. -/
def number? (text : List Char) : Option Nat :=
  text.foldlM (fun n c => (value? c).map (16 * n + ·)) 0

/-- A number's own digits write it. -/
theorem number?_toDigits (n : Nat) : number? (Nat.toDigits 16 n) = some n := by
  have hdigit : ∀ m < 16, value? (Nat.digitChar m) = some m := by decide
  induction n using Nat.strongRecOn with
  | ind n ih =>
      rw [Nat.toDigits_eq_if (by decide)]
      split
      · rename_i hsmall
        simp [number?, hdigit n hsmall]
      · -- all digits but the last are those of a sixteenth of the number
        have hless : n / 16 < n := by omega
        have hlast := hdigit (n % 16) (Nat.mod_lt n (by decide))
        have hfirst := ih (n / 16) hless
        unfold number? at hfirst ⊢
        rw [List.foldlM_append, hfirst]
        simp only [List.foldlM_cons, List.foldlM_nil, hlast]
        show some (16 * (n / 16) + n % 16) = some n
        rw [Nat.div_add_mod]

/-- What holds of all sixteen digits holds of each digit of a number. -/
theorem of_mem_toDigits {P : Char → Prop} (hall : ∀ m < 16, P (Nat.digitChar m)) {n : Nat}
    {c : Char} (h : c ∈ Nat.toDigits 16 n) : P c := by
  induction n using Nat.strongRecOn with
  | ind n ih =>
      rw [Nat.toDigits_eq_if (by decide)] at h
      split at h
      · rename_i hsmall
        rw [List.mem_singleton.mp h]
        exact hall n hsmall
      · rcases List.mem_append.mp h with h | h
        · exact ih (n / 16) (by omega) h
        · rw [List.mem_singleton.mp h]
          exact hall (n % 16) (Nat.mod_lt n (by decide))

theorem isDigit_of_mem_toDigits {n : Nat} {c : Char} (h : c ∈ Nat.toDigits 16 n) :
    isDigit c = true := of_mem_toDigits (P := (isDigit · = true)) (by decide) h

/-- No zeros are needed to fill a number up to one digit. -/
theorem toList_hexDigits (n : Nat) : (hexDigits 1 n).toList = Nat.toDigits 16 n := by
  have hlength : 0 < (Nat.toDigits 16 n).length := Nat.length_toDigits_pos
  have hfull : 1 - (Nat.toDigits 16 n).length = 0 := by omega
  simp [hexDigits, zeroFill, hfull]

end Text.Hex

end AvrConformance
