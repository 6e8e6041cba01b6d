import Mathlib.Data.List.Basic
import AvrConformance.Json.Printer
import AvrConformance.Json.Reader

/-!
# What is written is read

A text that the printer makes of a value is read as that value, whatever the value and
whatever blanks the layout puts in. Each part of a value has its lemma, and all of them say
the same: the reader that starts at the part takes what the printer wrote for it, and leaves
what follows.

* **strings**: each character is written as one piece, which stands for it, and no piece
  pairs with its neighbour (`exists_piece`, `exists_literal`);
* **numbers**: the digits of the whole part, of the fraction and of the exponent each end
  where they should, if what follows does not go on with a number (`readMagnitude_append`);
* **values**: by induction on the value, and each step of reading costs a character at
  least, so that the fuel lasts (`readValue_chars`, and `parse?_render` for a whole text).

So no two values have one text (`render_injective`).
-/

namespace AvrConformance.Json

/-! ## Blanks -/

theorem skipBlanks_append {blanks : List Char} (h : ∀ c ∈ blanks, isBlank c = true)
    (cs : List Char) : skipBlanks (blanks ++ cs) = skipBlanks cs :=
  List.dropWhile_append_of_pos h

theorem skipBlanks_cons {c : Char} (h : isBlank c = false) (cs : List Char) :
    skipBlanks (c :: cs) = c :: cs :=
  List.dropWhile_cons_of_neg (by simp [h])

theorem skipBlanks_append_of_start {blanks cs : List Char}
    (h : ∀ c ∈ blanks, isBlank c = true) (hstart : ∀ c ∈ cs.head?, isBlank c = false) :
    skipBlanks (blanks ++ cs) = cs := by
  rw [skipBlanks_append h]
  cases cs with
  | nil => rfl
  | cons c cs => exact skipBlanks_cons (hstart c rfl) cs

/-- The layout puts nothing but blanks between the parts of a value. -/
structure Layout.Blank (l : Layout) : Prop where
  lineBreak (depth : Nat) : ∀ c ∈ l.lineBreak depth, isBlank c = true
  afterColon : ∀ c ∈ l.afterColon, isBlank c = true

theorem Layout.blank_indented : indented.Blank where
  lineBreak depth := by
    intro c hc
    rcases List.mem_cons.mp hc with rfl | hc
    · rfl
    · rw [List.eq_of_mem_replicate hc]
      rfl
  afterColon := by
    intro c hc
    rw [List.mem_singleton.mp hc]
    rfl

/-! ## Strings -/

/-- A backslash and a letter are one character. -/
theorem pieces_short {letter c : Char} (h : unescape? letter = some c) (cs : List Char) :
    pieces ('\\' :: letter :: cs) = (pieces cs).map fun (row, rest) => (.char c :: row, rest) := by
  rw [pieces, h]
  · cases pieces cs <;> rfl
  · rintro a b c d rest rfl
    cases h

/-- Four digits are one code unit. -/
theorem pieces_unit {a b c d : Char} {n : Nat} (h : unit? a b c d = some n) (cs : List Char) :
    pieces ('\\' :: 'u' :: a :: b :: c :: d :: cs) =
      (pieces cs).map fun (row, rest) => (.unit n :: row, rest) := by
  rw [pieces, h]
  cases pieces cs <;> rfl

/-- All other characters stand for themselves. -/
theorem pieces_plain {c : Char} (hquote : c ≠ '"') (hescape : c ≠ '\\') (h : 0x20 ≤ c.toNat)
    (cs : List Char) :
    pieces (c :: cs) = (pieces cs).map fun (row, rest) => (.char c :: row, rest) := by
  have hplain : ¬ (c = '\\' ∨ c.toNat < 0x20) := by
    rintro (hc | hc)
    · exact hescape hc
    · omega
  rw [pieces, if_neg hplain]
  · cases pieces cs <;> rfl
  · exact hquote
  · rintro _ _ _ _ _ rfl
    exact absurd rfl hescape
  · rintro _ _ rfl
    exact absurd rfl hescape

theorem toList_hexDigits_four : ∀ n < 32, (Text.hexDigits 4 n).toList =
    ['0', '0', Nat.digitChar (n / 16), Nat.digitChar (n % 16)] := by
  decide

theorem unit?_control : ∀ n < 32,
    unit? '0' '0' (Nat.digitChar (n / 16)) (Nat.digitChar (n % 16)) = some n := by
  decide

/-- A control character is no half of a surrogate pair. -/
theorem assemble_control {n : Nat} (h : n < 0x20) (row : List Piece) :
    assemble (.unit n :: row) = (assemble row).map (Char.ofNat n :: ·) := by
  have hhigh : ¬ (0xD800 ≤ n ∧ n < 0xDC00) := by omega
  have hlow : ¬ (0xDC00 ≤ n ∧ n < 0xE000) := by omega
  have hnone : ¬ (0xD800 ≤ n ∧ n < 0xE000) := by omega
  match row with
  | [] => simp [assemble, hnone]
  | .char c :: rest => simp [assemble, hnone]
  | .unit m :: rest => simp only [assemble, if_neg hhigh, if_neg hlow]

/-- A character is written with a letter, by its number, or as itself. -/
theorem escape_cases (c : Char) :
    (∃ letter, escape c = ['\\', letter] ∧ unescape? letter = some c) ∨
    (c.toNat < 0x20 ∧ escape c = ['\\', 'u'] ++ (Text.hexDigits 4 c.toNat).toList) ∨
    (escape c = [c] ∧ c ≠ '"' ∧ c ≠ '\\' ∧ 0x20 ≤ c.toNat) := by
  unfold escape
  split
  · exact .inl ⟨'"', rfl, by subst_vars; rfl⟩
  split
  · exact .inl ⟨'\\', rfl, by subst_vars; rfl⟩
  split
  · exact .inl ⟨'b', rfl, by subst_vars; rfl⟩
  split
  · exact .inl ⟨'f', rfl, by subst_vars; rfl⟩
  split
  · exact .inl ⟨'n', rfl, by subst_vars; rfl⟩
  split
  · exact .inl ⟨'r', rfl, by subst_vars; rfl⟩
  split
  · exact .inl ⟨'t', rfl, by subst_vars; rfl⟩
  split
  next hcontrol => exact .inr (.inl ⟨hcontrol, rfl⟩)
  next hquote hescape _ _ _ _ _ hcontrol =>
    exact .inr (.inr ⟨rfl, hquote, hescape, Nat.le_of_not_lt hcontrol⟩)

/-- However it is written, a character is read as one piece, which stands for it. -/
theorem exists_piece (c : Char) : ∃ p,
    (∀ cs, pieces (escape c ++ cs) = (pieces cs).map fun (row, rest) => (p :: row, rest)) ∧
      ∀ row, assemble (p :: row) = (assemble row).map (c :: ·) := by
  rcases escape_cases c with
    ⟨letter, hescape, hletter⟩ | ⟨hcontrol, hescape⟩ | ⟨hescape, hquote, hback, hprint⟩
  · refine ⟨.char c, fun cs => ?_, fun row => rfl⟩
    rw [hescape]
    exact pieces_short hletter cs
  · refine ⟨.unit c.toNat, fun cs => ?_, fun row => ?_⟩
    · rw [hescape, toList_hexDigits_four c.toNat hcontrol]
      exact pieces_unit (unit?_control c.toNat hcontrol) cs
    · rw [assemble_control hcontrol, Char.ofNat_toNat]
  · refine ⟨.char c, fun cs => ?_, fun row => rfl⟩
    rw [hescape]
    exact pieces_plain hquote hback hprint cs

/-- The pieces of a text are those of its characters, up to the closing quote. -/
theorem exists_pieces (text rest : List Char) : ∃ row,
    pieces (text.flatMap escape ++ '"' :: rest) = some (row, rest) ∧ assemble row = some text := by
  induction text with
  | nil => exact ⟨[], rfl, rfl⟩
  | cons c text ih =>
      obtain ⟨row, hrow, htext⟩ := ih
      obtain ⟨p, hpiece, hstands⟩ := exists_piece c
      refine ⟨p :: row, ?_, ?_⟩
      · rw [List.flatMap_cons, List.append_assoc, hpiece, hrow]
        rfl
      · rw [hstands, htext]
        rfl

/-- A literal is read back, one without a text too. -/
theorem exists_literal (s : Option String) :
    ∃ cs, literal s = '"' :: cs ∧ ∀ rest, readString (cs ++ rest) = some (s, rest) := by
  cases s with
  | none =>
      refine ⟨"\\ud800\"".toList, rfl, fun rest => ?_⟩
      have hunit : unit? 'd' '8' '0' '0' = some 0xD800 := rfl
      show readString ('\\' :: 'u' :: 'd' :: '8' :: '0' :: '0' :: '"' :: rest) = _
      rw [readString, pieces_unit hunit]
      rfl
  | some s =>
      refine ⟨s.toList.flatMap escape ++ ['"'], rfl, fun rest => ?_⟩
      obtain ⟨row, hrow, htext⟩ := exists_pieces s.toList rest
      rw [List.append_assoc, List.singleton_append, readString, hrow]
      show some ((assemble row).map String.ofList, rest) = _
      rw [htext, Option.map_some, String.ofList_toList]

/-! ## Numbers -/

/-- What follows does not go on with a number. -/
def Ends (rest : List Char) : Prop :=
  ∀ c ∈ rest.head?, c.isDigit = false ∧ c ≠ '.' ∧ c ≠ 'e' ∧ c ≠ 'E'

theorem readDigits_append {digits rest : List Char} (hsome : digits ≠ [])
    (hdigits : ∀ c ∈ digits, c.isDigit = true) (hrest : ∀ c ∈ rest.head?, c.isDigit = false) :
    readDigits (digits ++ rest) = some (digits, rest) := by
  have hend : rest.takeWhile Char.isDigit = [] ∧ rest.dropWhile Char.isDigit = rest := by
    cases rest with
    | nil => exact ⟨rfl, rfl⟩
    | cons c rest =>
        have hc : c.isDigit = false := hrest c rfl
        simp [hc]
  have htake : (digits ++ rest).takeWhile Char.isDigit = digits := by
    rw [List.takeWhile_append_of_pos hdigits, hend.1, List.append_nil]
  have hdrop : (digits ++ rest).dropWhile Char.isDigit = rest := by
    rw [List.dropWhile_append_of_pos hdigits, hend.2]
  rw [readDigits, htake, hdrop]
  cases digits with
  | nil => exact absurd rfl hsome
  | cons c digits => rfl

theorem readDigits_toDigits (n : Nat) {rest : List Char}
    (hrest : ∀ c ∈ rest.head?, c.isDigit = false) :
    readDigits (Nat.toDigits 10 n ++ rest) = some (Nat.toDigits 10 n, rest) :=
  readDigits_append Nat.toDigits_ne_nil
    (fun _ => Nat.isDigit_of_mem_toDigits (by decide) (by decide)) hrest

theorem decimalValue_toDigits (n : Nat) : decimalValue (Nat.toDigits 10 n) = n :=
  Nat.ofDigitChars_ten_toDigits

theorem exists_toDigits (n : Nat) :
    ∃ c cs, Nat.toDigits 10 n = c :: cs ∧ c.isDigit = true := by
  obtain ⟨c, cs, hdigits⟩ := List.exists_cons_of_ne_nil (Nat.toDigits_ne_nil (n := n) (b := 10))
  have hfirst : c ∈ Nat.toDigits 10 n := hdigits ▸ List.mem_cons_self
  exact ⟨c, cs, hdigits, Nat.isDigit_of_mem_toDigits (by decide) (by decide) hfirst⟩

/-- Only zero is written with a zero in front. -/
theorem head?_toDigits {n : Nat} (h : 0 < n) : (Nat.toDigits 10 n).head? ≠ some '0' := by
  induction n using Nat.strongRecOn with
  | ind n ih =>
      rw [Nat.toDigits_eq_if (by decide)]
      split
      · simp
        omega
      · have hfirst := ih (n / 10) (by omega) (by omega)
        obtain ⟨c, cs, hdigits, -⟩ := exists_toDigits (n / 10)
        rw [hdigits] at hfirst ⊢
        exact hfirst

theorem readWhole_toDigits (n : Nat) {rest : List Char}
    (hrest : ∀ c ∈ rest.head?, c.isDigit = false) :
    readWhole (Nat.toDigits 10 n ++ rest) = some (n, rest) := by
  by_cases hn : n = 0
  · subst hn
    rfl
  · rw [readWhole, readDigits_toDigits n hrest]
    · show some (decimalValue (Nat.toDigits 10 n), rest) = _
      rw [decimalValue_toDigits]
    · intro others h
      obtain ⟨c, cs, hdigits, -⟩ := exists_toDigits n
      have hhead := head?_toDigits (Nat.pos_of_ne_zero hn)
      rw [hdigits] at h hhead
      cases h
      exact hhead rfl

theorem digit_of_fin : ∀ d : Fin 10, (Nat.digitChar d.val).isDigit = true ∧
    Fin.ofNat 10 ((Nat.digitChar d.val).toNat - '0'.toNat) = d := by
  decide

/-- The digits behind a point, with the point. -/
def fractionChars (fraction : List (Fin 10)) : List Char :=
  if fraction.isEmpty then [] else '.' :: fraction.map fun d => Nat.digitChar d.val

/-- The digits behind a point are read as they are, the zeros in front and at the end too. -/
theorem readDigits_fraction {fraction : List (Fin 10)} (hsome : fraction ≠ [])
    {rest : List Char} (hrest : ∀ c ∈ rest.head?, c.isDigit = false) :
    (readDigits (fraction.map (fun d => Nat.digitChar d.val) ++ rest)).map
      (fun (digits, rest) => (digits.map fun c => Fin.ofNat 10 (c.toNat - '0'.toNat), rest)) =
        some (fraction, rest) := by
  have hwritten : fraction.map (fun d => Nat.digitChar d.val) ≠ [] :=
    mt List.map_eq_nil_iff.mp hsome
  have hdigits : ∀ c ∈ fraction.map (fun d => Nat.digitChar d.val), c.isDigit = true := by
    intro c hc
    obtain ⟨d, -, rfl⟩ := List.mem_map.mp hc
    exact (digit_of_fin d).1
  have hback : (fraction.map fun d => Nat.digitChar d.val).map
      (fun c => Fin.ofNat 10 (c.toNat - '0'.toNat)) = fraction := by
    rw [List.map_map]
    exact List.map_id'' (fun d => (digit_of_fin d).2) fraction
  rw [readDigits_append hwritten hdigits hrest]
  exact congrArg (fun digits => some (digits, rest)) hback

theorem readFraction_append (fraction : List (Fin 10)) {rest : List Char}
    (hrest : ∀ c ∈ rest.head?, c.isDigit = false ∧ c ≠ '.') :
    readFraction (fractionChars fraction ++ rest) = some (fraction, rest) := by
  cases fraction with
  | nil =>
      cases rest with
      | nil => rfl
      | cons c rest =>
          have hpoint : c ≠ '.' := (hrest c rfl).2
          simp [fractionChars, readFraction, hpoint]
  | cons d fraction =>
      exact readDigits_fraction (List.cons_ne_nil d fraction) fun c hc => (hrest c hc).1

/-- The exponent, with its letter. -/
def exponentChars : Option Int → List Char
  | none => []
  | some e => 'e' :: (toString e).toList

theorem readSign_digit {c : Char} (h : c.isDigit = true) (cs : List Char) :
    readSign (c :: cs) = (false, c :: cs) := by
  unfold readSign
  split
  next heq => cases heq; cases h
  next heq => cases heq; cases h
  next => rfl

theorem readExponent_append (exponent : Option Int) {rest : List Char} (hrest : Ends rest) :
    readExponent (exponentChars exponent ++ rest) = some (exponent, rest) := by
  have hdigit : ∀ c ∈ rest.head?, c.isDigit = false := fun c hc => (hrest c hc).1
  match exponent with
  | none =>
      cases rest with
      | nil => rfl
      | cons c rest =>
          obtain ⟨-, -, hsmall, hcapital⟩ := hrest c rfl
          simp [exponentChars, readExponent, hsmall, hcapital]
  | some (.ofNat n) =>
      have hwritten : exponentChars (some (.ofNat n)) = 'e' :: Nat.toDigits 10 n := by
        show 'e' :: n.repr.toList = _
        rw [Nat.toList_repr]
      have hsign : readSign (Nat.toDigits 10 n ++ rest) = (false, Nat.toDigits 10 n ++ rest) := by
        obtain ⟨c, cs, hdigits, hc⟩ := exists_toDigits n
        rw [hdigits]
        exact readSign_digit hc _
      rw [hwritten, List.cons_append, readExponent, if_pos (.inl rfl), hsign]
      show (readDigits (Nat.toDigits 10 n ++ rest)).map _ = _
      rw [readDigits_toDigits n hdigit]
      show some (some (decimalValue (Nat.toDigits 10 n) : Int), rest) = _
      rw [decimalValue_toDigits]
      rfl
  | some (.negSucc n) =>
      have hwritten : exponentChars (some (.negSucc n)) =
          'e' :: '-' :: Nat.toDigits 10 (n + 1) := by
        show 'e' :: ("-" ++ (n + 1).repr).toList = _
        rw [String.toList_append, Nat.toList_repr]
        rfl
      rw [hwritten]
      show (readDigits (Nat.toDigits 10 (n + 1) ++ rest)).map _ = _
      rw [readDigits_toDigits (n + 1) hdigit]
      show some (some (-(decimalValue (Nat.toDigits 10 (n + 1)) : Int)), rest) = _
      rw [decimalValue_toDigits]
      rfl

/-- The digits, the fraction and the exponent of a number. -/
def magnitudeChars (n : Numeral) : List Char :=
  Nat.toDigits 10 n.whole ++ (fractionChars n.fraction ++ exponentChars n.exponent)

theorem numeral_eq (n : Numeral) :
    numeral n = (if n.negative then ['-'] else []) ++ magnitudeChars n := by
  unfold numeral magnitudeChars fractionChars
  cases n.exponent <;> simp [exponentChars]

/-- Neither a fraction nor an exponent starts with a digit, and no exponent with a point. -/
theorem head?_exponentChars (exponent : Option Int) {rest : List Char} (hrest : Ends rest) :
    ∀ c ∈ (exponentChars exponent ++ rest).head?, c.isDigit = false ∧ c ≠ '.' := by
  cases exponent with
  | none => exact fun c hc => ⟨(hrest c hc).1, (hrest c hc).2.1⟩
  | some e =>
      intro c hc
      cases hc
      decide

theorem head?_fractionChars (fraction : List (Fin 10)) {rest : List Char}
    (hrest : ∀ c ∈ rest.head?, c.isDigit = false) :
    ∀ c ∈ (fractionChars fraction ++ rest).head?, c.isDigit = false := by
  cases fraction with
  | nil => exact hrest
  | cons d fraction =>
      intro c hc
      cases hc
      rfl

/-- A number without its sign is read up to where it ends. -/
theorem readMagnitude_append (n : Numeral) {rest : List Char} (hrest : Ends rest) :
    readMagnitude n.negative (magnitudeChars n ++ rest) = some (.number n, rest) := by
  have hpoint := head?_exponentChars n.exponent hrest
  have hdigit := head?_fractionChars n.fraction fun c hc => (hpoint c hc).1
  have hwhole := readWhole_toDigits n.whole hdigit
  have hfraction := readFraction_append n.fraction hpoint
  have hexponent := readExponent_append n.exponent hrest
  rw [magnitudeChars, List.append_assoc, List.append_assoc, readMagnitude, hwhole]
  show (readFraction _ >>= _) = _
  rw [hfraction]
  show (readExponent _ >>= _) = _
  rw [hexponent]
  rfl

/-! ## Values -/

theorem ends_nil : Ends [] := nofun

theorem ends_cons {c : Char} (h : isBlank c = true ∨ c ∈ [',', ']', '\x7d']) (cs : List Char) :
    Ends (c :: cs) := by
  intro d hd
  cases hd
  simp only [isBlank, List.mem_cons, List.not_mem_nil, Bool.or_eq_true, decide_eq_true_eq,
    or_false] at h
  rcases h with (((rfl | rfl) | rfl) | rfl) | rfl | rfl | rfl <;> decide

theorem ends_blanks_append {blanks : List Char} (h : ∀ c ∈ blanks, isBlank c = true)
    {rest : List Char} (hrest : Ends rest) : Ends (blanks ++ rest) := by
  cases blanks with
  | nil => exact hrest
  | cons c blanks => exact ends_cons (.inl (h c List.mem_cons_self)) _

theorem isBlank_of_isDigit {c : Char} (h : c.isDigit = true) : isBlank c = false := by
  simp only [isBlank, Bool.or_eq_false_iff, decide_eq_false_iff_not]
  refine ⟨⟨⟨?_, ?_⟩, ?_⟩, ?_⟩ <;> (rintro rfl; cases h)

theorem readValue_blanks {blanks : List Char} (h : ∀ c ∈ blanks, isBlank c = true) (fuel : Nat)
    (cs : List Char) : readValue fuel (blanks ++ cs) = readValue fuel cs := by
  cases fuel with
  | zero => rfl
  | succ fuel => rw [readValue, readValue, skipBlanks_append h]

/-- A value that starts with a digit is a number. -/
theorem readValue_digit {c : Char} (h : c.isDigit = true) (fuel : Nat) (cs : List Char) :
    readValue (fuel + 1) (c :: cs) = readMagnitude false (c :: cs) := by
  rw [readValue, skipBlanks_cons (isBlank_of_isDigit h)]
  split
  next heq => cases heq; cases h
  next heq => cases heq; cases h
  next heq => cases heq; cases h
  next heq => cases heq; cases h
  next heq => cases heq; cases h
  next heq => cases heq; cases h
  next heq => cases heq; cases h
  next => rfl

theorem readValue_numeral (n : Numeral) (fuel : Nat) {rest : List Char} (hrest : Ends rest) :
    readValue (fuel + 1) (numeral n ++ rest) = some (.number n, rest) := by
  have hread := readMagnitude_append n hrest
  rw [numeral_eq]
  cases hsign : n.negative with
  | true =>
      rw [hsign] at hread
      exact hread
  | false =>
      obtain ⟨c, cs, hdigits, hc⟩ := exists_toDigits n.whole
      rw [hsign] at hread
      rw [magnitudeChars, hdigits] at hread ⊢
      exact (readValue_digit hc fuel _).trans hread

theorem readKey_literal (key : Option String) (blanks : List Char)
    (h : ∀ c ∈ blanks, isBlank c = true) (rest : List Char) :
    readKey (blanks ++ (literal key ++ ':' :: rest)) = some (key, rest) := by
  obtain ⟨cs, hliteral, hread⟩ := exists_literal key
  rw [readKey, skipBlanks_append h, hliteral]
  show (readString (cs ++ ':' :: rest) >>= _) = _
  rw [hread]
  rfl

/-- A value starts with a character that is no blank and no closing bracket. -/
theorem head?_chars (layout : Layout) (depth : Nat) (j : Json) (rest : List Char) :
    ∀ c ∈ (chars layout depth j ++ rest).head?, isBlank c = false ∧ c ≠ ']' := by
  suffices hstart : ∃ c cs, chars layout depth j = c :: cs ∧ isBlank c = false ∧ c ≠ ']' by
    obtain ⟨c, cs, hchars, hc⟩ := hstart
    rw [hchars]
    rintro _ ⟨⟩
    exact hc
  match j with
  | .null => exact ⟨'n', _, rfl, rfl, by decide⟩
  | .bool true => exact ⟨'t', _, rfl, rfl, by decide⟩
  | .bool false => exact ⟨'f', _, rfl, rfl, by decide⟩
  | .number n =>
      rw [chars, numeral_eq]
      cases n.negative with
      | true => exact ⟨'-', _, rfl, rfl, by decide⟩
      | false =>
          obtain ⟨c, cs, hdigits, hc⟩ := exists_toDigits n.whole
          refine ⟨c, _, by rw [magnitudeChars, hdigits]; rfl, isBlank_of_isDigit hc, ?_⟩
          rintro rfl
          cases hc
  | .string s =>
      obtain ⟨cs, hliteral, -⟩ := exists_literal s
      exact ⟨'"', cs, by rw [chars, hliteral], rfl, by decide⟩
  | .array [] => exact ⟨'[', _, rfl, rfl, by decide⟩
  | .array (item :: items) => exact ⟨'[', _, by rw [chars]; rfl, rfl, by decide⟩
  | .object [] => exact ⟨'\x7b', _, rfl, rfl, by decide⟩
  | .object ((key, value) :: members) => exact ⟨'\x7b', _, by rw [chars]; rfl, rfl, by decide⟩

theorem head?_literal (key : Option String) (rest : List Char) :
    ∀ c ∈ (literal key ++ rest).head?, isBlank c = false ∧ c ≠ '\x7d' := by
  obtain ⟨cs, hliteral, -⟩ := exists_literal key
  rw [hliteral]
  rintro _ ⟨⟩
  decide

/-! ## Arrays and objects -/

theorem readItems_blanks {blanks : List Char} (h : ∀ c ∈ blanks, isBlank c = true) (fuel : Nat)
    (cs : List Char) : readItems fuel (blanks ++ cs) = readItems fuel cs := by
  cases fuel with
  | zero => rfl
  | succ fuel => rw [readItems, readItems, skipBlanks_append h]

theorem readMembers_blanks {blanks : List Char} (h : ∀ c ∈ blanks, isBlank c = true)
    (fuel : Nat) (cs : List Char) : readMembers fuel (blanks ++ cs) = readMembers fuel cs := by
  cases fuel with
  | zero => rfl
  | succ fuel => rw [readMembers, readMembers, skipBlanks_append h]

theorem ends_itemChars (layout : Layout) (depth : Nat) (items : List Json) {rest : List Char}
    (hrest : Ends rest) : Ends (itemChars layout depth items ++ rest) := by
  cases items with
  | nil => exact hrest
  | cons item items =>
      rw [itemChars]
      exact ends_cons (.inr (by decide)) _

theorem ends_memberChars (layout : Layout) (depth : Nat) (members : List (Option String × Json))
    {rest : List Char} (hrest : Ends rest) : Ends (memberChars layout depth members ++ rest) := by
  cases members with
  | nil => exact hrest
  | cons m members =>
      rw [memberChars]
      exact ends_cons (.inr (by decide)) _

/-- An array is read by its items, if what follows its bracket cannot be the other one. -/
theorem readValue_array {fuel : Nat} {item : Json} {items : List Json}
    {blanks cs after rest : List Char} (hblanks : ∀ c ∈ blanks, isBlank c = true)
    (hstart : ∀ c ∈ cs.head?, isBlank c = false ∧ c ≠ ']')
    (hitem : readValue fuel cs = some (item, after))
    (hitems : readItems fuel after = some (items, rest)) :
    readValue (fuel + 1) ('[' :: (blanks ++ cs)) = some (.array (item :: items), rest) := by
  have hskip : skipBlanks (blanks ++ cs) = cs :=
    skipBlanks_append_of_start hblanks fun c hc => (hstart c hc).1
  rw [readValue, skipBlanks_cons (by rfl)]
  simp only [hskip]
  split
  next => exact absurd rfl (hstart ']' rfl).2
  next =>
    rw [hitem]
    show (readItems fuel after >>= _) = _
    rw [hitems]
    rfl

/-- An object is read by its members, if what follows its brace cannot be the other one. -/
theorem readValue_object {fuel : Nat} {key : Option String} {value : Json}
    {members : List (Option String × Json)} {blanks cs afterKey after rest : List Char}
    (hblanks : ∀ c ∈ blanks, isBlank c = true)
    (hstart : ∀ c ∈ cs.head?, isBlank c = false ∧ c ≠ '\x7d')
    (hkey : readKey cs = some (key, afterKey))
    (hvalue : readValue fuel afterKey = some (value, after))
    (hmembers : readMembers fuel after = some (members, rest)) :
    readValue (fuel + 1) ('\x7b' :: (blanks ++ cs)) =
      some (.object ((key, value) :: members), rest) := by
  have hskip : skipBlanks (blanks ++ cs) = cs :=
    skipBlanks_append_of_start hblanks fun c hc => (hstart c hc).1
  rw [readValue, skipBlanks_cons (by rfl)]
  simp only [hskip]
  split
  next => exact absurd rfl (hstart '\x7d' rfl).2
  next =>
    rw [hkey]
    show (readValue fuel afterKey >>= _) = _
    rw [hvalue]
    show (readMembers fuel after >>= _) = _
    rw [hmembers]
    rfl

theorem readItems_cons {fuel : Nat} {item : Json} {items : List Json} {cs after rest : List Char}
    (hitem : readValue fuel cs = some (item, after))
    (hitems : readItems fuel after = some (items, rest)) :
    readItems (fuel + 1) (',' :: cs) = some (item :: items, rest) := by
  show (readValue fuel cs >>= _) = _
  rw [hitem]
  show (readItems fuel after >>= _) = _
  rw [hitems]
  rfl

theorem readMembers_cons {fuel : Nat} {key : Option String} {value : Json}
    {members : List (Option String × Json)} {cs afterKey after rest : List Char}
    (hkey : readKey cs = some (key, afterKey))
    (hvalue : readValue fuel afterKey = some (value, after))
    (hmembers : readMembers fuel after = some (members, rest)) :
    readMembers (fuel + 1) (',' :: cs) = some ((key, value) :: members, rest) := by
  show (readKey cs >>= _) = _
  rw [hkey]
  show (readValue fuel afterKey >>= _) = _
  rw [hvalue]
  show (readMembers fuel after >>= _) = _
  rw [hmembers]
  rfl

theorem readWord_append (word : String) (value : Json) (rest : List Char) :
    readWord word value (word.toList ++ rest) = some (value, rest) := by
  have hword : word.toList.isPrefixOf (word.toList ++ rest) = true := by simp
  rw [readWord, if_pos hword, ← String.length_toList, List.drop_left]

section

variable {layout : Layout} (hlayout : layout.Blank)
include hlayout

mutual

/-- A value is read up to where it ends, at any depth, if there is fuel for each of its
characters. -/
theorem readValue_chars (depth : Nat) (j : Json) (fuel : Nat)
    (hfuel : (chars layout depth j).length < fuel) {rest : List Char} (hrest : Ends rest) :
    readValue fuel (chars layout depth j ++ rest) = some (j, rest) := by
  obtain ⟨fuel, rfl⟩ : ∃ n, fuel = n + 1 := ⟨fuel - 1, by omega⟩
  match j with
  | .null => exact readWord_append "null" .null rest
  | .bool true => exact readWord_append "true" (.bool true) rest
  | .bool false => exact readWord_append "false" (.bool false) rest
  | .number n =>
      rw [chars]
      exact readValue_numeral n fuel hrest
  | .string s =>
      obtain ⟨cs, hliteral, hread⟩ := exists_literal s
      rw [chars, hliteral]
      show (readString (cs ++ rest)).map _ = _
      rw [hread]
      rfl
  | .array [] =>
      rw [chars]
      rfl
  | .array (item :: items) =>
      simp only [chars, List.length_append, List.length_cons, List.length_nil] at hfuel
      have hend : Ends (layout.lineBreak depth ++ ']' :: rest) :=
        ends_blanks_append (hlayout.lineBreak depth) (ends_cons (.inr (by decide)) rest)
      have hitem := readValue_chars (depth + 1) item fuel (by omega)
        (ends_itemChars layout (depth + 1) items hend)
      have hitems := readItems_itemChars (depth + 1) items fuel (by omega)
        (hlayout.lineBreak depth) rest
      simp only [chars, List.cons_append, List.append_assoc, List.nil_append]
      exact readValue_array (hlayout.lineBreak (depth + 1)) (head?_chars layout _ item _)
        hitem hitems
  | .object [] =>
      rw [chars]
      rfl
  | .object ((key, value) :: members) =>
      simp only [chars, List.length_append, List.length_cons, List.length_nil] at hfuel
      have hend : Ends (layout.lineBreak depth ++ '\x7d' :: rest) :=
        ends_blanks_append (hlayout.lineBreak depth) (ends_cons (.inr (by decide)) rest)
      have hvalue := readValue_chars (depth + 1) value fuel (by omega)
        (ends_memberChars layout (depth + 1) members hend)
      have hmembers := readMembers_memberChars (depth + 1) members fuel (by omega)
        (hlayout.lineBreak depth) rest
      rw [← readValue_blanks hlayout.afterColon] at hvalue
      simp only [chars, List.cons_append, List.append_assoc, List.nil_append]
      exact readValue_object (hlayout.lineBreak (depth + 1)) (head?_literal key _)
        (readKey_literal key [] nofun _) hvalue hmembers

theorem readItems_itemChars (depth : Nat) (items : List Json) (fuel : Nat)
    (hfuel : (itemChars layout depth items).length < fuel) {blanks : List Char}
    (hblanks : ∀ c ∈ blanks, isBlank c = true) (rest : List Char) :
    readItems fuel (itemChars layout depth items ++ (blanks ++ ']' :: rest)) =
      some (items, rest) := by
  obtain ⟨fuel, rfl⟩ : ∃ n, fuel = n + 1 := ⟨fuel - 1, by omega⟩
  match items with
  | [] =>
      rw [itemChars, List.nil_append, readItems_blanks hblanks]
      rfl
  | item :: items =>
      simp only [itemChars, List.length_append, List.length_cons] at hfuel
      have hend : Ends (blanks ++ ']' :: rest) :=
        ends_blanks_append hblanks (ends_cons (.inr (by decide)) rest)
      have hitem := readValue_chars depth item fuel (by omega)
        (ends_itemChars layout depth items hend)
      have hitems := readItems_itemChars depth items fuel (by omega) hblanks rest
      rw [← readValue_blanks (hlayout.lineBreak depth)] at hitem
      simp only [itemChars, List.cons_append, List.append_assoc]
      exact readItems_cons hitem hitems

theorem readMembers_memberChars (depth : Nat) (members : List (Option String × Json))
    (fuel : Nat) (hfuel : (memberChars layout depth members).length < fuel)
    {blanks : List Char} (hblanks : ∀ c ∈ blanks, isBlank c = true) (rest : List Char) :
    readMembers fuel (memberChars layout depth members ++ (blanks ++ '\x7d' :: rest)) =
      some (members, rest) := by
  obtain ⟨fuel, rfl⟩ : ∃ n, fuel = n + 1 := ⟨fuel - 1, by omega⟩
  match members with
  | [] =>
      rw [memberChars, List.nil_append, readMembers_blanks hblanks]
      rfl
  | (key, value) :: members =>
      simp only [memberChars, List.length_append, List.length_cons] at hfuel
      have hend : Ends (blanks ++ '\x7d' :: rest) :=
        ends_blanks_append hblanks (ends_cons (.inr (by decide)) rest)
      have hvalue := readValue_chars depth value fuel (by omega)
        (ends_memberChars layout depth members hend)
      have hmembers := readMembers_memberChars depth members fuel (by omega) hblanks rest
      rw [← readValue_blanks hlayout.afterColon] at hvalue
      simp only [memberChars, List.cons_append, List.append_assoc]
      exact readMembers_cons (readKey_literal key _ (hlayout.lineBreak depth) _) hvalue hmembers

end

/-- **What is written is read back**, in any layout. -/
theorem parse?_render (j : Json) : parse? (j.render layout) = some j := by
  have hread := readValue_chars hlayout 0 j _ (Nat.lt_succ_self _) ends_nil
  rw [List.append_nil] at hread
  rw [parse?, render, String.toList_ofList, hread]
  rfl

/-- So no two values have one text. -/
theorem render_injective : Function.Injective (render layout) := by
  intro j k h
  have hread : some j = some k := by
    rw [← parse?_render hlayout j, ← parse?_render hlayout k, h]
  exact Option.some.inj hread

end

/-! ## Records -/

/-- A record shows its fields, in their order. -/
theorem record_injective : Function.Injective record := by
  intro fields fields' h
  have hinjective : Function.Injective fun f : String × Json => (some f.1, f.2) := by
    rintro ⟨key, value⟩ ⟨key', value'⟩ hpair
    cases hpair
    rfl
  exact List.map_injective_iff.mpr hinjective (Json.object.inj h)

end AvrConformance.Json
