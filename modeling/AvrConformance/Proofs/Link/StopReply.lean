import AvrConformance.Link.Reply
import AvrConformance.Proofs.Link.Hex

/-!
# Texts that tell a stop

A text tells a stop if it opens with the letter of a stop and with a code of two
characters; what stands behind the code is not looked at (`stop_eq_ok_iff`). The code is
two digits, or else a plus sign and one digit, which the reading of numbers lets pass
(`stop_of_sign`). A text that is an error reply as a whole is told apart first, and it never
opens like a stop (`not_tells_of_isErrorText`). All other texts are malformed, so that these
are the only three outcomes (`stop_grammar`).
-/

namespace AvrConformance.Link.Reply

open Text.Hex (Digit IsDigitOf)

/-! ## Stops -/

/-- What the letter of a stop reply says of the code behind it. -/
inductive Announces : Char → UInt8 → Stop → Prop
  | stopped (code : UInt8) : Announces 'S' code (.signal code)
  | stoppedWith (code : UInt8) : Announces 'T' code (.signal code)
  | exited (code : UInt8) : Announces 'W' code (.exited code)
  | terminated (code : UInt8) : Announces 'X' code (.terminated code)

theorem stopOf?_eq_some_iff {letter : Char} {code : UInt8} {s : Stop} :
    stopOf? letter code = some s ↔ Announces letter code s := by
  constructor
  · intro h
    unfold stopOf? at h
    split at h
    next hletter =>
      cases h
      rcases hletter with rfl | rfl
      · exact .stopped code
      · exact .stoppedWith code
    split at h
    next hletter =>
      cases h
      subst hletter
      exact .exited code
    split at h
    next hletter =>
      cases h
      subst hletter
      exact .terminated code
    next => cases h
  · rintro (_ | _ | _ | _) <;> rfl

/-- Two characters are the digits of a code, the higher one first and each in either case. -/
def InDigits (code : UInt8) (first second : Char) : Prop :=
  IsDigitOf (code.toNat / 16) first ∧ IsDigitOf code.toNat second

/-- Two characters are a plus sign and the one digit that a small code needs. -/
def UnderSign (code : UInt8) (first second : Char) : Prop :=
  first = '+' ∧ code.toNat < 16 ∧ IsDigitOf code.toNat second

/-- The text opens with a letter and a code that tell the stop. -/
def Opens (Writes : UInt8 → Char → Char → Prop) (text : List Char) (s : Stop) : Prop :=
  ∃ letter first second rest code, text = letter :: first :: second :: rest ∧
    Writes code first second ∧ Announces letter code s

/-- The text opens like a stop, by either of the two rules for its code. -/
def Tells (text : List Char) (s : Stop) : Prop :=
  Opens InDigits text s ∨ Opens UnderSign text s

theorem leadingStop?_eq_some_iff {text : List Char} {s : Stop} :
    leadingStop? text = some s ↔ Tells text s := by
  constructor
  · intro h
    unfold leadingStop? at h
    split at h
    next letter first second rest =>
      obtain ⟨code, hcode, hstop⟩ := Option.bind_eq_some_iff.mp h
      have hannounced := stopOf?_eq_some_iff.mp hstop
      rcases Text.Hex.lenientByte?_eq_some_iff.mp hcode with hdigits | hsigned
      · exact .inl ⟨letter, first, second, rest, code, rfl, hdigits, hannounced⟩
      · exact .inr ⟨letter, first, second, rest, code, rfl, hsigned, hannounced⟩
    next => cases h
  · have hopens : ∀ {letter first second rest code},
        Text.Hex.lenientByte? first second = some code → Announces letter code s →
        leadingStop? (letter :: first :: second :: rest) = some s := by
      intro letter first second rest code hcode hannounced
      rw [leadingStop?, hcode]
      exact stopOf?_eq_some_iff.mpr hannounced
    rintro (⟨_, _, _, _, _, rfl, hdigits, hannounced⟩ | ⟨_, _, _, _, _, rfl, hsigned, hannounced⟩)
    · exact hopens (Text.Hex.lenientByte?_eq_some_iff.mpr (.inl hdigits)) hannounced
    · exact hopens (Text.Hex.lenientByte?_eq_some_iff.mpr (.inr hsigned)) hannounced

/-! ## Errors -/

/-- The whole text is `E` and two digits. -/
def IsErrorText (text : List Char) : Prop :=
  ∃ first second, text = ['E', first, second] ∧ Digit first ∧ Digit second

theorem isError_iff {text : String} : isError text = true ↔ IsErrorText text.toList := by
  unfold isError
  split
  next first second htext =>
    rw [htext, Bool.and_eq_true, Text.Hex.isDigit_iff, Text.Hex.isDigit_iff]
    constructor
    · rintro ⟨hfirst, hsecond⟩
      exact ⟨first, second, rfl, hfirst, hsecond⟩
    · rintro ⟨_, _, hsame, hfirst, hsecond⟩
      cases hsame
      exact ⟨hfirst, hsecond⟩
  next hother =>
    refine iff_of_false nofun ?_
    rintro ⟨first, second, htext, -, -⟩
    exact hother first second htext

/-- No stop has the letter of errors. -/
theorem not_tells_of_isErrorText {text : List Char} (h : IsErrorText text) {s : Stop} :
    ¬ Tells text s := by
  obtain ⟨first, second, rfl, -, -⟩ := h
  rintro (⟨_, _, _, _, _, htext, -, hannounced⟩ | ⟨_, _, _, _, _, htext, -, hannounced⟩)
  · cases htext
    cases hannounced
  · cases htext
    cases hannounced

/-! ## All texts -/

theorem stop_eq_ok_iff {text : String} {s : Stop} : stop text = .ok s ↔ Tells text.toList s := by
  unfold stop
  split
  next herror => exact iff_of_false nofun (not_tells_of_isErrorText (isError_iff.mp herror))
  next =>
    rw [← leadingStop?_eq_some_iff]
    cases leadingStop? text.toList <;> simp

theorem stop_eq_errorReply_iff {text : String} :
    stop text = .error (.errorReply text) ↔ IsErrorText text.toList := by
  rw [← isError_iff]
  unfold stop
  cases isError text with
  | true => simp
  | false => cases leadingStop? text.toList <;> simp

/-- There are no other outcomes than these three. -/
theorem stop_cases (text : String) :
    (∃ s, stop text = .ok s) ∨ stop text = .error (.errorReply text) ∨
      stop text = .error (.malformed (.stopReply text)) := by
  unfold stop
  split
  · exact .inr (.inl rfl)
  · cases leadingStop? text.toList with
    | some s => exact .inl ⟨s, rfl⟩
    | none => exact .inr (.inr rfl)

/-- **Stop replies.** A text is read as a stop exactly if it opens with `S`, `T`, `W` or `X`
and a code, which the letter makes a signal, an exit status or a fatal signal; the code is
two digits of either case, or a plus sign and one digit. It is an error reply exactly if it
is `E` and two digits and no more. Every other text is malformed. -/
theorem stop_grammar (text : String) :
    (∀ s, stop text = .ok s ↔ Tells text.toList s) ∧
    (stop text = .error (.errorReply text) ↔ IsErrorText text.toList) ∧
    (stop text = .error (.malformed (.stopReply text)) ↔
      ¬ IsErrorText text.toList ∧ ∀ s, ¬ Tells text.toList s) := by
  refine ⟨fun s => stop_eq_ok_iff, stop_eq_errorReply_iff, ?_, ?_⟩
  · intro h
    refine ⟨fun herror => ?_, fun s htells => ?_⟩
    · rw [stop_eq_errorReply_iff.mpr herror] at h
      cases h
    · rw [stop_eq_ok_iff.mpr htells] at h
      cases h
  · rintro ⟨hnoError, hnone⟩
    rcases stop_cases text with ⟨s, hs⟩ | herror | hmalformed
    · exact absurd (stop_eq_ok_iff.mp hs) (hnone s)
    · exact absurd (stop_eq_errorReply_iff.mp herror) hnoError
    · exact hmalformed

/-- A plus sign is no digit, and passes for one. -/
theorem stop_of_sign :
    stop "S+5" = .ok (.signal 5) ∧ ∀ s, ¬ Opens InDigits "S+5".toList s := by
  refine ⟨rfl, ?_⟩
  rintro s ⟨letter, first, second, rest, code, htext, ⟨hfirst, -⟩, -⟩
  have hplus : first = '+' := by
    have hsecond := congrArg (fun text => text[1]?) htext
    simpa using hsecond.symm
  subst hplus
  exact absurd (Text.Hex.isDigit_of_isDigitOf hfirst) (by decide)

end AvrConformance.Link.Reply
