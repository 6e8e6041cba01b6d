import AvrConformance.Link.Command
import AvrConformance.Proofs.Block

/-!
# What a stub makes of a transmission

A stub reads what stands on the wire: it takes the frame off, holds the checksum
against the payload, and reads the payload as a command. The commands that a session
frames are read as what they are (`decode?_packet`).
-/

namespace AvrConformance.Link

open Text.Hex (bytes? number? isDigit)

/-- What stands before and behind the first mark in a text. -/
def splitAt? (mark : Char) : List Char → Option (List Char × List Char)
  | [] => none
  | c :: rest =>
    if c = mark then some ([], rest)
    else (splitAt? mark rest).map fun parts => (c :: parts.1, parts.2)

theorem splitAt?_append {mark : Char} {before : List Char} (h : mark ∉ before)
    (behind : List Char) : splitAt? mark (before ++ mark :: behind) = some (before, behind) := by
  induction before with
  | nil => rw [List.nil_append, splitAt?, if_pos rfl]
  | cons c rest ih =>
      have hc : c ≠ mark := fun hc => h (hc ▸ List.mem_cons_self)
      rw [List.cons_append, splitAt?, if_neg hc, ih fun hmem => h (List.mem_cons_of_mem c hmem)]
      rfl

/-- The payload within a frame whose checksum is right. -/
def payload? : List Char → Option (List Char)
  | '$' :: rest =>
    match splitAt? '#' rest with
    | some (payload, [high, low]) =>
      if Text.Hex.byte? high low = some (checksum (codes payload)) then some payload else none
    | _ => none
  | _ => none

namespace Command

/-- The command that a payload spells. -/
def ofPayload? : List Char → Option Command
  | ['?'] => some lastStop
  | ['g'] => some readRegisters
  | ['c'] => some (resume none)
  | ['s'] => some step
  | ['D'] => some detach
  | 'C' :: digits =>
    match bytes? digits with
    | some [signal] => some (resume (some signal))
    | _ => none
  | 'G' :: block => ((bytes? block).bind Snapshot.ofBytes?).map writeRegisters
  | 'm' :: rest => do
    let (address, count) ← splitAt? ',' rest
    return readMemory (UInt32.ofNat (← number? address)) (← number? count)
  | 'M' :: rest => do
    let (address, rest) ← splitAt? ',' rest
    let (count, digits) ← splitAt? ':' rest
    let data ← bytes? digits
    if number? count = some data.length then
      return writeMemory (UInt32.ofNat (← number? address)) data
    else none
  | text => if text = "QStartNoAckMode".toList then some startNoAck else none

/-- The command that stands framed on the wire. -/
def decode? (wire : String) : Option Command := (payload? wire.toList).bind ofPayload?

theorem not_mem_toDigits (n : Nat) {mark : Char} (h : isDigit mark = false) :
    mark ∉ Nat.toDigits 16 n := by
  intro hmem
  rw [Text.Hex.isDigit_of_mem_toDigits hmem] at h
  cases h

/-- A payload is read as the command it was written for. -/
theorem ofPayload?_payload (c : Command) : ofPayload? c.payload.toList = some c := by
  have hnumber := Text.Hex.number?_toDigits
  have hcomma : ∀ n, ',' ∉ Nat.toDigits 16 n := fun n => not_mem_toDigits n rfl
  have hcolon : ∀ n, ':' ∉ Nat.toDigits 16 n := fun n => not_mem_toDigits n rfl
  have hbytes : ∀ data, bytes? (data.flatMap Text.Hex.ofByte) = some data := fun data =>
    (Text.Hex.spells_ofByte data).bytes?
  cases c with
  | startNoAck => rfl
  | lastStop => rfl
  | readRegisters => rfl
  | step => rfl
  | detach => rfl
  | readMemory address count =>
      have htext : (readMemory address count).payload.toList =
          'm' :: (Nat.toDigits 16 address.toNat ++ ',' :: Nat.toDigits 16 count) := by
        simp [payload, Text.Hex.toList_hexDigits]
      rw [htext]
      simp [ofPayload?, splitAt?_append (hcomma _), hnumber]
  | writeMemory address data =>
      have htext : (writeMemory address data).payload.toList =
          'M' :: (Nat.toDigits 16 address.toNat ++ ',' :: (Nat.toDigits 16 data.length ++
            ':' :: data.flatMap Text.Hex.ofByte)) := by
        simp [payload, Text.Hex.toList_hexDigits, Text.Hex.ofBytes]
      rw [htext]
      simp [ofPayload?, splitAt?_append (hcomma _), splitAt?_append (hcolon _), hnumber, hbytes]
  | writeRegisters registers =>
      have htext : (writeRegisters registers).payload.toList =
          'G' :: registers.toBytes.flatMap Text.Hex.ofByte := by
        simp [payload, Snapshot.toBlock, Text.Hex.ofBytes]
      rw [htext]
      simp only [ofPayload?, hbytes, Option.bind_some, Snapshot.ofBytes?_toBytes, Option.map_some]
  | resume signal =>
      cases signal with
      | none => rfl
      | some signal =>
          have htext : (resume (some signal)).payload.toList =
              'C' :: [signal].flatMap Text.Hex.ofByte := by
            simp [payload, Text.Hex.ofBytes]
          rw [htext]
          simp only [ofPayload?, hbytes]

/-- A payload is of ASCII and holds no end mark. -/
theorem payload_char {c : Command} {x : Char} (h : x ∈ c.payload.toList) :
    x.toNat < 128 ∧ x ≠ '#' := by
  have hdigit : ∀ {x}, isDigit x = true → x.toNat < 128 ∧ x ≠ '#' := fun hx =>
    ⟨(Text.Hex.char_of_isDigit hx).1, (Text.Hex.char_of_isDigit hx).2.1⟩
  have hbytes : ∀ {data : List UInt8} {x}, x ∈ data.flatMap Text.Hex.ofByte →
      x.toNat < 128 ∧ x ≠ '#' := fun hx => hdigit ((Text.Hex.spells_ofByte _).isDigit _ hx)
  have hnumber : ∀ {n x}, x ∈ Nat.toDigits 16 n → x.toNat < 128 ∧ x ≠ '#' :=
    fun hx => hdigit (Text.Hex.isDigit_of_mem_toDigits hx)
  have hfixed : ∀ text : List Char, text.all (fun x => x.toNat < 128 && x != '#') = true →
      x ∈ text → x.toNat < 128 ∧ x ≠ '#' := by
    intro text hall hx
    simpa using List.all_eq_true.mp hall x hx
  -- a payload is put together of fixed words, numbers and spelled bytes
  cases c with
  | startNoAck => exact hfixed "QStartNoAckMode".toList rfl h
  | lastStop => exact hfixed ['?'] rfl h
  | readRegisters => exact hfixed ['g'] rfl h
  | step => exact hfixed ['s'] rfl h
  | detach => exact hfixed ['D'] rfl h
  | readMemory address count =>
      simp only [payload, String.toList_append, Text.Hex.toList_hexDigits, List.mem_append] at h
      rcases h with ((h | h) | h) | h
      · exact hfixed ['m'] rfl h
      · exact hnumber h
      · exact hfixed [','] rfl h
      · exact hnumber h
  | writeMemory address data =>
      simp only [payload, String.toList_append, Text.Hex.toList_hexDigits, Text.Hex.ofBytes,
        String.toList_ofList, List.mem_append] at h
      rcases h with ((((h | h) | h) | h) | h) | h
      · exact hfixed ['M'] rfl h
      · exact hnumber h
      · exact hfixed [','] rfl h
      · exact hnumber h
      · exact hfixed [':'] rfl h
      · exact hbytes h
  | writeRegisters registers =>
      simp only [payload, Snapshot.toBlock, String.toList_append, Text.Hex.ofBytes,
        String.toList_ofList, List.mem_append] at h
      rcases h with h | h
      · exact hfixed ['G'] rfl h
      · exact hbytes h
  | resume signal =>
      cases signal with
      | none => exact hfixed ['c'] rfl h
      | some signal =>
          simp only [payload, String.toList_append, Text.Hex.ofBytes, String.toList_ofList,
            List.mem_append] at h
          rcases h with h | h
          · exact hfixed ['C'] rfl h
          · exact hbytes h

/-- What a session frames is read as the command it is. -/
theorem decode?_packet (c : Command) :
    decode? (Transmission.packet c.payload).text = some c := by
  have hascii : Ascii c.payload.toList := by
    intro x hx
    exact (payload_char hx).1
  have hfree : '#' ∉ c.payload.toList := by
    intro hx
    exact (payload_char hx).2 rfl
  have hcodes : textBytes c.payload = codes c.payload.toList := textBytes_of_ascii hascii
  let sum := checksum (codes c.payload.toList)
  have hwire : (Transmission.packet c.payload).text.toList =
      '$' :: (c.payload.toList ++ '#' :: Text.Hex.ofByte sum) := by
    simp [Transmission.text, frame, Text.Hex.ofBytes, hcodes, sum]
  have hsum : Text.Hex.byte? (Text.Hex.digit (sum.toNat / 16)) (Text.Hex.digit sum.toNat) =
      some sum := Text.Hex.byte?_of_digits (.inl rfl) (.inl rfl)
  rw [decode?, hwire, payload?, splitAt?_append hfree]
  simp only [Text.Hex.ofByte, hsum, sum, if_true, Option.bind_some]
  exact ofPayload?_payload c

end Command

end AvrConformance.Link
