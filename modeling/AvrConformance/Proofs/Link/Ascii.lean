import AvrConformance.Link.Packet

/-!
# ASCII on the wire

The bytes of a string tell the string (`bytesText?_textBytes`). Nearly all that travels
is ASCII, where a character is one byte, so that the bytes are the characters' codes
(`textBytes_ofList`).
-/

namespace AvrConformance.Link

/-- All characters are of ASCII. -/
def Ascii (text : List Char) : Prop := ∀ c ∈ text, c.toNat < 128

instance (text : List Char) : Decidable (Ascii text) := List.decidableBAll _ text

/-- The byte of a character of ASCII. -/
def code (c : Char) : UInt8 := UInt8.ofNat c.toNat

/-- The bytes of a text of ASCII. -/
def codes (text : List Char) : List UInt8 := text.map code

namespace Ascii

theorem nil : Ascii [] := by
  intro c hc
  exact absurd hc List.not_mem_nil

theorem append {text more : List Char} (h : Ascii text) (h' : Ascii more) :
    Ascii (text ++ more) := by
  intro c hc
  rcases List.mem_append.mp hc with hc | hc
  · exact h c hc
  · exact h' c hc

theorem cons {c : Char} {text : List Char} (hc : c.toNat < 128) (h : Ascii text) :
    Ascii (c :: text) := by
  intro d hd
  rcases List.mem_cons.mp hd with rfl | hd
  · exact hc
  · exact h d hd

theorem tail {c : Char} {text : List Char} (h : Ascii (c :: text)) : Ascii text := by
  intro d hd
  exact h d (List.mem_cons_of_mem c hd)

end Ascii

@[simp] theorem codes_nil : codes [] = [] := rfl

@[simp] theorem codes_cons (c : Char) (text : List Char) :
    codes (c :: text) = code c :: codes text := rfl

theorem codes_append (front back : List Char) :
    codes (front ++ back) = codes front ++ codes back := List.map_append

theorem toNat_code {c : Char} (hc : c.toNat < 128) : (code c).toNat = c.toNat := by
  have hsmall : c.toNat < 256 := by omega
  simp [code, Nat.mod_eq_of_lt hsmall]

theorem ofNat_code {c : Char} (hc : c.toNat < 128) : Char.ofNat (code c).toNat = c := by
  rw [toNat_code hc]
  exact Char.ofNat_toNat c

theorem code_inj {c d : Char} (hc : c.toNat < 128) (hd : d.toNat < 128) (h : code c = code d) :
    c = d := by
  rw [← ofNat_code hc, h, ofNat_code hd]

theorem utf8EncodeChar_of_ascii {c : Char} (hc : c.toNat < 128) :
    String.utf8EncodeChar c = [code c] := by
  have hle : c.val.toNat ≤ 0x7F := by
    show c.toNat ≤ 0x7F
    omega
  rw [String.utf8EncodeChar, if_pos hle]
  rfl

/-- Every character has a byte. -/
theorem exists_mem_utf8EncodeChar (c : Char) : ∃ b, b ∈ String.utf8EncodeChar c := by
  apply List.exists_mem_of_length_pos
  rw [String.length_utf8EncodeChar]
  exact c.utf8Size_pos

/-- The bytes of all other characters are above those of ASCII. -/
theorem high_of_mem_utf8EncodeChar {c : Char} (hc : ¬ c.toNat < 128) :
    ∀ b ∈ String.utf8EncodeChar c, 128 ≤ b.toNat := by
  have hlarge : ¬ c.val.toNat ≤ 0x7F := by
    intro hle
    exact hc (Nat.lt_succ_of_le hle)
  intro b hb
  simp only [String.utf8EncodeChar, if_neg hlarge] at hb
  split at hb
  · simp only [List.mem_cons, List.not_mem_nil, or_false] at hb
    rcases hb with rfl | rfl <;> rw [UInt8.toNat_ofNat'] <;> omega
  split at hb
  · simp only [List.mem_cons, List.not_mem_nil, or_false] at hb
    rcases hb with rfl | rfl | rfl <;> rw [UInt8.toNat_ofNat'] <;> omega
  · simp only [List.mem_cons, List.not_mem_nil, or_false] at hb
    rcases hb with rfl | rfl | rfl | rfl <;> rw [UInt8.toNat_ofNat'] <;> omega

theorem utf8Encode_of_ascii {text : List Char} (h : Ascii text) :
    text.utf8Encode = (codes text).toByteArray := by
  -- one byte for each character, so that encoding is a map after all
  have hflat : text.flatMap String.utf8EncodeChar = codes text := by
    induction text with
    | nil => rfl
    | cons c rest ih =>
        rw [List.flatMap_cons, utf8EncodeChar_of_ascii (h c List.mem_cons_self), ih h.tail]
        rfl
  rw [List.utf8Encode, hflat]

/-- The loop behind the list of a byte array, from any place in it. -/
theorem toList_loop (bytes : ByteArray) (i : Nat) (soFar : List UInt8) :
    ByteArray.toList.loop bytes i soFar = soFar.reverse ++ bytes.data.toList.drop i := by
  fun_induction ByteArray.toList.loop bytes i soFar with
  | case1 i soFar hlt ih =>
      have hi : i < bytes.data.toList.length := hlt
      have hget : bytes.get! i = bytes.data.toList[i] := getElem!_pos bytes.data i hlt
      rw [ih, List.drop_eq_getElem_cons hi, hget]
      simp
  | case2 i soFar hge =>
      have hend : bytes.data.toList.length ≤ i := Nat.le_of_not_lt hge
      rw [List.drop_eq_nil_of_le hend, List.append_nil]

theorem textBytes_eq (text : String) : textBytes text = text.toByteArray.data.toList := by
  rw [textBytes, String.toUTF8_eq_toByteArray, ByteArray.toList, toList_loop]
  rfl

/-- The bytes of a string are those of its characters, one after another. -/
theorem textBytes_eq_flatMap (text : String) :
    textBytes text = text.toList.flatMap String.utf8EncodeChar := by
  rw [textBytes_eq, ← String.ofList_toList (s := text), String.toByteArray_ofList,
    List.utf8Encode, List.data_toByteArray, String.toList_ofList]

/-- The bytes of a string are well-formed and tell the string. -/
theorem bytesText?_textBytes (text : String) : bytesText? (textBytes text) = some text := by
  rw [bytesText?, textBytes_eq]
  show String.fromUTF8? text.toByteArray = some text
  rw [String.fromUTF8?, dif_pos text.isValidUTF8]
  rfl

/-- The bytes of a string of ASCII are its characters' codes. -/
theorem textBytes_ofList {text : List Char} (h : Ascii text) :
    textBytes (String.ofList text) = codes text := by
  rw [textBytes_eq, String.toByteArray_ofList, utf8Encode_of_ascii h, List.data_toByteArray]

/-- Codes of ASCII are well-formed and tell their characters. -/
theorem bytesText?_codes {text : List Char} (h : Ascii text) :
    bytesText? (codes text) = some (String.ofList text) := by
  rw [← textBytes_ofList h]
  exact bytesText?_textBytes (String.ofList text)

theorem textBytes_of_ascii {text : String} (h : Ascii text.toList) :
    textBytes text = codes text.toList := by
  rw [← textBytes_ofList h, String.ofList_toList]

theorem length_textBytes (text : String) : (textBytes text).length = text.utf8ByteSize := by
  rw [textBytes_eq]
  exact String.size_toByteArray

/-- The bytes of a string of ASCII, counted. -/
theorem utf8ByteSize_of_ascii {text : String} (h : Ascii text.toList) :
    text.utf8ByteSize = text.toList.length := by
  rw [← length_textBytes, textBytes_of_ascii h, codes, List.length_map]

theorem utf8ByteSize_ofList {text : List Char} (h : Ascii text) :
    (String.ofList text).utf8ByteSize = text.length := by
  rw [utf8ByteSize_of_ascii (by rwa [String.toList_ofList]), String.toList_ofList]

/-- What only bytes of ASCII have holds of all bytes of a text if it holds of all its
characters. -/
theorem all_textBytes_iff {p : UInt8 → Bool} {q : Char → Bool}
    (hcode : ∀ c : Char, c.toNat < 128 → p (code c) = q c)
    (hp : ∀ b, p b = true → b.toNat < 128) (hq : ∀ c, q c = true → c.toNat < 128)
    (text : String) :
    (textBytes text).all p = true ↔ ∀ c ∈ text.toList, q c = true := by
  rw [List.all_eq_true, textBytes_eq_flatMap]
  constructor
  · intro h c hc
    by_cases hsmall : c.toNat < 128
    · rw [← hcode c hsmall]
      refine h _ (List.mem_flatMap.mpr ⟨c, hc, ?_⟩)
      rw [utf8EncodeChar_of_ascii hsmall]
      exact List.mem_singleton_self _
    · -- a byte of another character would have to be of ASCII
      obtain ⟨b, hb⟩ := exists_mem_utf8EncodeChar c
      have hlow := hp b (h b (List.mem_flatMap.mpr ⟨c, hc, hb⟩))
      have hhigh := high_of_mem_utf8EncodeChar hsmall b hb
      omega
  · intro h b hb
    obtain ⟨c, hc, hb⟩ := List.mem_flatMap.mp hb
    have hsmall := hq c (h c hc)
    rw [utf8EncodeChar_of_ascii hsmall, List.mem_singleton] at hb
    rw [hb, hcode c hsmall]
    exact h c hc

theorem all_ascii_iff (text : String) :
    (textBytes text).all (fun b => b.toNat < 128) = true ↔ Ascii text.toList := by
  rw [all_textBytes_iff (q := fun c => c.toNat < 128)]
  · simp [Ascii]
  · intro c hc
    rw [toNat_code hc]
  · simp
  · simp

end AvrConformance.Link
