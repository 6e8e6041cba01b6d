import AvrConformance.Snapshot.Block
import AvrConformance.Proofs.Link.Hex

/-!
# Register blocks there and back

A snapshot is found again in its 39 bytes (`Snapshot.ofBytes?_toBytes`), and any 39 bytes
are those of a snapshot (`Snapshot.toBytes_of_ofBytes?`). A text is therefore read exactly
if it spells the bytes of what it is read as (`Snapshot.ofBlock_eq_ok_iff`). The other texts
are refused for their length, or for the first pair that is no byte
(`Snapshot.ofBlock_eq_badDigit_iff`). All of it together is `Snapshot.block_codec`.
-/

namespace AvrConformance

namespace LittleEndian

theorem word_ofWord (w : UInt16) :
    word (UInt8.ofNat w.toNat) (UInt8.ofNat (w.toNat / 256)) = w := by
  have hw : w.toNat < 65536 := w.toNat_lt
  apply UInt16.toNat_inj.mp
  simp only [word, UInt16.toNat_ofNat', UInt8.toNat_ofNat']
  omega

theorem long_ofLong (w : UInt32) :
    long (UInt8.ofNat w.toNat) (UInt8.ofNat (w.toNat / 256)) (UInt8.ofNat (w.toNat / 65536))
      (UInt8.ofNat (w.toNat / 16777216)) = w := by
  have hw : w.toNat < 4294967296 := w.toNat_lt
  apply UInt32.toNat_inj.mp
  simp only [long, UInt32.toNat_ofNat', UInt8.toNat_ofNat']
  omega

theorem ofWord_word (b₀ b₁ : UInt8) : ofWord (word b₀ b₁) = [b₀, b₁] := by
  have h₀ : b₀.toNat < 256 := b₀.toNat_lt
  have h₁ : b₁.toNat < 256 := b₁.toNat_lt
  simp only [ofWord, word, UInt16.toNat_ofNat', List.cons.injEq, and_true, ← UInt8.toNat_inj,
    UInt8.toNat_ofNat']
  omega

theorem ofLong_long (b₀ b₁ b₂ b₃ : UInt8) : ofLong (long b₀ b₁ b₂ b₃) = [b₀, b₁, b₂, b₃] := by
  have h₀ : b₀.toNat < 256 := b₀.toNat_lt
  have h₁ : b₁.toNat < 256 := b₁.toNat_lt
  have h₂ : b₂.toNat < 256 := b₂.toNat_lt
  have h₃ : b₃.toNat < 256 := b₃.toNat_lt
  simp only [ofLong, long, UInt32.toNat_ofNat', List.cons.injEq, and_true, ← UInt8.toNat_inj,
    UInt8.toNat_ofNat']
  omega

end LittleEndian

namespace Snapshot

theorem length_toBytes (s : Snapshot) : s.toBytes.length = 39 := by
  simp [toBytes, LittleEndian.ofWord, LittleEndian.ofLong]

/-- The working registers come first in a block. -/
theorem getElem_toBytes (s : Snapshot) (n : Fin 32) (h : n.val < s.toBytes.length) :
    s.toBytes[n.val] = s.r[n] := by
  have hn : n.val < s.r.toList.length := by simp
  simp only [toBytes, List.append_assoc]
  rw [List.getElem_append_left hn]
  simp

/-- The other registers come after them. -/
theorem getElem_toBytes_add (s : Snapshot) (n : Nat) (h : 32 + n < s.toBytes.length)
    (h' : n < ([s.sreg] ++ LittleEndian.ofWord s.sp ++ LittleEndian.ofLong s.pc).length) :
    s.toBytes[32 + n] =
      ([s.sreg] ++ LittleEndian.ofWord s.sp ++ LittleEndian.ofLong s.pc)[n] := by
  have hr : s.r.toList.length = 32 := by simp
  simp only [toBytes, List.append_assoc]
  rw [List.getElem_append_right (by omega)]
  simp only [hr, Nat.add_sub_cancel_left]

/-- A snapshot is found again in its bytes. -/
theorem ofBytes?_toBytes (s : Snapshot) : ofBytes? s.toBytes = some s := by
  have hlength := length_toBytes s
  have hr : Vector.ofFn (fun n : Fin 32 => s.toBytes[n.val]) = s.r := by
    apply Vector.ext
    intro n hn
    rw [Vector.getElem_ofFn]
    exact getElem_toBytes s ⟨n, hn⟩ (by omega)
  have hrest := getElem_toBytes_add s
  have htail : ([s.sreg] ++ LittleEndian.ofWord s.sp ++ LittleEndian.ofLong s.pc).length = 7 :=
    rfl
  rw [ofBytes?, dif_pos hlength, hr]
  -- the offsets within the block at which the three other registers begin
  have h32 : s.toBytes[32] = s.sreg := hrest 0 (by omega) (by omega)
  have h33 : s.toBytes[33] = UInt8.ofNat s.sp.toNat := hrest 1 (by omega) (by omega)
  have h34 : s.toBytes[34] = UInt8.ofNat (s.sp.toNat / 256) := hrest 2 (by omega) (by omega)
  have h35 : s.toBytes[35] = UInt8.ofNat s.pc.toNat := hrest 3 (by omega) (by omega)
  have h36 : s.toBytes[36] = UInt8.ofNat (s.pc.toNat / 256) := hrest 4 (by omega) (by omega)
  have h37 : s.toBytes[37] = UInt8.ofNat (s.pc.toNat / 65536) := hrest 5 (by omega) (by omega)
  have h38 : s.toBytes[38] = UInt8.ofNat (s.pc.toNat / 16777216) :=
    hrest 6 (by omega) (by omega)
  simp only [h32, h33, h34, h35, h36, h37, h38, LittleEndian.word_ofWord,
    LittleEndian.long_ofLong]

/-- Any bytes that make a snapshot are found again in it. -/
theorem toBytes_of_ofBytes? {bytes : List UInt8} {s : Snapshot} (h : ofBytes? bytes = some s) :
    s.toBytes = bytes := by
  rw [ofBytes?] at h
  split at h
  next hlength =>
    have hs := Option.some.inj h
    subst hs
    apply List.ext_getElem (by rw [length_toBytes, hlength])
    intro n hn hn'
    rw [length_toBytes] at hn
    by_cases hworking : n < 32
    · rw [getElem_toBytes _ ⟨n, hworking⟩]
      exact Vector.getElem_ofFn hworking
    · -- the three other registers, by their offsets
      obtain ⟨k, rfl⟩ := Nat.exists_eq_add_of_le (Nat.le_of_not_lt hworking)
      have hk : k = 0 ∨ k = 1 ∨ k = 2 ∨ k = 3 ∨ k = 4 ∨ k = 5 ∨ k = 6 := by omega
      rw [getElem_toBytes_add _ k (by rw [length_toBytes]; omega) (by show k < 7; omega)]
      simp only [LittleEndian.ofWord_word, LittleEndian.ofLong_long]
      rcases hk with rfl | rfl | rfl | rfl | rfl | rfl | rfl <;> rfl
  next => cases h

/-- There is a snapshot for any 39 bytes. -/
theorem exists_toBytes_eq {bytes : List UInt8} (h : bytes.length = 39) :
    ∃ s : Snapshot, s.toBytes = bytes := by
  obtain ⟨s, hs⟩ : ∃ s, ofBytes? bytes = some s := by
    rw [ofBytes?, dif_pos h]
    exact ⟨_, rfl⟩
  exact ⟨s, toBytes_of_ofBytes? hs⟩

/-- The bytes of a block as numbers: the working registers, the status register, and the
stack pointer and the program counter from the low byte on. -/
def layout (s : Snapshot) : List Nat :=
  s.r.toList.map UInt8.toNat ++
    [s.sreg.toNat, s.sp.toNat % 256, s.sp.toNat / 256, s.pc.toNat % 256,
      s.pc.toNat / 256 % 256, s.pc.toNat / 65536 % 256, s.pc.toNat / 16777216]

theorem toBytes_map_toNat (s : Snapshot) : s.toBytes.map UInt8.toNat = s.layout := by
  have hsp : s.sp.toNat < 65536 := s.sp.toNat_lt
  have hpc : s.pc.toNat < 4294967296 := s.pc.toNat_lt
  simp only [toBytes, layout, LittleEndian.ofWord, LittleEndian.ofLong, List.map_append,
    List.append_assoc, List.append_cancel_left_eq, List.map_cons, List.map_nil,
    List.cons_append, List.nil_append, UInt8.toNat_ofNat',
    List.cons.injEq, and_true, true_and]
  omega

open Text.Hex (Spells)

/-- The model's own block spells the snapshot's bytes. -/
theorem toList_toBlock (s : Snapshot) : s.toBlock.toList = s.toBytes.flatMap Text.Hex.ofByte :=
  String.toList_ofList

/-! ## What is read -/

/-- The text has the length of a block, and all its characters are of ASCII. -/
def Sized (text : String) : Prop := text.utf8ByteSize = blockDigits ∧ Link.Ascii text.toList

/-- A text passes the first check if it is sized. -/
theorem sized_iff {text : String} :
    Sized text ↔ ¬ (text.utf8ByteSize ≠ blockDigits ∨
      text.toList.any (fun c => 128 ≤ c.toNat) = true) := by
  simp [Sized, Link.Ascii]

theorem Sized.length_eq {text : String} (h : Sized text) : text.toList.length = 78 := by
  rw [← Link.utf8ByteSize_of_ascii h.2, h.1]
  rfl

/-- Digits are of ASCII, so as many as a block has are sized. -/
theorem sized_of_digits {text : List Char} (hlength : text.length = 78)
    (hdigits : ∀ c ∈ text, Text.Hex.isDigit c = true) : Sized (String.ofList text) := by
  have hascii : Link.Ascii text := fun c hc => (Text.Hex.char_of_isDigit (hdigits c hc)).1
  rw [Sized, String.toList_ofList, Link.utf8ByteSize_ofList hascii, hlength]
  exact ⟨rfl, hascii⟩

/-- A text passes the second check if all its characters are digits. -/
theorem findIdx?_eq_none_iff_digits {text : List Char} :
    text.findIdx? (fun c => !Text.Hex.isDigit c) = none ↔
      ∀ c ∈ text, Text.Hex.isDigit c = true := by
  simp [List.findIdx?_eq_none_iff]

/-- A snapshot is found again in any spelling of its bytes. -/
theorem ofBlock_of_spells {s : Snapshot} {text : List Char} (h : Spells s.toBytes text) :
    ofBlock (String.ofList text) = .ok s := by
  have hlength : text.length = 78 := by rw [h.length_eq, length_toBytes]
  have hdigits := findIdx?_eq_none_iff_digits.mpr h.isDigit
  have hbytes : (Text.Hex.bytes? text).bind ofBytes? = some s := by
    rw [h.bytes?]
    exact ofBytes?_toBytes s
  rw [ofBlock, if_neg (sized_iff.mp (sized_of_digits hlength h.isDigit)), String.toList_ofList,
    hdigits]
  simp only [hbytes]

/-- A text is read as a snapshot if it spells the snapshot's bytes. -/
theorem ofBlock_eq_ok_iff {s : Snapshot} {text : String} :
    ofBlock text = .ok s ↔ Spells s.toBytes text.toList := by
  constructor
  · intro h
    unfold ofBlock at h
    split at h
    · cases h
    split at h
    · cases h
    split at h
    next t hbytes =>
      obtain ⟨bytes, hread, hmade⟩ := Option.bind_eq_some_iff.mp hbytes
      cases h
      rw [toBytes_of_ofBytes? hmade]
      exact Text.Hex.bytes?_eq_some_iff.mp hread
    next => cases h
  · intro h
    have hread := ofBlock_of_spells h
    rwa [String.ofList_toList] at hread

/-- That is, if its lowercase is the model's own block. -/
theorem ofBlock_eq_ok_iff_toLower {s : Snapshot} {text : String} :
    ofBlock text = .ok s ↔ text.toLower = s.toBlock := by
  rw [ofBlock_eq_ok_iff, Text.Hex.spells_iff_ofBytes]
  exact eq_comm

/-- As many digits as a block has are always read. -/
theorem exists_ofBlock_iff {text : String} :
    (∃ s, ofBlock text = .ok s) ↔
      text.toList.length = 78 ∧ ∀ c ∈ text.toList, Text.Hex.isDigit c = true := by
  constructor
  · rintro ⟨s, hs⟩
    have h := ofBlock_eq_ok_iff.mp hs
    refine ⟨?_, h.isDigit⟩
    rw [h.length_eq, length_toBytes]
  · rintro ⟨hlength, hdigits⟩
    obtain ⟨bytes, hspells⟩ := Text.Hex.exists_spells (by rw [hlength]) hdigits
    have hcount : bytes.length = 39 := by
      have := hspells.length_eq
      omega
    obtain ⟨s, rfl⟩ := exists_toBytes_eq hcount
    exact ⟨s, ofBlock_eq_ok_iff.mpr hspells⟩

/-! ## What is refused -/

/-- The first pair of characters that are not both digits starts at this offset. -/
def FirstBadPair (text : List Char) (offset : Nat) : Prop :=
  offset % 2 = 0 ∧ (∀ c ∈ text.take offset, Text.Hex.Digit c) ∧
    ∃ c ∈ (text.drop offset).take 2, ¬ Text.Hex.Digit c

/-- It is the pair with the first character in it that is no digit. -/
theorem firstBadPair_iff {text : List Char} {offset : Nat} :
    FirstBadPair text offset ↔
      ∃ k, text.findIdx? (fun c => !Text.Hex.isDigit c) = some k ∧ k / 2 * 2 = offset := by
  simp only [FirstBadPair, ← Text.Hex.isDigit_iff]
  constructor
  · rintro ⟨heven, hbefore, c, hc, hbad⟩
    obtain ⟨i, hi, rfl⟩ := List.mem_take_iff_getElem.mp hc
    have hend : offset + i < text.length := by
      rw [List.length_drop] at hi
      omega
    rw [List.getElem_drop] at hbad
    cases hfind : text.findIdx? (fun c => !Text.Hex.isDigit c) with
    | none =>
        exact absurd (findIdx?_eq_none_iff_digits.mp hfind _ (List.getElem_mem hend)) hbad
    | some k =>
        obtain ⟨hk, hkbad, hkbefore⟩ := List.findIdx?_eq_some_iff_getElem.mp hfind
        -- the first one is not before the pair, nor behind the one found in it
        have hfrom : offset ≤ k := by
          refine Nat.le_of_not_lt fun hlt => ?_
          have hgood := hbefore text[k] (List.mem_take_iff_getElem.mpr ⟨k, by omega, rfl⟩)
          rw [hgood] at hkbad
          cases hkbad
        have hto : k ≤ offset + i := by
          refine Nat.le_of_not_lt fun hlt => ?_
          exact hkbefore (offset + i) hlt (by simpa using hbad)
        exact ⟨k, rfl, by omega⟩
  · rintro ⟨k, hfind, rfl⟩
    obtain ⟨hk, hbad, hbefore⟩ := List.findIdx?_eq_some_iff_getElem.mp hfind
    have hsum : k / 2 * 2 + k % 2 = k := by omega
    refine ⟨by omega, ?_, text[k], ?_, by simpa using hbad⟩
    · intro c hc
      obtain ⟨j, hj, rfl⟩ := List.mem_take_iff_getElem.mp hc
      have hgood := hbefore j (by omega)
      simpa using hgood
    · refine List.mem_take_iff_getElem.mpr ⟨k % 2, ?_, ?_⟩
      · rw [List.length_drop]
        omega
      · simp only [List.getElem_drop, hsum]

/-- A text that is not sized is refused for it, and no other one is refused for its length. -/
theorem ofBlock_eq_length_iff {text : String} {n : Nat} :
    ofBlock text = .error (.length n) ↔ n = text.utf8ByteSize ∧ ¬ Sized text := by
  by_cases hsized : Sized text
  · refine iff_of_false ?_ fun h => h.2 hsized
    intro h
    cases hfind : text.toList.findIdx? (fun c => !Text.Hex.isDigit c) with
    | none =>
        obtain ⟨s, hs⟩ := exists_ofBlock_iff.mpr
          ⟨hsized.length_eq, findIdx?_eq_none_iff_digits.mp hfind⟩
        rw [hs] at h
        cases h
    | some k =>
        rw [ofBlock, if_neg (sized_iff.mp hsized), hfind] at h
        cases h
  · have hrefused : ofBlock text = .error (.length text.utf8ByteSize) :=
      if_pos (Decidable.not_not.mp (mt sized_iff.mpr hsized))
    rw [hrefused]
    simp only [Except.error.injEq, BlockError.length.injEq, hsized, not_false_eq_true, and_true]
    exact eq_comm

/-- A sized text is refused for its first bad pair. -/
theorem ofBlock_eq_badDigit_iff {text : String} {offset : Nat} :
    ofBlock text = .error (.badDigit offset) ↔
      Sized text ∧ FirstBadPair text.toList offset := by
  rw [firstBadPair_iff]
  constructor
  · intro h
    unfold ofBlock at h
    split at h
    · cases h
    next hsized =>
      refine ⟨sized_iff.mpr hsized, ?_⟩
      split at h
      next k hfind =>
        cases h
        exact ⟨k, hfind, rfl⟩
      next =>
        split at h <;> cases h
  · rintro ⟨hsized, k, hfind, rfl⟩
    rw [ofBlock, if_neg (sized_iff.mp hsized), hfind]

/-- **The register block.** The model's own block of a snapshot is read as that snapshot;
it is 78 lowercase digits, two for each byte of its layout, the higher one first. A text is
read exactly if it is 78 digits of either case, as the snapshot whose own block is its
lowercase, and so is whatever other text has the same lowercase and no other one. A text
that has not 78 bytes, or has characters beyond ASCII, is refused with its length in bytes,
and of the texts that are left, one with a character that is no digit is refused with the
offset of the first pair that holds one. -/
theorem block_codec :
    (∀ s : Snapshot, ofBlock s.toBlock = .ok s ∧
      s.toBlock.toList =
        s.layout.flatMap (fun byte => [Nat.digitChar (byte / 16), Nat.digitChar (byte % 16)]) ∧
      s.toBlock.length = 78 ∧ ∀ c ∈ s.toBlock.toList, Link.LowerDigit c) ∧
    ∀ text : String,
      ((∃ s, ofBlock text = .ok s) ↔
        text.length = 78 ∧ ∀ c ∈ text.toList, Text.Hex.Digit c) ∧
      (∀ s, ofBlock text = .ok s →
        s.toBlock = text.toLower ∧
          ∀ other, ofBlock other = .ok s ↔ other.toLower = text.toLower) ∧
      (∀ n, ofBlock text = .error (.length n) ↔
        n = text.utf8ByteSize ∧
          ¬ (text.utf8ByteSize = 78 ∧ ∀ c ∈ text.toList, c.toNat < 128)) ∧
      ∀ offset, ofBlock text = .error (.badDigit offset) ↔
        (text.utf8ByteSize = 78 ∧ ∀ c ∈ text.toList, c.toNat < 128) ∧
          FirstBadPair text.toList offset := by
  refine ⟨fun s => ?_, fun text => ⟨?_, ?_, fun n => ofBlock_eq_length_iff,
    fun offset => ofBlock_eq_badDigit_iff⟩⟩
  · have hspells : Spells s.toBytes s.toBlock.toList := by
      rw [toList_toBlock]
      exact Text.Hex.spells_ofByte s.toBytes
    refine ⟨ofBlock_eq_ok_iff.mpr hspells, ?_, ?_, ?_⟩
    · rw [toList_toBlock, ← toBytes_map_toNat, List.flatMap_map]
      simp only [← Text.Hex.ofByte_eq]
    · rw [← String.length_toList, hspells.length_eq, length_toBytes]
    · intro c hc
      rw [toList_toBlock] at hc
      exact Text.Hex.lowerDigit_of_mem_ofByte hc
  · rw [exists_ofBlock_iff, String.length_toList]
    simp only [Text.Hex.isDigit_iff]
  · intro s hs
    have hlower := ofBlock_eq_ok_iff_toLower.mp hs
    refine ⟨hlower.symm, fun other => ?_⟩
    rw [ofBlock_eq_ok_iff_toLower, hlower]

end Snapshot

end AvrConformance
