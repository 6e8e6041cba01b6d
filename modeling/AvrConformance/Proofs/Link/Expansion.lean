import Mathlib.Algebra.GroupWithZero.Nat
import Mathlib.Logic.ExistsUnique
import AvrConformance.Link.Reply
import AvrConformance.Proofs.Link.Ascii

/-!
# The expansion of runs

A payload with an asterisk is a row of **items**, each of them a byte that stands for
itself, or an asterisk and a byte that is its count; only at the end may an asterisk lack
its count. Every row of bytes is made up in this way, and in no other (`existsUnique_row`).

The row is expanded exactly if it is sound: it opens with a byte that stands for itself,
no count is lacking and none is too small. What it then says is found item by item, a count
adding copies of the character said last (`Item.extend`); every other row is malformed. So
a text comes back from each of its shortened forms, whichever of its repeats are announced
and by however many counts (`expand_rows`).
-/

namespace AvrConformance.Link

/-- Only the asterisk has its byte among those of its encoding. -/
theorem eq_star_of_mem_utf8EncodeChar {c : Char}
    (h : RunLength.mark ∈ String.utf8EncodeChar c) : c = '*' := by
  by_cases hc : c.toNat < 128
  · rw [utf8EncodeChar_of_ascii hc, List.mem_singleton] at h
    have hcode : code '*' = code c := h
    exact (code_inj (by decide) hc hcode).symm
  · have hsmall : RunLength.mark.toNat < 128 := by decide
    exact absurd (high_of_mem_utf8EncodeChar hc _ h) (Nat.not_le.mpr hsmall)

/-- A text whose bytes hold that of an asterisk holds an asterisk. -/
theorem star_mem_of_mark_mem {text : String} (h : RunLength.mark ∈ textBytes text) :
    '*' ∈ text.toList := by
  rw [textBytes_eq_flatMap] at h
  obtain ⟨c, hc, hmark⟩ := List.mem_flatMap.mp h
  rwa [eq_star_of_mem_utf8EncodeChar hmark] at hc

/-- The bytes of a text tell the text. -/
theorem textBytes_inj {text other : String} (h : textBytes text = textBytes other) :
    text = other := by
  have htold := bytesText?_textBytes text
  rw [h, bytesText?_textBytes] at htold
  exact (Option.some.inj htold).symm

namespace RunLength

/-! ## Items -/

/-- A piece of an encoded row. -/
inductive Item where
  /-- A byte that stands for itself. -/
  | literal (b : UInt8) (plain : b ≠ mark)
  /-- An asterisk and the byte that is its count. -/
  | count (n : UInt8)

namespace Item

def bytes : Item → List UInt8
  | literal b _ => [b]
  | count n => [mark, n]

def isLiteral : Item → Bool
  | literal _ _ => true
  | count _ => false

/-- The copies that an item announces. -/
def copies : Item → Nat
  | literal _ _ => 0
  | count n => n.toNat - 29

/-- What is said once an item follows: its character, or copies of the character said last. -/
def extend (said : List Char) : Item → List Char
  | literal b _ => said ++ [Char.ofNat b.toNat]
  | count n =>
    match said.getLast? with
    | some c => said ++ List.replicate (n.toNat - 29) c
    | none => said

end Item

/-- A row of bytes as items, with an asterisk behind them if it is truncated. -/
structure Row where
  items : List Item
  truncated : Bool

namespace Row

def bytes (r : Row) : List UInt8 :=
  r.items.flatMap Item.bytes ++ if r.truncated then [mark] else []

/-- What the items say. -/
def said (r : Row) : List Char := r.items.foldl Item.extend []

/-- A row of which all counts are there and none is too small, and that opens with a byte
that stands for itself. -/
structure Sound (r : Row) : Prop where
  opens : ∃ b plain rest, r.items = .literal b plain :: rest
  complete : r.truncated = false
  least : ∀ n, .count n ∈ r.items → 29 ≤ n.toNat

theorem bytes_literal (b : UInt8) (plain : b ≠ mark) (items : List Item) (truncated : Bool) :
    bytes ⟨.literal b plain :: items, truncated⟩ = b :: bytes ⟨items, truncated⟩ := rfl

theorem bytes_count (n : UInt8) (items : List Item) (truncated : Bool) :
    bytes ⟨.count n :: items, truncated⟩ = mark :: n :: bytes ⟨items, truncated⟩ := rfl

theorem exists_bytes_eq : ∀ bytes : List UInt8, ∃ r : Row, r.bytes = bytes
  | [] => ⟨⟨[], false⟩, rfl⟩
  | [b] => by
      by_cases hb : b = mark
      · subst hb
        exact ⟨⟨[], true⟩, rfl⟩
      · exact ⟨⟨[.literal b hb], false⟩, rfl⟩
  | b :: n :: rest => by
      by_cases hb : b = mark
      · subst hb
        obtain ⟨⟨items, truncated⟩, hrest⟩ := exists_bytes_eq rest
        exact ⟨⟨.count n :: items, truncated⟩, by rw [bytes_count, hrest]⟩
      · obtain ⟨⟨items, truncated⟩, hrest⟩ := exists_bytes_eq (n :: rest)
        exact ⟨⟨.literal b hb :: items, truncated⟩, by rw [bytes_literal, hrest]⟩

/-- An asterisk is followed by its count, unless it is the last byte. -/
theorem bytes_inj {r t : Row} (h : r.bytes = t.bytes) : r = t := by
  obtain ⟨items, truncated⟩ := r
  obtain ⟨others, unfinished⟩ := t
  induction items generalizing others with
  | nil =>
      cases others with
      | nil => cases truncated <;> cases unfinished <;> first | rfl | exact absurd h (by decide)
      | cons first others =>
          -- one byte is left at most, and that is an asterisk
          cases first with
          | literal b plain =>
              rw [bytes_literal] at h
              cases truncated with
              | false => cases h
              | true => exact absurd (List.cons.inj h).1.symm plain
          | count n =>
              rw [bytes_count] at h
              cases truncated <;> cases h
  | cons item items ih =>
      cases item with
      | literal b plain =>
          cases others with
          | nil =>
              rw [bytes_literal] at h
              cases unfinished with
              | false => cases h
              | true => exact absurd (List.cons.inj h).1 plain
          | cons first others =>
              cases first with
              | literal d plain' =>
                  obtain ⟨rfl, hrest⟩ := List.cons.inj h
                  cases ih others hrest
                  rfl
              | count n => exact absurd (List.cons.inj h).1 plain
      | count n =>
          cases others with
          | nil =>
              rw [bytes_count] at h
              cases unfinished <;> cases h
          | cons first others =>
              cases first with
              | literal d plain' => exact absurd (List.cons.inj h).1.symm plain'
              | count m =>
                  obtain ⟨-, hrest⟩ := List.cons.inj h
                  obtain ⟨rfl, hrest⟩ := List.cons.inj hrest
                  cases ih others hrest
                  rfl

end Row

/-- Every row of bytes is made up of items in one way only. -/
theorem existsUnique_row (bytes : List UInt8) : ∃! r : Row, r.bytes = bytes := by
  obtain ⟨r, hr⟩ := Row.exists_bytes_eq bytes
  exact ⟨r, hr, fun t ht => Row.bytes_inj (ht.trans hr.symm)⟩

/-! ## Expansion item by item -/

/-- A byte that announces no count stands for its character. -/
theorem expandBytes_cons (last : Option Char) {b : UInt8} (hb : b ≠ mark) (rest : List UInt8) :
    expandBytes last (b :: rest) =
      (expandBytes (some (Char.ofNat b.toNat)) rest).map (Char.ofNat b.toNat :: ·) := by
  cases rest with
  | nil => simp [expandBytes, hb]
  | cons count rest => rw [expandBytes.eq_def]; simp only [if_neg hb]

/-- A count announces copies of the character before it. -/
theorem expandBytes_mark (c : Char) {count : UInt8} (hcount : 29 ≤ count.toNat)
    (rest : List UInt8) :
    expandBytes (some c) (mark :: count :: rest) =
      (expandBytes (some c) rest).map (List.replicate (count.toNat - 29) c ++ ·) := by
  have hleast : ¬ count.toNat < bias := Nat.not_lt.mpr hcount
  rw [expandBytes.eq_def]
  simp only [if_true, if_neg hleast]
  rfl

/-- The items may follow what is said: a count is not the first of all. -/
def MayFollow (said : List Char) (items : List Item) : Prop :=
  said = [] → ∀ n rest, items ≠ .count n :: rest

theorem mayFollow_of_getLast? {said : List Char} {c : Char} (h : said.getLast? = some c)
    (items : List Item) : MayFollow said items := by
  rintro rfl
  cases h

/-- A count adds copies of the character said last, which stays the same. -/
theorem getLast?_append_replicate {said : List Char} {c : Char} (h : said.getLast? = some c)
    (k : Nat) : (said ++ List.replicate k c).getLast? = some c := by
  cases k with
  | zero => simpa using h
  | succ k => simp [List.getLast?_append, List.getLast?_replicate]

theorem Item.extend_count {said : List Char} {c : Char} (h : said.getLast? = some c) (n : UInt8) :
    Item.extend said (.count n) = said ++ List.replicate (n.toNat - 29) c := by
  simp only [Item.extend, h]

/-- Bytes whose counts are all there and large enough are expanded to what their items say. -/
theorem expandBytes_flatMap {said : List Char} {items : List Item} (hfollow : MayFollow said items)
    (hleast : ∀ n, .count n ∈ items → 29 ≤ n.toNat) :
    ∃ more, expandBytes said.getLast? (items.flatMap Item.bytes) = some more ∧
      items.foldl Item.extend said = said ++ more ∧
      more.length = items.countP Item.isLiteral + (items.map Item.copies).sum := by
  -- the character said last is all that the bytes so far matter for, so what is said is left open
  induction items generalizing said with
  | nil => exact ⟨[], rfl, (List.append_nil said).symm, rfl⟩
  | cons item items ih =>
      have hothers : ∀ n, .count n ∈ items → 29 ≤ n.toNat :=
        fun n hn => hleast n (List.mem_cons_of_mem item hn)
      cases item with
      | literal b plain =>
          have hlast : (said ++ [Char.ofNat b.toNat]).getLast? = some (Char.ofNat b.toNat) :=
            List.getLast?_concat
          obtain ⟨more, hexpand, hsaid, hlength⟩ := ih (mayFollow_of_getLast? hlast items) hothers
          rw [hlast] at hexpand
          refine ⟨Char.ofNat b.toNat :: more, ?_, ?_, ?_⟩
          · rw [List.flatMap_cons, Item.bytes, List.singleton_append, expandBytes_cons _ plain,
              hexpand]
            rfl
          · rw [List.foldl_cons, Item.extend, hsaid, List.append_assoc]
            rfl
          · rw [List.length_cons, hlength]
            simp only [List.countP_cons, Item.isLiteral, if_true, List.map_cons, Item.copies,
              List.sum_cons]
            omega
      | count n =>
          have hn : 29 ≤ n.toNat := hleast n List.mem_cons_self
          have hsome : said ≠ [] := fun hnone => hfollow hnone n items rfl
          obtain ⟨c, hc⟩ := Option.isSome_iff_exists.mp (List.getLast?_isSome.mpr hsome)
          have hlast := getLast?_append_replicate hc (n.toNat - 29)
          obtain ⟨more, hexpand, hsaid, hlength⟩ := ih (mayFollow_of_getLast? hlast items) hothers
          rw [hlast] at hexpand
          refine ⟨List.replicate (n.toNat - 29) c ++ more, ?_, ?_, ?_⟩
          · rw [hc]
            show expandBytes (some c) (mark :: n :: items.flatMap Item.bytes) = _
            rw [expandBytes_mark c hn, hexpand]
            rfl
          · rw [List.foldl_cons, Item.extend_count hc, hsaid, List.append_assoc]
          · rw [List.length_append, List.length_replicate, hlength]
            simp only [List.countP_cons, Item.isLiteral, Bool.false_eq_true, if_false,
              List.map_cons, Item.copies, List.sum_cons]
            omega

/-- Bytes are expanded only if all counts are there and large enough, and a character came
before each. -/
theorem of_expandBytes_eq_some {r : Row} {last : Option Char} {more : List Char}
    (h : expandBytes last r.bytes = some more) :
    r.truncated = false ∧ (∀ n, .count n ∈ r.items → 29 ≤ n.toNat) ∧
      (last = none → ∀ n rest, r.items ≠ .count n :: rest) := by
  obtain ⟨items, truncated⟩ := r
  induction items generalizing last more with
  | nil =>
      cases truncated with
      | false => exact ⟨rfl, fun n hn => absurd hn List.not_mem_nil, nofun⟩
      | true => cases h
  | cons item items ih =>
      cases item with
      | literal b plain =>
          rw [Row.bytes_literal, expandBytes_cons last plain] at h
          obtain ⟨rest, hrest, -⟩ := Option.map_eq_some_iff.mp h
          obtain ⟨hcomplete, hleast, -⟩ := ih hrest
          refine ⟨hcomplete, fun n hn => ?_, nofun⟩
          rcases List.mem_cons.mp hn with hn | hn
          · cases hn
          · exact hleast n hn
      | count n =>
          rw [Row.bytes_count, expandBytes.eq_def] at h
          simp only [if_true] at h
          cases last with
          | none => cases h
          | some c =>
              dsimp only at h
              split at h
              · cases h
              · rename_i hn
                obtain ⟨rest, hrest, -⟩ := Option.map_eq_some_iff.mp h
                obtain ⟨hcomplete, hleast, -⟩ := ih hrest
                refine ⟨hcomplete, fun m hm => ?_, nofun⟩
                rcases List.mem_cons.mp hm with hm | hm
                · cases hm
                  exact Nat.le_of_not_lt hn
                · exact hleast m hm

/-! ## Shortened forms -/

/-- The items are a shortened form of the text: of each character's repeats some are
announced, by any number of counts, and the others stand for themselves. A text with an
asterisk has none, since no byte of an asterisk stands for itself. -/
inductive Shortens : List Char → List Item → Prop
  | nil : Shortens [] []
  | run {c : Char} {text : List Char} {items : List Item} (plain : code c ≠ mark)
      (counts : List UInt8) (least : ∀ n ∈ counts, 29 ≤ n.toNat) (others : Shortens text items) :
      Shortens (c :: (List.replicate (counts.map fun n => n.toNat - 29).sum c ++ text))
        (.literal (code c) plain :: (counts.map .count ++ items))

theorem foldl_extend_counts {said : List Char} {c : Char} (h : said.getLast? = some c)
    (counts : List UInt8) :
    (counts.map Item.count).foldl Item.extend said =
      said ++ List.replicate (counts.map fun n => n.toNat - 29).sum c := by
  induction counts generalizing said with
  | nil => simp
  | cons n counts ih =>
      rw [List.map_cons, List.foldl_cons, Item.extend_count h,
        ih (getLast?_append_replicate h _), List.map_cons, List.sum_cons,
        ← List.replicate_append_replicate, List.append_assoc]

namespace Shortens

variable {text : List Char} {items : List Item}

/-- A shortened form says its text. -/
theorem foldl_extend (h : Shortens text items) (htext : Ascii text) (said : List Char) :
    items.foldl Item.extend said = said ++ text := by
  induction h generalizing said with
  | nil => exact (List.append_nil said).symm
  | @run c text items plain counts _ _ ih =>
      have hc : c.toNat < 128 := htext c List.mem_cons_self
      have hlast : (said ++ [c]).getLast? = some c := List.getLast?_concat
      rw [List.foldl_cons, Item.extend, ofNat_code hc, List.foldl_append,
        foldl_extend_counts hlast, ih fun d hd => htext d ?_]
      · simp only [List.append_assoc, List.cons_append, List.nil_append]
      · exact List.mem_cons_of_mem c (List.mem_append_right _ hd)

theorem least (h : Shortens text items) : ∀ n, .count n ∈ items → 29 ≤ n.toNat := by
  induction h with
  | nil => exact fun n hn => absurd hn List.not_mem_nil
  | run _ counts least _ ih =>
      intro n hn
      rcases List.mem_cons.mp hn with hn | hn
      · cases hn
      rcases List.mem_append.mp hn with hn | hn
      · obtain ⟨m, hm, hsame⟩ := List.mem_map.mp hn
        cases hsame
        exact least n hm
      · exact ih n hn

/-- A form with a count holds an asterisk, and so a form without is the text as it stands. -/
theorem bytes_of_not_mem (h : Shortens text items) (hmark : mark ∉ items.flatMap Item.bytes) :
    items.flatMap Item.bytes = codes text := by
  induction h with
  | nil => rfl
  | @run c text items plain counts _ _ ih =>
      simp only [List.flatMap_cons, List.flatMap_append, List.mem_append, not_or] at hmark
      obtain ⟨-, hcounts, hitems⟩ := hmark
      cases counts with
      | nil =>
          rw [codes_cons, List.flatMap_cons, List.map_nil, List.nil_append, ih hitems]
          rfl
      | cons n counts => exact absurd List.mem_cons_self hcounts

theorem sound (h : Shortens text items) (htext : text ≠ []) : Row.Sound ⟨items, false⟩ := by
  refine ⟨?_, rfl, h.least⟩
  cases h with
  | nil => exact absurd rfl htext
  | run plain counts _ _ => exact ⟨_, plain, _, rfl⟩

end Shortens

/-! ## Whole payloads -/

theorem expand_of_not_mem {text : String} (h : '*' ∉ text.toList) :
    Reply.expand text = .ok text := by
  have hnone : text.toList.contains '*' = false := by simpa using h
  simp only [Reply.expand, expand?, hnone, Bool.false_eq_true, if_false]

/-- A payload with an asterisk is expanded byte by byte. -/
theorem expand_of_mem {text : String} (h : '*' ∈ text.toList) :
    Reply.expand text =
      match expandBytes none (textBytes text) with
      | some said => .ok (String.ofList said)
      | none => .error (.malformed (.runLength text)) := by
  have hsome : text.toList.contains '*' = true := by simpa using h
  simp only [Reply.expand, expand?, hsome, if_true]
  cases expandBytes none (textBytes text) <;> rfl

theorem textBytes_ne_nil {text : String} (h : '*' ∈ text.toList) : textBytes text ≠ [] := by
  intro hnone
  have hempty : text = "" := textBytes_inj (hnone.trans (textBytes_ofList .nil).symm)
  rw [hempty] at h
  exact absurd h (by decide)

/-- A sound row is expanded to what its items say. -/
theorem expand_of_sound {text : String} {r : Row} (hstar : '*' ∈ text.toList)
    (hr : r.bytes = textBytes text) (h : r.Sound) :
    Reply.expand text = .ok (String.ofList r.said) ∧
      r.said.length = r.items.countP Item.isLiteral + (r.items.map Item.copies).sum := by
  obtain ⟨items, truncated⟩ := r
  obtain ⟨⟨b, plain, rest, hitems⟩, hcomplete, hleast⟩ := h
  dsimp only at hitems hcomplete
  have hfollow : MayFollow [] items := by
    intro _ n others hcount
    rw [hitems] at hcount
    cases hcount
  obtain ⟨more, hexpand, hsaid, hlength⟩ := expandBytes_flatMap hfollow hleast
  have hbytes : textBytes text = items.flatMap Item.bytes := by
    rw [← hr, Row.bytes, hcomplete]
    exact List.append_nil _
  have hsame : Row.said ⟨items, truncated⟩ = more := hsaid
  have hrun : expandBytes none (items.flatMap Item.bytes) = some more := hexpand
  rw [expand_of_mem hstar, hbytes, hrun, hsame]
  exact ⟨rfl, hlength⟩

/-- A row that is expanded is sound. -/
theorem sound_of_expandBytes {r : Row} {said : List Char} (hsome : r.bytes ≠ [])
    (h : expandBytes none r.bytes = some said) : r.Sound := by
  obtain ⟨hcomplete, hleast, hopens⟩ := of_expandBytes_eq_some h
  refine ⟨?_, hcomplete, hleast⟩
  obtain ⟨items, truncated⟩ := r
  cases items with
  | nil =>
      dsimp only at hcomplete
      subst hcomplete
      exact absurd rfl hsome
  | cons first rest =>
      cases first with
      | literal b plain => exact ⟨b, plain, rest, rfl⟩
      | count n => exact absurd rfl (hopens rfl n rest)

/-- A row that is not sound is malformed. -/
theorem expand_of_not_sound {text : String} {r : Row} (hstar : '*' ∈ text.toList)
    (hr : r.bytes = textBytes text) (h : ¬ r.Sound) :
    Reply.expand text = .error (.malformed (.runLength text)) := by
  have hsome : r.bytes ≠ [] := hr ▸ textBytes_ne_nil hstar
  rw [expand_of_mem hstar, ← hr]
  cases hrow : expandBytes none r.bytes with
  | none => rfl
  | some said => exact absurd (sound_of_expandBytes hsome hrow) h

/-- A shortened form is expanded to its text, be there a count in it or not. -/
theorem expand_of_shortens {text : String} {plain : List Char} {items : List Item}
    (hascii : Ascii plain) (h : Shortens plain items)
    (hbytes : items.flatMap Item.bytes = textBytes text) :
    Reply.expand text = .ok (String.ofList plain) := by
  by_cases hstar : '*' ∈ text.toList
  · have hsome : plain ≠ [] := by
      rintro rfl
      cases h
      exact textBytes_ne_nil hstar hbytes.symm
    have hrow : Row.bytes ⟨items, false⟩ = textBytes text := (List.append_nil _).trans hbytes
    have hsaid : Row.said ⟨items, false⟩ = plain := h.foldl_extend hascii []
    rw [(expand_of_sound hstar hrow (h.sound hsome)).1, hsaid]
  · have hmark : mark ∉ items.flatMap Item.bytes := by
      rw [hbytes]
      exact fun hmem => hstar (star_mem_of_mark_mem hmem)
    have hcodes := h.bytes_of_not_mem hmark
    rw [hbytes, ← textBytes_ofList hascii] at hcodes
    rw [expand_of_not_mem hstar, textBytes_inj hcodes]

/-- **The expansion of runs.** A payload without an asterisk is taken as it is. One with an
asterisk is a row of items, and is expanded exactly if the row is sound, to what the items
say, which has a character for each byte that stands for itself and as many more as the
counts announce; otherwise it is malformed. So every shortened form of a text of ASCII
without an asterisk is expanded to the text. -/
theorem expand_rows (text : String) :
    ('*' ∉ text.toList → Reply.expand text = .ok text) ∧
    ('*' ∈ text.toList →
      (∃! r : Row, r.bytes = textBytes text) ∧
      ∀ r : Row, r.bytes = textBytes text →
        (∀ out, Reply.expand text = .ok out ↔ r.Sound ∧ out = String.ofList r.said) ∧
        (r.Sound →
          r.said.length = r.items.countP Item.isLiteral + (r.items.map Item.copies).sum) ∧
        (Reply.expand text = .error (.malformed (.runLength text)) ↔ ¬ r.Sound)) ∧
    ∀ plain items, Ascii plain → Shortens plain items →
      items.flatMap Item.bytes = textBytes text →
        Reply.expand text = .ok (String.ofList plain) := by
  refine ⟨expand_of_not_mem, fun hstar => ⟨existsUnique_row _, fun r hr => ?_⟩, ?_⟩
  · by_cases hsound : r.Sound
    · obtain ⟨hexpand, hlength⟩ := expand_of_sound hstar hr hsound
      rw [hexpand]
      refine ⟨fun out => ?_, fun _ => hlength, iff_of_false nofun (not_not_intro hsound)⟩
      rw [Except.ok.injEq]
      exact ⟨fun hout => ⟨hsound, hout.symm⟩, fun hout => hout.2.symm⟩
    · rw [expand_of_not_sound hstar hr hsound]
      refine ⟨fun out => iff_of_false nofun fun h => hsound h.1, fun h => absurd h hsound, ?_⟩
      exact iff_of_true rfl hsound
  · intro plain items hascii hshort hbytes
    exact expand_of_shortens hascii hshort hbytes

/-- Seven repeats by two counts. -/
example : Reply.expand "x* *!y" = .ok "xxxxxxxxy" := by cbv

end RunLength

end AvrConformance.Link
