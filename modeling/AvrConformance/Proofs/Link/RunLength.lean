import AvrConformance.Proofs.Link.Expansion

/-!
# Run-length encodings

A text has many encodings: of the repeats of a character any may be announced, by one
count or by several in a row, and none need be. Whichever a stub chooses, it is a row of
ASCII without the end mark, and a shortened form of the text (`Encodes.shortens`); so it
is expanded to the text (`Encodes.expand`).
-/

namespace AvrConformance.Link

open RunLength (mark Item Shortens)

/-- The character stands for itself on the wire: it neither announces a count nor
ends a payload. -/
def Ordinary (c : Char) : Prop := c.toNat < 128 ∧ c ≠ '*' ∧ c ≠ '#'

/-- A count is a character that does not end the payload. It announces as many copies as
its code exceeds 29. -/
def IsCount (n : Char) : Prop := 29 ≤ n.toNat ∧ n.toNat < 128 ∧ n ≠ '#'

/-- The second text is an encoding of the first: behind each character that it keeps there
may be counts, and these announce the copies that it leaves out. -/
inductive Encodes : List Char → List Char → Prop
  | nil : Encodes [] []
  | run {c : Char} {text encoded : List Char} (counts : List Char)
      (valid : ∀ n ∈ counts, IsCount n) (others : Encodes text encoded) :
      Encodes (c :: (List.replicate (counts.map fun n => n.toNat - 29).sum c ++ text))
        (c :: (counts.flatMap (fun n => ['*', n]) ++ encoded))

theorem code_ne_mark {c : Char} (hc : Ordinary c) : code c ≠ mark := by
  intro hmark
  have hstar : c = '*' := code_inj hc.1 (by decide) hmark
  exact hc.2.1 hstar

/-- On the wire, counts are items. -/
theorem codes_counts (counts : List Char) :
    codes (counts.flatMap fun n => ['*', n]) =
      ((counts.map code).map Item.count).flatMap Item.bytes := by
  induction counts with
  | nil => rfl
  | cons n counts ih =>
      rw [List.flatMap_cons, codes_append, ih]
      rfl

/-- And they announce the same copies. -/
theorem copies_counts {counts : List Char} (h : ∀ n ∈ counts, IsCount n) :
    (counts.map code).map (fun n => n.toNat - 29) = counts.map fun n => n.toNat - 29 := by
  rw [List.map_map]
  apply List.map_congr_left
  intro n hn
  show (code n).toNat - 29 = n.toNat - 29
  rw [toNat_code (h n hn).2.1]

/-- A character of counts is an asterisk or a count. -/
theorem eq_star_or_isCount {counts : List Char} (h : ∀ n ∈ counts, IsCount n) {d : Char}
    (hd : d ∈ counts.flatMap fun n => ['*', n]) : d = '*' ∨ IsCount d := by
  obtain ⟨n, hn, hmem⟩ := List.mem_flatMap.mp hd
  rcases List.mem_cons.mp hmem with rfl | hmem
  · exact .inl rfl
  · rw [List.mem_singleton.mp hmem]
    exact .inr (h n hn)

namespace Encodes

variable {text encoded : List Char}

theorem refl (text : List Char) : Encodes text text := by
  induction text with
  | nil => exact .nil
  | cons c rest ih => exact .run [] (fun n hn => absurd hn List.not_mem_nil) ih

/-- Whatever holds of the asterisk, of every count and of each character of the text holds of
each character of the encoding. -/
theorem forall_mem {p : Char → Prop} (h : Encodes text encoded) (hstar : p '*')
    (hcount : ∀ n, IsCount n → p n) (htext : ∀ c ∈ text, p c) : ∀ d ∈ encoded, p d := by
  induction h with
  | nil => exact fun d hd => absurd hd List.not_mem_nil
  | @run c text encoded counts valid _ ih =>
      intro d hd
      rcases List.mem_cons.mp hd with rfl | hd
      · exact htext d List.mem_cons_self
      rcases List.mem_append.mp hd with hd | hd
      · rcases eq_star_or_isCount valid hd with rfl | hd
        · exact hstar
        · exact hcount d hd
      · exact ih (fun e he => htext e (List.mem_cons_of_mem c (List.mem_append_right _ he))) d hd

theorem ascii (h : Encodes text encoded) (htext : ∀ c ∈ text, Ordinary c) : Ascii encoded :=
  h.forall_mem (by decide) (fun _ hn => hn.2.1) fun c hc => (htext c hc).1

/-- The end mark does not occur. -/
theorem free (h : Encodes text encoded) (htext : ∀ c ∈ text, Ordinary c) : '#' ∉ encoded := by
  intro hmem
  have hnever : ∀ d ∈ encoded, d ≠ '#' :=
    h.forall_mem (by decide) (fun _ hn => hn.2.2) fun c hc => (htext c hc).2.2
  exact hnever '#' hmem rfl

/-- The bytes of an encoding are those of a shortened form. -/
theorem shortens (h : Encodes text encoded) (htext : ∀ c ∈ text, Ordinary c) :
    ∃ items, Shortens text items ∧ items.flatMap Item.bytes = codes encoded := by
  induction h with
  | nil => exact ⟨[], .nil, rfl⟩
  | @run c text encoded counts valid _ ih =>
      have hc := htext c List.mem_cons_self
      obtain ⟨items, hshort, hbytes⟩ :=
        ih fun d hd => htext d (List.mem_cons_of_mem c (List.mem_append_right _ hd))
      have hleast : ∀ n ∈ counts.map code, 29 ≤ n.toNat := by
        intro n hn
        obtain ⟨d, hd, rfl⟩ := List.mem_map.mp hn
        rw [toNat_code (valid d hd).2.1]
        exact (valid d hd).1
      have hrun := Shortens.run (code_ne_mark hc) (counts.map code) hleast hshort
      rw [copies_counts valid] at hrun
      refine ⟨_, hrun, ?_⟩
      rw [List.flatMap_cons, List.flatMap_append, ← codes_counts, hbytes, codes_cons, codes_append]
      rfl

/-- An encoding is expanded to its text. -/
theorem expand (h : Encodes text encoded) (htext : ∀ c ∈ text, Ordinary c) :
    Reply.expand (String.ofList encoded) = .ok (String.ofList text) := by
  obtain ⟨items, hshort, hbytes⟩ := h.shortens htext
  rw [← textBytes_ofList (h.ascii htext)] at hbytes
  exact RunLength.expand_of_shortens (fun c hc => (htext c hc).1) hshort hbytes

/-- A run that is too long for one count is announced by two. -/
example : Encodes (List.replicate 128 '0') ['0', '*', '~', '*', ';'] :=
  .run ['~', ';'] (by simp [IsCount]) .nil

end Encodes

end AvrConformance.Link
