import AvrConformance.Proofs.Link.Commands
import AvrConformance.Proofs.Link.Lifetime

/-!
# What stands on the wire

All that a session transmits is a row of acknowledgements and of framed phrases of the
debugging protocol (`Phrase`). No phrase holds a character that structures a packet, so
the row can be told from the characters on the wire (`readWire?_of_sound`), and every
frame is read as the command that a request called for. Acknowledgements answer what
arrives as long as the session is in the mode for it, and no longer (`live_transmits`).
-/

namespace AvrConformance.Link

/-! ## Phrases -/

/-- The payloads of the debugging protocol that a session has a use for. -/
inductive Phrase : List Char → Prop
  | startNoAck : Phrase "QStartNoAckMode".toList
  | lastStop : Phrase ['?']
  | readRegisters : Phrase ['g']
  | resume : Phrase ['c']
  | step : Phrase ['s']
  | detach : Phrase ['D']
  | signal {digits : List Char} (lower : ∀ c ∈ digits, LowerDigit c) (length : digits.length = 2) :
      Phrase ('C' :: digits)
  | writeRegisters {digits : List Char} (lower : ∀ c ∈ digits, LowerDigit c)
      (length : digits.length = 78) : Phrase ('G' :: digits)
  | readMemory {address count : Nat} (located : address < UInt32.size) (least : 1 ≤ count)
      (most : count ≤ 64) :
      Phrase ('m' :: (Nat.toDigits 16 address ++ ',' :: Nat.toDigits 16 count))
  | writeMemory {address count : Nat} {digits : List Char} (located : address < UInt32.size)
      (least : 1 ≤ count) (most : count ≤ 64) (lower : ∀ c ∈ digits, LowerDigit c)
      (length : digits.length = 2 * count) :
      Phrase ('M' :: (Nat.toDigits 16 address ++ ',' :: (Nat.toDigits 16 count ++ ':' :: digits)))

/-- A character that does not structure a packet. -/
def Plain (c : Char) : Prop := c.toNat < 128 ∧ c ≠ '#' ∧ c ≠ '$' ∧ c ≠ '*' ∧ c ≠ '}'

instance (c : Char) : Decidable (Plain c) := inferInstanceAs (Decidable (_ ∧ _))

theorem LowerDigit.plain {c : Char} (h : LowerDigit c) : Plain c := by
  have hbound : c.toNat < 128 := by
    simp only [LowerDigit, Char.le_def, UInt32.le_iff_toNat_le] at h
    show c.val.toNat < 128
    rcases h with ⟨-, h⟩ | ⟨-, h⟩ <;> exact Nat.lt_of_le_of_lt h (by decide)
  refine ⟨hbound, ?_, ?_, ?_, ?_⟩ <;> rintro rfl <;> exact absurd h (by decide)

namespace Phrase

variable {text : List Char}

theorem plain (h : Phrase text) : ∀ c ∈ text, Plain c := by
  have hnumber : ∀ n, ∀ c ∈ Nat.toDigits 16 n, Plain c := fun n c hc =>
    (Text.Hex.of_mem_toDigits Text.Hex.lowerDigit_digitChar hc).plain
  have hfixed : ∀ {word : List Char}, word.all (fun c => decide (Plain c)) = true →
      ∀ c ∈ word, Plain c := fun hall c hc => of_decide_eq_true (List.all_eq_true.mp hall c hc)
  cases h with
  | startNoAck => exact hfixed rfl
  | lastStop => exact hfixed rfl
  | readRegisters => exact hfixed rfl
  | resume => exact hfixed rfl
  | step => exact hfixed rfl
  | detach => exact hfixed rfl
  | signal lower _ =>
      exact List.forall_mem_cons.mpr ⟨by decide, fun c hc => (lower c hc).plain⟩
  | writeRegisters lower _ =>
      exact List.forall_mem_cons.mpr ⟨by decide, fun c hc => (lower c hc).plain⟩
  | readMemory =>
      refine List.forall_mem_cons.mpr ⟨by decide, List.forall_mem_append.mpr ⟨hnumber _, ?_⟩⟩
      exact List.forall_mem_cons.mpr ⟨by decide, hnumber _⟩
  | writeMemory _ _ _ lower _ =>
      refine List.forall_mem_cons.mpr ⟨by decide, List.forall_mem_append.mpr ⟨hnumber _, ?_⟩⟩
      refine List.forall_mem_cons.mpr ⟨by decide, List.forall_mem_append.mpr ⟨hnumber _, ?_⟩⟩
      exact List.forall_mem_cons.mpr ⟨by decide, fun c hc => (lower c hc).plain⟩

/-- The longest phrase writes 64 bytes to an address of eight digits. -/
theorem length_le (h : Phrase text) : text.length ≤ 141 := by
  have haddress : ∀ {n : Nat}, n < UInt32.size → (Nat.toDigits 16 n).length ≤ 8 := fun hn =>
    (Nat.length_toDigits_le_iff (by decide) (by decide)).mpr hn
  have hcount : ∀ {n : Nat}, n ≤ 64 → (Nat.toDigits 16 n).length ≤ 2 := fun hn =>
    (Nat.length_toDigits_le_iff (by decide) (by decide)).mpr (by omega)
  cases h with
  | startNoAck => decide
  | lastStop => decide
  | readRegisters => decide
  | resume => decide
  | step => decide
  | detach => decide
  | signal _ length =>
      rw [List.length_cons, length]
      decide
  | writeRegisters _ length =>
      rw [List.length_cons, length]
      decide
  | readMemory located _ most =>
      have h8 := haddress located
      have h2 := hcount most
      simp only [List.length_cons, List.length_append]
      omega
  | writeMemory located _ most _ length =>
      have h8 := haddress located
      have h2 := hcount most
      simp only [List.length_cons, List.length_append, length]
      omega

end Phrase

/-! ## Commands as phrases -/

namespace Command

/-- A command that moves some bytes, but not too many. -/
def Sound : Command → Prop
  | readMemory _ count => 1 ≤ count ∧ count ≤ maxTransfer
  | writeMemory _ data => 1 ≤ data.length ∧ data.length ≤ maxTransfer
  | _ => True

theorem phrase {c : Command} (h : c.Sound) : Phrase c.payload.toList := by
  have hlength : ∀ bytes : List UInt8,
      (bytes.flatMap Text.Hex.ofByte).length = 2 * bytes.length := fun bytes =>
    (Text.Hex.spells_ofByte bytes).length_eq
  cases c with
  | startNoAck => exact .startNoAck
  | lastStop => exact .lastStop
  | readRegisters => exact .readRegisters
  | step => exact .step
  | detach => exact .detach
  | readMemory address count =>
      have htext : (readMemory address count).payload.toList =
          'm' :: (Nat.toDigits 16 address.toNat ++ ',' :: Nat.toDigits 16 count) := by
        simp [payload, Text.Hex.toList_hexDigits]
      rw [htext]
      exact .readMemory address.toNat_lt h.1 h.2
  | writeMemory address data =>
      have htext : (writeMemory address data).payload.toList =
          'M' :: (Nat.toDigits 16 address.toNat ++ ',' :: (Nat.toDigits 16 data.length ++
            ':' :: data.flatMap Text.Hex.ofByte)) := by
        simp [payload, Text.Hex.toList_hexDigits, Text.Hex.ofBytes]
      rw [htext]
      exact .writeMemory address.toNat_lt h.1 h.2 (fun _ => Text.Hex.lowerDigit_of_mem_ofByte)
        (hlength data)
  | writeRegisters registers =>
      have htext : (writeRegisters registers).payload.toList =
          'G' :: registers.toBytes.flatMap Text.Hex.ofByte := by
        simp [payload, Snapshot.toBlock, Text.Hex.ofBytes]
      rw [htext]
      refine .writeRegisters (fun _ => Text.Hex.lowerDigit_of_mem_ofByte) ?_
      rw [hlength, Snapshot.length_toBytes]
  | resume signal =>
      cases signal with
      | none => exact .resume
      | some signal =>
          have htext : (resume (some signal)).payload.toList =
              'C' :: [signal].flatMap Text.Hex.ofByte := by
            simp [payload, Text.Hex.ofBytes]
          rw [htext]
          exact .signal (fun _ => Text.Hex.lowerDigit_of_mem_ofByte) (hlength [signal])

end Command

/-- What requests call for is never empty and never too much. -/
theorem sound_of_mem_commands {q : Request} {c : Command} (h : c ∈ q.commands) :
    c.Sound ∧ c ≠ .startNoAck := by
  cases q with
  | readMemory address count =>
      obtain ⟨⟨start, size⟩, hpiece, rfl⟩ := List.mem_map.mp h
      obtain ⟨hsome, hmost, -⟩ := mem_pieces hpiece
      exact ⟨⟨hsome, hmost⟩, nofun⟩
  | writeMemory address data =>
      obtain ⟨⟨start, size⟩, hpiece, rfl⟩ := List.mem_map.mp h
      obtain ⟨hsome, hmost, hwithin⟩ := mem_pieces hpiece
      have hsize : ((data.drop start).take size).length = size := by
        rw [List.length_take, List.length_drop]
        omega
      exact ⟨⟨by rw [hsize]; exact hsome, by rw [hsize]; exact hmost⟩, nofun⟩
  | readRegisters => exact List.mem_singleton.mp h ▸ ⟨trivial, nofun⟩
  | writeRegisters registers => exact List.mem_singleton.mp h ▸ ⟨trivial, nofun⟩
  | resume signal => exact List.mem_singleton.mp h ▸ ⟨trivial, nofun⟩
  | step => exact List.mem_singleton.mp h ▸ ⟨trivial, nofun⟩
  | close => exact List.mem_singleton.mp h ▸ ⟨trivial, nofun⟩

/-! ## Reading the wire -/

theorem length_lt_of_splitAt? {mark : Char} {text before behind : List Char}
    (h : splitAt? mark text = some (before, behind)) : behind.length < text.length := by
  induction text generalizing before with
  | nil => cases h
  | cons c rest ih =>
      rw [splitAt?] at h
      split at h
      · cases h
        exact Nat.lt_succ_self _
      · obtain ⟨⟨front, _⟩, hsplit, hparts⟩ := Option.map_eq_some_iff.mp h
        cases hparts
        exact Nat.lt_succ_of_lt (ih hsplit)

/-- The transmissions that the characters on the wire stand for, each read at its place.
The checksum of a frame has to be right, and in lower case. -/
def readWire? (text : List Char) : Option (List Transmission) :=
  match text with
  | [] => some []
  | '+' :: rest => (readWire? rest).map (.ack :: ·)
  | '-' :: rest => (readWire? rest).map (.nak :: ·)
  | '$' :: rest =>
    match _hsplit : splitAt? '#' rest with
    | some (payload, high :: low :: rest) =>
      if [high, low] = Text.Hex.ofByte (checksum (codes payload)) then
        (readWire? rest).map (.packet (String.ofList payload) :: ·)
      else none
    | _ => none
  | _ => none
termination_by text.length
decreasing_by
  · exact Nat.lt_succ_self _
  · exact Nat.lt_succ_self _
  · have hless := length_lt_of_splitAt? _hsplit
    simp only [List.length_cons] at hless ⊢
    omega

/-- A transmission that can be told on the wire. -/
def Transmission.Sound : Transmission → Prop
  | .packet payload => Phrase payload.toList
  | _ => True

/-- On the wire, every character is one byte. -/
theorem ascii_of_sound {ts : List Transmission} (h : ∀ t ∈ ts, t.Sound) :
    Ascii (ts.flatMap fun t => t.text.toList) := by
  have hdigits : ∀ b, Ascii (Text.Hex.ofByte b) := by
    intro b c hc
    rw [Text.Hex.ofByte] at hc
    rcases List.mem_cons.mp hc with rfl | hc
    · exact (Text.Hex.lowerDigit_digit _).plain.1
    · rw [List.mem_singleton.mp hc]
      exact (Text.Hex.lowerDigit_digit _).plain.1
  intro c hc
  obtain ⟨t, ht, hmem⟩ := List.mem_flatMap.mp hc
  have htext : Ascii t.text.toList := by
    cases t with
    | ack => exact .cons (by decide) .nil
    | nak => exact .cons (by decide) .nil
    | packet payload =>
        have hpayload : Ascii payload.toList := fun c hc => (Phrase.plain (h _ ht) c hc).1
        have hframe : (Transmission.packet payload).text.toList = '$' :: (payload.toList ++
            '#' :: Text.Hex.ofByte (checksum (textBytes payload))) := by
          simp [Transmission.text, frame, Text.Hex.ofBytes]
        rw [hframe]
        exact .cons (by decide) (hpayload.append (.cons (by decide) (hdigits _)))
  exact htext c hmem

theorem readWire?_append {t : Transmission} (h : t.Sound) (rest : List Char) :
    readWire? (t.text.toList ++ rest) = (readWire? rest).map (t :: ·) := by
  cases t with
  | ack =>
      show readWire? ('+' :: rest) = _
      rw [readWire?]
  | nak =>
      show readWire? ('-' :: rest) = _
      rw [readWire?]
  | packet payload =>
      have hplain := Phrase.plain h
      have hfree : '#' ∉ payload.toList := fun hmem => (hplain _ hmem).2.1 rfl
      have hcodes : textBytes payload = codes payload.toList :=
        textBytes_of_ascii fun c hc => (hplain c hc).1
      have htext : (Transmission.packet payload).text.toList ++ rest =
          '$' :: (payload.toList ++
            '#' :: (Text.Hex.ofByte (checksum (codes payload.toList)) ++ rest)) := by
        simp [Transmission.text, frame, Text.Hex.ofBytes, hcodes]
      have hfound := splitAt?_append hfree
        (Text.Hex.ofByte (checksum (codes payload.toList)) ++ rest)
      rw [htext, readWire?]
      split
      · rename_i before high low behind hsplit
        obtain ⟨hbefore, hbehind⟩ := Prod.mk.inj (Option.some.inj (hsplit.symm.trans hfound))
        injection hbehind with hhigh hbehind
        injection hbehind with hlow hbehind
        subst hbefore hhigh hlow hbehind
        rw [Text.Hex.ofByte, if_pos rfl, String.ofList_toList]
      · rename_i hnone
        exact absurd hfound (hnone _ _ _ _)

/-- A row of transmissions can be told from the characters on the wire. -/
theorem readWire?_of_sound {ts : List Transmission} (h : ∀ t ∈ ts, t.Sound) :
    readWire? (ts.flatMap fun t => t.text.toList) = some ts := by
  induction ts with
  | nil =>
      rw [List.flatMap_nil, readWire?]
  | cons t ts ih =>
      rw [List.flatMap_cons, readWire?_append (h t List.mem_cons_self),
        ih fun x hx => h x (List.mem_cons_of_mem t hx)]
      rfl

/-! ## Whole sessions -/

variable {π : Type} [Peer π]

/-- When a session is let go, at most a farewell is sent. -/
theorem sent_release (s : Session π) :
    ∃ farewell, s.release.sent.toList = s.sent.toList ++ farewell ∧
      (farewell = [] ∨ farewell = [.packet Command.detach.payload]) := by
  unfold Session.release
  cases s.connected with
  | false => exact ⟨[], (List.append_nil _).symm, .inl rfl⟩
  | true =>
      cases s.poisoned with
      | true => exact ⟨[], (List.append_nil _).symm, .inl rfl⟩
      | false => exact ⟨_, ((Advances.refl s).transmit _).sent, .inr rfl⟩

theorem sound_of_mem_opening {wantNoAck : Bool} {c : Command} (h : c ∈ opening wantNoAck) :
    c.Sound := by
  cases wantNoAck with
  | true =>
      simp only [opening, if_true, List.mem_append, List.mem_singleton] at h
      rcases h with rfl | rfl <;> trivial
  | false =>
      rw [List.mem_singleton.mp h]
      trivial

/-- The mode without acknowledgements is asked for first or never. -/
theorem eq_nil_of_startNoAck {wantNoAck : Bool} {requests : List Request}
    {first later front behind : List Round} {r : Round}
    (hfirst : first.map Round.command <+: opening wantNoAck) (hlater : CalledFor requests later)
    (hsplit : first ++ later = front ++ r :: behind) (hr : r.command = .startNoAck) :
    front = [] ∧ wantNoAck = true := by
  have hnever : ∀ x ∈ later, x.command ≠ .startNoAck := by
    intro x hx
    obtain ⟨q, -, hcommand⟩ := hlater.exists_request x hx
    exact (sound_of_mem_commands hcommand).2
  -- so the round is one of the opening
  have hwithin : ∃ rest, first = front ++ r :: rest := by
    rcases List.append_eq_append_iff.mp hsplit with ⟨between, -, hbehind⟩ | ⟨rest, hfront, hrest⟩
    · exact absurd hr (hnever r (hbehind ▸ List.mem_append_right between List.mem_cons_self))
    · cases rest with
      | nil =>
          rw [List.nil_append] at hrest
          exact absurd hr (hnever r (hrest ▸ List.mem_cons_self))
      | cons x rest =>
          injection hrest with hx _
          exact ⟨rest, hx ▸ hfront⟩
  obtain ⟨rest, rfl⟩ := hwithin
  obtain ⟨unasked, hasked⟩ := hfirst
  rw [List.map_append, List.map_cons, hr] at hasked
  cases wantNoAck with
  | true =>
      match front, hasked with
      | [], _ => exact ⟨rfl, rfl⟩
      | [_], hasked => simp [opening] at hasked
      | _ :: _ :: _, hasked => simp [opening] at hasked
  | false =>
      match front, hasked with
      | [], hasked => simp [opening] at hasked
      | _ :: _, hasked => simp [opening] at hasked

/-- The rounds of a session carry out commands that can be told. -/
theorem sound_of_mem_rounds {wantNoAck : Bool} {requests : List Request} {first later : List Round}
    (hfirst : first.map Round.command <+: opening wantNoAck) (hlater : CalledFor requests later) :
    ∀ r ∈ first ++ later, r.command.Sound := by
  intro r hr
  rcases List.mem_append.mp hr with hr | hr
  · exact sound_of_mem_opening (hfirst.subset (List.mem_map_of_mem hr))
  · obtain ⟨q, -, hcommand⟩ := hlater.exists_request r hr
    exact (sound_of_mem_commands hcommand).1

theorem sound_of_mem_transmissions {rounds : List Round} (h : ∀ r ∈ rounds, r.command.Sound) :
    ∀ t ∈ rounds.flatMap Round.transmissions, t.Sound := by
  intro t ht
  obtain ⟨r, hr, hmem⟩ := List.mem_flatMap.mp ht
  rcases Round.mem_transmissions hmem with rfl | ⟨-, rfl | rfl⟩
  · exact Command.phrase (h r hr)
  · trivial
  · trivial

/-- Without acknowledgements, rounds transmit packets. -/
theorem packet_of_noAck {rounds : List Round} (h : ∀ r ∈ rounds, r.noAck = true) :
    ∀ t ∈ rounds.flatMap Round.transmissions, t ≠ .ack ∧ t ≠ .nak := by
  intro t ht
  obtain ⟨r, hr, hmem⟩ := List.mem_flatMap.mp ht
  rcases Round.mem_transmissions hmem with rfl | ⟨hmode, -⟩
  · exact ⟨nofun, nofun⟩
  · exact absurd ((h r hr).symm.trans hmode) (by decide)

/-- **What a session transmits** from its opening to its release, whatever its peer sends.
Its rounds carry out the commands of the opening and then those that the requests call
for, each in order and as far as it gets; nothing else is sent, up to a farewell. All of
it can be told from the characters on the wire: acknowledgements, and frames of short
phrases of the protocol, each of which is read as the command of its round. The mode
without acknowledgements is asked for first or never. Once the peer has agreed to it,
nothing is acknowledged any more; until then each undamaged packet that is scanned is
acknowledged once. -/
theorem live_transmits (address : String) (incoming : List UInt8) (ending : Ending) (peer : π)
    (wantNoAck : Bool) (requests : List Request) :
    let s₀ := Session.fresh address incoming ending peer
    let s := s₀.live wantNoAck requests
    ∃ first later farewell,
      Rounds s₀ (first ++ later) (s₀.held wantNoAck requests) ∧
      first.map Round.command <+: opening wantNoAck ∧
      CalledFor (s₀.served wantNoAck requests) later ∧
      s.sent.toList = (first ++ later).flatMap Round.transmissions ++ farewell ∧
      (farewell = [] ∨ farewell = [.packet Command.detach.payload]) ∧
      Ascii s.transmitted.toList ∧ readWire? s.transmitted.toList = some s.sent.toList ∧
      (∀ payload, .packet payload ∈ s.sent.toList →
        Phrase payload.toList ∧ (∀ c ∈ payload.toList, Plain c) ∧ payload.length ≤ 141) ∧
      (∀ r ∈ first ++ later,
        Command.decode? (Transmission.packet r.command.payload).text = some r.command) ∧
      ∀ front r behind, first ++ later = front ++ r :: behind →
        (r.command = .startNoAck → front = [] ∧ wantNoAck = true) ∧
        (front.any Round.hushes = true →
          ∀ t ∈ (r :: behind).flatMap Round.transmissions ++ farewell, t ≠ .ack ∧ t ≠ .nak) ∧
        (front.any Round.hushes = false →
          r.transmissions.count .ack = r.arrivals.countP Arrival.verified) := by
  intro s₀ s
  obtain ⟨first, later, hrounds, hfirst, hlater⟩ := exists_rounds_held wantNoAck requests s₀
  obtain ⟨farewell, hsent, hfarewell⟩ := sent_release (s₀.held wantNoAck requests)
  rw [hrounds.sent, ← Session.live_eq] at hsent
  have hphrases : ∀ t ∈ s.sent.toList, t.Sound := by
    rw [hsent]
    refine List.forall_mem_append.mpr
      ⟨sound_of_mem_transmissions (sound_of_mem_rounds hfirst hlater), ?_⟩
    rcases hfarewell with rfl | rfl
    · exact fun t ht => absurd ht List.not_mem_nil
    · exact List.forall_mem_singleton.mpr (Command.phrase (c := .detach) trivial)
  have htext : s.transmitted.toList = s.sent.toList.flatMap fun t => t.text.toList := by
    rw [Session.transmitted, String.toList_join, List.flatMap_map]
  refine ⟨first, later, farewell, hrounds, hfirst, hlater, hsent, hfarewell, ?_, ?_, ?_, ?_, ?_⟩
  · rw [htext]
    exact ascii_of_sound hphrases
  · rw [htext]
    exact readWire?_of_sound hphrases
  · intro payload hmem
    have hphrase : Phrase payload.toList := hphrases _ hmem
    exact ⟨hphrase, hphrase.plain, hphrase.length_le⟩
  · intro r _
    exact Command.decode?_packet r.command
  · intro front r behind hsplit
    refine ⟨eq_nil_of_startNoAck hfirst hlater hsplit, ?_, ?_⟩
    · intro hhushed
      refine List.forall_mem_append.mpr
        ⟨packet_of_noAck (hrounds.noAck_of_hushed hsplit hhushed), ?_⟩
      rcases hfarewell with rfl | rfl
      · exact fun t ht => absurd ht List.not_mem_nil
      · exact List.forall_mem_singleton.mpr ⟨nofun, nofun⟩
    · intro hheard
      obtain ⟨s₁, s₂, htakes⟩ := hrounds.exists_takes_of_mem r
        (hsplit ▸ List.mem_append_right front List.mem_cons_self)
      exact htakes.count_ack ((hrounds.mode hsplit).trans hheard)

end AvrConformance.Link
