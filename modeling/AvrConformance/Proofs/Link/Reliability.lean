import AvrConformance.Proofs.Link.Exchange
import AvrConformance.Proofs.Link.Traffic

/-!
# Exchanges over a noisy stream

A peer need not be a stub for an exchange to come to its end. It is enough that the
stream has the **course** of one: the command is refused at most twice and then accepted,
by an acknowledgement or by the start of the reply; the reply arrives damaged at most
twice and then undamaged; and between these come bytes that mean nothing there. Then the
exchange yields the reply, answers each event on the stream by the transmission due to
it, and reads the course to its last byte and no further (`exchange_reliable`). So one
exchange after another finds its own course on the stream.
-/

namespace AvrConformance.Link

/-! ## Courses -/

/-- Bytes that come before an acknowledgement. -/
abbrev Hiss : Type := { bytes : List UInt8 // Noise bytes }

/-- Bytes that come before a packet. -/
abbrev Gap : Type := { bytes : List UInt8 // packetStart ∉ bytes }

/-- A reply that fits into a packet, and the digits of its checksum. -/
structure Good where
  reply : String
  free : packetEnd ∉ textBytes reply
  short : (textBytes reply).length ≤ packetLimit
  digits : Trailer (checksum (textBytes reply))

def Good.bytes (g : Good) : List UInt8 :=
  packet (textBytes g.reply) g.digits.high g.digits.low

/-- The refusals of a command, with what comes before each. -/
def refusing (refusals : List Hiss) : List UInt8 := refusals.flatMap fun hiss => hiss.1 ++ [0x2D]

/-- Damaged packets, with what comes behind each. -/
def garbling (garbled : List (Garbled × Gap)) : List UInt8 :=
  garbled.flatMap fun (g, gap) => packet g.payload g.high g.low ++ gap.1

/-- The course of an exchange with acknowledgements. -/
structure Course where
  refusals : List Hiss
  hiss : Hiss
  /-- What comes behind the acknowledgement, if there is one. -/
  opening : Option Gap
  garbled : List (Garbled × Gap)
  good : Good
  fewRefusals : refusals.length ≤ 2
  fewGarbled : garbled.length ≤ 2

namespace Course

/-- The bytes from the refusals to the acknowledgement. -/
def acceptance (c : Course) : List UInt8 :=
  match c.opening with
  | some _ => c.hiss.1 ++ [0x2B]
  | none => c.hiss.1

/-- The bytes from the acknowledgement to the first packet. -/
def gap (c : Course) : List UInt8 :=
  match c.opening with
  | some gap => gap.1
  | none => []

def bytes (c : Course) : List UInt8 :=
  refusing c.refusals ++ c.acceptance ++ (c.gap ++ (garbling c.garbled ++ c.good.bytes))

/-- What is transmitted: the command again after each refusal, a call for the reply after
each damaged packet, and an acknowledgement. -/
def transmissions (c : Course) (payload : String) : List Transmission :=
  List.replicate (c.refusals.length + 1) (.packet payload) ++
    (List.replicate c.garbled.length .nak ++ [.ack])

theorem not_mem_gap (c : Course) : packetStart ∉ c.gap := by
  unfold gap
  cases c.opening with
  | none => exact List.not_mem_nil
  | some gap => exact gap.2

theorem starts (garbled : List (Garbled × Gap)) (good : Good) :
    ∃ rest, garbling garbled ++ good.bytes = packetStart :: rest := by
  cases garbled with
  | nil => exact ⟨_, rfl⟩
  | cons first garbled => exact ⟨_, rfl⟩

/-- The start of the reply is as good as an acknowledgement. -/
theorem takeAck_acceptance (c : Course) (more : List UInt8) :
    takeAck (c.acceptance ++ (c.gap ++ (garbling c.garbled ++ c.good.bytes) ++ more)) =
      some (true, c.gap ++ (garbling c.garbled ++ c.good.bytes) ++ more) := by
  unfold acceptance gap
  cases c.opening with
  | none =>
      obtain ⟨rest, hstarts⟩ := starts c.garbled c.good
      rw [hstarts]
      exact takeAck_noise c.hiss.2 _
  | some gap =>
      rw [List.append_assoc c.hiss.1]
      exact takeAck_noise c.hiss.2 _

end Course

/-- What a peer may send during an exchange, by whether acknowledgements are done without:
the course of the exchange, or only the reply. -/
inductive Passage : Bool → Type where
  | course (c : Course) : Passage false
  | reply (gap : Gap) (good : Good) : Passage true

namespace Passage

variable {noAck : Bool}

def bytes : Passage noAck → List UInt8
  | course c => c.bytes
  | reply gap good => gap.1 ++ good.bytes

def text : Passage noAck → String
  | course c => c.good.reply
  | reply _ good => good.reply

def transmissions (payload : String) : Passage noAck → List Transmission
  | course c => c.transmissions payload
  | reply _ _ => [.packet payload]

end Passage

namespace Exchange

variable {π : Type} [Peer π] {s : Session π}

/-! ## Delivery -/

/-- What a peer sends in reaction comes behind all that is read. -/
theorem incoming_transmit (t : Transmission) {read rest : List UInt8}
    (hs : s.incoming = read ++ rest) :
    (s.transmit t).incoming = read ++ (rest ++ (reactions s.peer [t]).1) := by
  have hsent : (s.transmit t).incoming = s.incoming ++ (reactions s.peer [t]).1 :=
    ((Advances.refl s).transmit t).incoming_eq rfl
  rw [hsent, hs, List.append_assoc]

/-- A command is sent again after each refusal, and the bytes are read up to its acceptance. -/
theorem conduct_deliver_course (payload : String) {left : Nat} (hmode : s.noAck = false)
    {refusals : List Hiss} (hfew : refusals.length < left) {acceptance rest : List UInt8}
    (hack : ∀ more, takeAck (acceptance ++ (rest ++ more)) = some (true, rest ++ more))
    (hs : s.incoming = refusing refusals ++ (acceptance ++ rest)) :
    ∃ s', (deliver payload left).conduct s = (.ok (), s') ∧
      Advances s (List.replicate (refusals.length + 1) (.packet payload))
        (refusing refusals ++ acceptance) s' := by
  let t : Transmission := .packet payload
  -- by induction on the refusals, each of which costs an attempt
  induction refusals generalizing s left rest with
  | nil =>
      obtain ⟨left, rfl⟩ := Nat.exists_eq_add_one_of_ne_zero (Nat.ne_zero_of_lt hfew)
      let fresh := (reactions s.peer [t]).1
      have hincoming : (s.transmit t).incoming = acceptance ++ (rest ++ fresh) :=
        incoming_transmit t hs
      have haccepted := hack fresh
      rw [← hincoming] at haccepted
      refine ⟨_, conduct_deliver_accepted payload left hmode haccepted, ?_⟩
      exact ((Advances.refl s).transmit t).take hincoming
  | cons hiss refusals ih =>
      obtain ⟨left, rfl⟩ := Nat.exists_eq_add_one_of_ne_zero (Nat.ne_zero_of_lt hfew)
      let fresh := (reactions s.peer [t]).1
      let unread := refusing refusals ++ (acceptance ++ (rest ++ fresh))
      have hsplit : s.incoming =
          hiss.1 ++ [0x2D] ++ (refusing refusals ++ (acceptance ++ rest)) := by
        rw [hs, refusing, List.flatMap_cons, List.append_assoc]
        rfl
      have hincoming : (s.transmit t).incoming = hiss.1 ++ [0x2D] ++ unread := by
        rw [incoming_transmit t hsplit]
        simp only [unread, fresh, List.append_assoc]
      have hrefused : takeAck (s.transmit t).incoming = some (false, unread) := by
        rw [hincoming, List.append_assoc]
        exact takeAck_noise hiss.2 _
      obtain ⟨notes, hagain⟩ := conduct_deliver_refused payload left hmode hrefused
      let again : Session π := { s.transmit t with incoming := unread, notes }
      have hadvances : Advances s [t] (hiss.1 ++ [0x2D]) again :=
        (((Advances.refl s).transmit t).take hincoming).withNotes notes
      obtain ⟨s', hrest, hlater⟩ := ih (s := again) hmode (Nat.lt_of_succ_lt_succ hfew)
        (fun more => by rw [List.append_assoc]; exact hack _) rfl
      refine ⟨s', hagain.trans hrest, ?_⟩
      have hall := hadvances.trans hlater
      rw [← List.append_assoc] at hall
      exact hall

/-! ## Receipt -/

theorem takePacket_good (good : Good) {gap : List UInt8} (hgap : packetStart ∉ gap)
    (rest : List UInt8) :
    takePacket (gap ++ (good.bytes ++ rest)) =
      (.packet (textBytes good.reply) (checksum (textBytes good.reply)), rest) :=
  takePacket_gap_packet hgap good.free good.short good.digits.highDigit good.digits.lowDigit rest

/-- A reply is asked for again after each damaged packet, and acknowledged, and the bytes
are read up to its end. -/
theorem conduct_receive_course {left : Nat} (hmode : s.noAck = false)
    {garbled : List (Garbled × Gap)} (hfew : garbled.length < left) (good : Good)
    {gap rest : List UInt8} (hgap : packetStart ∉ gap)
    (hs : s.incoming = gap ++ (garbling garbled ++ good.bytes) ++ rest) :
    ∃ s', (receive left).conduct s = (.ok good.reply, s') ∧
      Advances s (List.replicate garbled.length .nak ++ [.ack])
        (gap ++ (garbling garbled ++ good.bytes)) s' := by
  -- by induction on the damaged packets, each of which costs an attempt
  induction garbled generalizing s left gap rest with
  | nil =>
      obtain ⟨left, rfl⟩ := Nat.exists_eq_add_one_of_ne_zero (Nat.ne_zero_of_lt hfew)
      have hpacket := takePacket_good good hgap rest
      rw [← List.append_assoc] at hpacket
      have hgood := conduct_receive_good left (bytesText?_textBytes good.reply)
        ((congrArg takePacket hs).trans hpacket)
      rw [if_neg (by rw [hmode]; decide)] at hgood
      exact ⟨_, hgood, ((Advances.refl s).take hs).transmit .ack⟩
  | cons first garbled ih =>
      obtain ⟨left, rfl⟩ := Nat.exists_eq_add_one_of_ne_zero (Nat.ne_zero_of_lt hfew)
      obtain ⟨g, after⟩ := first
      let unread := after.1 ++ (garbling garbled ++ good.bytes) ++ rest
      have hsplit : s.incoming = gap ++ packet g.payload g.high g.low ++ unread := by
        rw [hs, garbling, List.flatMap_cons]
        simp only [unread, garbling, List.append_assoc]
      have hpacket : takePacket s.incoming = (.packet g.payload g.sum, unread) := by
        rw [hsplit, List.append_assoc]
        exact takePacket_gap_packet hgap g.free g.short g.highDigit g.lowDigit unread
      obtain ⟨notes, hagain⟩ := conduct_receive_garbled left hmode g.wrong hpacket
      let again : Session π := Session.transmit .nak { s with incoming := unread, notes }
      have hadvances : Advances s [.nak] (gap ++ packet g.payload g.high g.low) again :=
        (((Advances.refl s).take hsplit).withNotes notes).transmit .nak
      have hincoming : again.incoming = _ := hadvances.incoming_eq hsplit
      rw [List.append_assoc] at hincoming
      obtain ⟨s', hrest, hlater⟩ :=
        ih (s := again) hmode (Nat.lt_of_succ_lt_succ hfew) after.2 hincoming
      refine ⟨s', hagain.trans hrest, ?_⟩
      have hall := hadvances.trans hlater
      rw [garbling, List.flatMap_cons]
      simp only [List.append_assoc] at hall ⊢
      exact hall

/-! ## Whole exchanges -/

/-- An exchange takes its passage off the stream. -/
theorem conduct_exchange_passage {noAck : Bool} (hconnected : s.connected = true)
    (hmode : s.noAck = noAck) (payload : String) (p : Passage noAck) {rest : List UInt8}
    (hs : s.incoming = p.bytes ++ rest) :
    ∃ s', (exchange payload).conduct s = (Reply.expand p.text, s') ∧
      Advances s (p.transmissions payload) p.bytes s' := by
  let n : Note := ⟨.debug, s!"-> {payload}"⟩
  have hnoted := (Advances.refl s).withNote n
  cases p with
  | course c =>
      let replied := c.gap ++ (garbling c.garbled ++ c.good.bytes)
      have hsplit : (s.withNote n).incoming =
          refusing c.refusals ++ (c.acceptance ++ (replied ++ rest)) := by
        show s.incoming = _
        rw [hs]
        simp only [Passage.bytes, Course.bytes, replied, List.append_assoc]
      have hack : ∀ more, takeAck (c.acceptance ++ (replied ++ rest ++ more)) =
          some (true, replied ++ rest ++ more) := by
        intro more
        rw [List.append_assoc replied]
        exact c.takeAck_acceptance (rest ++ more)
      have hrefusals : c.refusals.length < maxAttempts := Nat.lt_succ_of_le c.fewRefusals
      obtain ⟨s₁, hdeliver, hsent⟩ :=
        conduct_deliver_course (s := s.withNote n) payload hmode hrefusals hack hsplit
      rw [← List.append_assoc] at hsplit
      have hincoming := hsent.incoming_eq hsplit
      rw [List.append_assoc replied] at hincoming
      have hgarbled : c.garbled.length < maxAttempts := Nat.lt_succ_of_le c.fewGarbled
      obtain ⟨s₂, hreceive, hreceived⟩ :=
        conduct_receive_course (hsent.noAck.trans hmode) hgarbled c.good c.not_mem_gap hincoming
      obtain ⟨notes, hexchange⟩ := conduct_exchange hconnected hdeliver hreceive
      exact ⟨_, hexchange, ((hnoted.trans hsent).trans hreceived).withNotes notes⟩
  | reply gap good =>
      have hnoAck : (s.withNote n).noAck = true := hmode
      have hdeliver := conduct_deliver_noAck payload 2 hnoAck
      have hincoming := incoming_transmit (s := s.withNote n) (.packet payload) hs
      have hpacket := takePacket_good good gap.2 (rest ++ (reactions s.peer [.packet payload]).1)
      rw [← List.append_assoc] at hpacket
      have hreceive := conduct_receive_good 2 (bytesText?_textBytes good.reply)
        ((congrArg takePacket hincoming).trans hpacket)
      have hkept : (Session.transmit (.packet payload) (s.withNote n)).noAck = true := hmode
      rw [if_pos hkept] at hreceive
      obtain ⟨notes, hexchange⟩ := conduct_exchange hconnected hdeliver hreceive
      exact ⟨_, hexchange, ((hnoted.transmit _).take hincoming).withNotes notes⟩

/-- One exchange after another, whatever comes of each. -/
def converse : List String → Exchange π (List (Except LinkError String))
  | [] => return []
  | payload :: payloads => do
    let reply ← outcome (exchange payload)
    let replies ← converse payloads
    return reply :: replies

/-- Each of a row of exchanges takes its own passage off the stream. -/
theorem conduct_converse {noAck : Bool} (hconnected : s.connected = true)
    (hmode : s.noAck = noAck) (rounds : List (String × Passage noAck)) {rest : List UInt8}
    (hs : s.incoming = (rounds.flatMap fun r => r.2.bytes) ++ rest) :
    ∃ s', (converse (rounds.map Prod.fst)).conduct s =
        (.ok (rounds.map fun r => Reply.expand r.2.text), s') ∧
      Advances s (rounds.flatMap fun r => r.2.transmissions r.1)
        (rounds.flatMap fun r => r.2.bytes) s' := by
  induction rounds generalizing s rest with
  | nil => exact ⟨s, rfl, Advances.refl s⟩
  | cons round rounds ih =>
      obtain ⟨payload, p⟩ := round
      rw [List.flatMap_cons, List.append_assoc] at hs
      obtain ⟨s₁, hfirst, hadvances⟩ :=
        conduct_exchange_passage hconnected hmode payload p hs
      have hincoming := hadvances.incoming_eq hs
      rw [List.append_assoc] at hincoming
      obtain ⟨s', hothers, hlater⟩ :=
        ih (hadvances.connected.trans hconnected) (hadvances.noAck.trans hmode) hincoming
      refine ⟨s', ?_, hadvances.trans hlater⟩
      simp only [List.map_cons, converse, conduct_bind, conduct_outcome, hfirst, hothers,
        conduct_pure]

/-- **Reliable exchanges.** Over any peer from whom the passage of an exchange lies ready,
the exchange yields its reply with the runs expanded, transmits the command once more
than it is refused, calls for the reply as often as it is damaged, acknowledges it if that
is the mode, and reads the passage and nothing behind it. A row of exchanges, over
passages one after another, each yield the reply of their own passage. -/
theorem exchange_reliable {noAck : Bool} (hconnected : s.connected = true)
    (hmode : s.noAck = noAck) :
    (∀ payload (p : Passage noAck) rest, s.incoming = p.bytes ++ rest →
      ∃ s', (exchange payload).conduct s = (Reply.expand p.text, s') ∧
        Advances s (p.transmissions payload) p.bytes s' ∧
        s'.incoming = rest ++ (reactions s.peer (p.transmissions payload)).1) ∧
    ∀ (rounds : List (String × Passage noAck)) rest,
      s.incoming = (rounds.flatMap fun r => r.2.bytes) ++ rest →
      let ts := rounds.flatMap fun r => r.2.transmissions r.1
      ∃ s', (converse (rounds.map Prod.fst)).conduct s =
          (.ok (rounds.map fun r => Reply.expand r.2.text), s') ∧
        Advances s ts (rounds.flatMap fun r => r.2.bytes) s' ∧
        s'.incoming = rest ++ (reactions s.peer ts).1 := by
  constructor
  · intro payload p rest hs
    obtain ⟨s', hexchange, hadvances⟩ := conduct_exchange_passage hconnected hmode payload p hs
    exact ⟨s', hexchange, hadvances, hadvances.incoming_eq hs⟩
  · intro rounds rest hs
    obtain ⟨s', hconverse, hadvances⟩ := conduct_converse hconnected hmode rounds hs
    exact ⟨s', hconverse, hadvances, hadvances.incoming_eq hs⟩

/-- A stop after a breakpoint. -/
def stopped : Good :=
  have hbytes : textBytes "S05" = codes ['S', '0', '5'] := textBytes_ofList (by decide)
  { reply := "S05"
    free := by rw [hbytes]; decide
    short := by rw [hbytes]; decide
    digits := ⟨'b', '8', .inl (by rw [hbytes]; rfl), .inl (by rw [hbytes]; rfl)⟩ }

/-- The course of an exchange that is refused once, and whose reply is damaged once. -/
def rough : Course where
  refusals := [⟨codes ['x'], by decide⟩]
  hiss := ⟨[], by decide⟩
  opening := some ⟨[], by decide⟩
  garbled := [(⟨codes ['S'], '0', '0', 0, by decide, by decide, .inl rfl, .inl rfl, by decide⟩,
    ⟨codes ['+'], by decide⟩)]
  good := stopped
  fewRefusals := by decide
  fewGarbled := by decide

theorem exchange_reliable_of_rough :
    ∃ s', (exchange "?").conduct (Session.fresh "" (rough.bytes ++ [0x2B]) .closed ()) =
        (.ok "S05", s') ∧
      s'.sent.toList = [.packet "?", .packet "?", .nak, .ack] ∧ s'.incoming = [0x2B] := by
  obtain ⟨s', hresult, hadvances, hleft⟩ :=
    (exchange_reliable (s := Session.fresh "" (rough.bytes ++ [0x2B]) .closed ()) rfl rfl).1
      "?" (.course rough) [0x2B] rfl
  exact ⟨s', hresult, hadvances.sent, hleft⟩

end Exchange

end AvrConformance.Link
