import AvrConformance.Link.Exchange
import AvrConformance.Proofs.Link.Arrival

/-!
# Steps of an exchange

What one attempt does to a session. A command is accepted, refused or left unanswered. What
arrives then is no packet (`Arrival.failure?`), or an undamaged one, whose text is the reply
(`readText`), or a damaged one, which is called for again if the session may do so. An
exchange is a delivery and a receipt, in turn (`conduct_exchange_eq`).
-/

namespace AvrConformance.Link

/-! ## What arrives -/

/-- The error of an arrival that is no packet. -/
def Arrival.failure? (ending : Ending) : Arrival → Option LinkError
  | packet _ _ => none
  | oversized => some (.oversized packetLimit)
  | noTrailer => some (.malformed .trailer)
  | ended => some ending.error

theorem Arrival.exists_packet {a : Arrival} {ending : Ending} (h : a.failure? ending = none) :
    ∃ payload sum, a = .packet payload sum := by
  cases a with
  | packet payload sum => exact ⟨payload, sum, rfl⟩
  | oversized => cases h
  | noTrailer => cases h
  | ended => cases h

/-- The text of an undamaged payload. -/
def readText (payload : List UInt8) : Except LinkError String :=
  match bytesText? payload with
  | some text => .ok text
  | none => .error (.malformed .encoding)

theorem readText_eq_ok_iff {payload : List UInt8} {text : String} :
    readText payload = .ok text ↔ bytesText? payload = some text := by
  unfold readText
  cases bytesText? payload <;> simp

theorem eq_encoding_of_readText {payload : List UInt8} {e : LinkError}
    (h : readText payload = .error e) : e = .malformed .encoding := by
  unfold readText at h
  split at h <;> cases h
  rfl

theorem eq_runLength_of_expand {text : String} {e : LinkError} (h : Reply.expand text = .error e) :
    e = .malformed (.runLength text) := by
  unfold Reply.expand at h
  split at h <;> cases h
  rfl

/-! ## Steps -/

namespace Exchange

/-- Whoever comes to a result has come to one in each of two parts. -/
theorem conduct_bind_eq_ok {π α β : Type} {x : Exchange π α} {f : α → Exchange π β} {b : β}
    {s s'' : Session π} (h : (x >>= f).conduct s = (.ok b, s'')) :
    ∃ a s', x.conduct s = (.ok a, s') ∧ (f a).conduct s' = (.ok b, s'') := by
  rw [conduct_bind] at h
  rcases hx : x.conduct s with ⟨e | a, s'⟩
  · rw [hx] at h
    cases h
  · rw [hx] at h
    exact ⟨a, s', rfl, h⟩

section Steps

variable {π : Type} [Peer π] {s : Session π}

/-- A session after a transmission, with everything that its peer sends then. -/
theorem transmit_eq {t : Transmission} {s : Session π} {reaction : List UInt8 × π}
    (h : Peer.react s.peer t = reaction) :
    s.transmit t =
      { s with
        sent := s.sent.push t
        incoming := s.incoming ++ reaction.1
        peer := reaction.2 } := by
  simp only [Session.transmit, Session.enqueue_eq, h]

/-- Without acknowledgements, a packet is sent once. -/
theorem conduct_deliver_noAck (payload : String) (left : Nat) (hmode : s.noAck = true) :
    (deliver payload (left + 1)).conduct s = (.ok (), s.transmit (.packet payload)) := by
  have hkept : (s.transmit (.packet payload)).noAck = true := hmode
  simp only [deliver, write, conduct_bind, conduct_change, conduct_look, hkept, if_true,
    conduct_pure]

theorem conduct_deliver_accepted (payload : String) (left : Nat) (hmode : s.noAck = false)
    {rest : List UInt8}
    (hack : takeAck (s.transmit (.packet payload)).incoming = some (true, rest)) :
    (deliver payload (left + 1)).conduct s =
      (.ok (), { s.transmit (.packet payload) with incoming := rest }) := by
  have hkept : (s.transmit (.packet payload)).noAck = false := hmode
  simp only [deliver, write, conduct_bind, conduct_change, conduct_look, hkept,
    Bool.false_eq_true, if_false, awaitAck, hack, conduct_pure, if_true]

theorem conduct_deliver_refused (payload : String) (left : Nat) (hmode : s.noAck = false)
    {rest : List UInt8}
    (hack : takeAck (s.transmit (.packet payload)).incoming = some (false, rest)) :
    ∃ notes, (deliver payload (left + 1)).conduct s =
      (deliver payload left).conduct
        { s.transmit (.packet payload) with incoming := rest, notes } := by
  have hkept : (s.transmit (.packet payload)).noAck = false := hmode
  simp only [deliver, write, conduct_bind, conduct_change, conduct_look, hkept,
    Bool.false_eq_true, if_false, awaitAck, hack, conduct_pure, note]
  exact ⟨_, rfl⟩

theorem conduct_deliver_starved (payload : String) (left : Nat) (hmode : s.noAck = false)
    (hack : takeAck (s.transmit (.packet payload)).incoming = none) :
    (deliver payload (left + 1)).conduct s =
      (.error s.ending.error, { s.transmit (.packet payload) with incoming := [] }) := by
  have hkept : (s.transmit (.packet payload)).noAck = false := hmode
  simp only [deliver, write, conduct_bind, conduct_change, conduct_look, hkept,
    Bool.false_eq_true, if_false, awaitAck, hack, starve]
  rfl

/-- An undamaged packet ends the attempts, be its payload text or not. -/
theorem conduct_receive_intact (left : Nat) {payload rest : List UInt8}
    (hpacket : takePacket s.incoming = (.packet payload (checksum payload), rest)) :
    (receive (left + 1)).conduct s =
      (readText payload,
        if s.noAck then { s with incoming := rest }
        else Session.transmit .ack { s with incoming := rest }) := by
  simp only [receive, awaitPacket, conduct_bind, hpacket, if_true, accept, conduct_look, readText]
  cases s.noAck <;> cases bytesText? payload <;> simp [write]

/-- An undamaged packet with a text is accepted. -/
theorem conduct_receive_good (left : Nat) {payload rest : List UInt8} {reply : String}
    (htext : bytesText? payload = some reply)
    (hpacket : takePacket s.incoming = (.packet payload (checksum payload), rest)) :
    (receive (left + 1)).conduct s =
      (.ok reply,
        if s.noAck then { s with incoming := rest }
        else Session.transmit .ack { s with incoming := rest }) := by
  rw [conduct_receive_intact left hpacket, readText_eq_ok_iff.mpr htext]

/-- Without acknowledgements a damaged packet ends the attempts, too. -/
theorem conduct_receive_damaged (left : Nat) {payload rest : List UInt8}
    {sum : UInt8} (hmode : s.noAck = true) (hwrong : sum ≠ checksum payload)
    (hpacket : takePacket s.incoming = (.packet payload sum, rest)) :
    ∃ notes, (receive (left + 1)).conduct s =
      (.error (.malformed .checksum), { s with incoming := rest, notes }) := by
  simp only [receive, awaitPacket, conduct_bind, hpacket, if_neg hwrong, note, conduct_change,
    conduct_look, Session.withNote, hmode, if_true, conduct_fail]
  exact ⟨_, rfl⟩

/-- With them it is called for again. -/
theorem conduct_receive_garbled (left : Nat) {payload rest : List UInt8} {sum : UInt8}
    (hmode : s.noAck = false) (hwrong : sum ≠ checksum payload)
    (hpacket : takePacket s.incoming = (.packet payload sum, rest)) :
    ∃ notes, (receive (left + 1)).conduct s =
      (receive left).conduct (Session.transmit .nak { s with incoming := rest, notes }) := by
  simp only [receive, awaitPacket, conduct_bind, hpacket, if_neg hwrong, note, conduct_change,
    conduct_look, Session.withNote, hmode, Bool.false_eq_true, if_false, write]
  exact ⟨_, rfl⟩

/-- If no packet arrives, the attempts are at their end, too. -/
theorem conduct_receive_barren (left : Nat) {a : Arrival} {rest : List UInt8}
    {e : LinkError} (hbarren : a.failure? s.ending = some e)
    (hpacket : takePacket s.incoming = (a, rest)) :
    (receive (left + 1)).conduct s = (.error e, { s with incoming := rest }) := by
  cases a with
  | ended =>
      obtain rfl := eq_nil_of_arrival_ended hpacket
      cases hbarren
      simp only [receive, awaitPacket, conduct_bind, hpacket, starve]
  | oversized =>
      cases hbarren
      simp only [receive, awaitPacket, conduct_bind, hpacket, conduct_fail]
  | noTrailer =>
      cases hbarren
      simp only [receive, awaitPacket, conduct_bind, hpacket, conduct_fail]
  | packet payload sum => cases hbarren

/-- The parts of an exchange in turn, of which the first that fails is the last. -/
theorem conduct_exchange_eq (payload : String) (hconnected : s.connected = true) :
    (exchange payload).conduct s =
      match (deliver payload maxAttempts).conduct (s.withNote ⟨.debug, s!"-> {payload}"⟩) with
      | (.error e, s) => (.error e, s)
      | (.ok (), s) =>
        match (receive maxAttempts).conduct s with
        | (.error e, s) => (.error e, s)
        | (.ok text, s) => (Reply.expand text, s.withNote ⟨.debug, s!"<- {text}"⟩) := by
  simp only [exchange, conduct_bind, conduct_look, hconnected, if_true, note, conduct_change,
    conduct_ofExcept]
  rcases (deliver payload maxAttempts).conduct _ with ⟨e | _, s₁⟩
  · rfl
  · dsimp only
    rcases (receive maxAttempts).conduct s₁ with ⟨e | text, s₂⟩ <;> rfl

/-- The parts of an exchange that comes to a reply. The log is all else that it changes. -/
theorem conduct_exchange {payload reply : String} {s₁ s₂ : Session π}
    (hconnected : s.connected = true)
    (hdeliver : (deliver payload maxAttempts).conduct
      (s.withNote ⟨.debug, s!"-> {payload}"⟩) = (.ok (), s₁))
    (hreceive : (receive maxAttempts).conduct s₁ = (.ok reply, s₂)) :
    ∃ notes, (exchange payload).conduct s = (Reply.expand reply, { s₂ with notes }) := by
  rw [conduct_exchange_eq payload hconnected, hdeliver]
  dsimp only
  rw [hreceive]
  exact ⟨_, rfl⟩

/-- Without a connection nothing is exchanged. -/
theorem conduct_exchange_of_not_connected (payload : String)
    (hconnected : s.connected = false) :
    (exchange payload).conduct s = (.error .notConnected, s) := by
  simp only [exchange, conduct_bind, conduct_look, hconnected, Bool.false_eq_true, if_false,
    conduct_fail]

end Steps

end Exchange

end AvrConformance.Link
