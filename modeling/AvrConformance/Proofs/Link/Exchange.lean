import AvrConformance.Link.Client
import AvrConformance.Proofs.Link.Steps
import AvrConformance.Proofs.Link.Stub

/-!
# Exchanges with a stub

One exchange with a stub, from the framing of the command to the expanded reply. A
stub refuses a command and garbles a reply at most twice each, and a session tries
three times, so that both loops come to their end; and what the stub has sent by then
is read to the last byte (`conduct_transact`).
-/

namespace AvrConformance.Link

open Text.Hex (IsDigitOf Spells)

/-! ## Packets -/

/-- A packet is taken with the checksum that its digits write, and what comes before it is
passed over. -/
theorem takePacket_gap_packet {gap payload : List UInt8} {high low : Char} {sum : UInt8}
    (hgap : packetStart ∉ gap) (hfree : packetEnd ∉ payload)
    (hshort : payload.length ≤ packetLimit) (hhigh : IsDigitOf (sum.toNat / 16) high)
    (hlow : IsDigitOf sum.toNat low) (rest : List UInt8) :
    takePacket (gap ++ (packet payload high low ++ rest)) = (.packet payload sum, rest) := by
  have hascii : ∀ {n c}, IsDigitOf n c → c.toNat < 128 := by
    intro n c h
    exact (Text.Hex.char_of_isDigit (Text.Hex.isDigit_of_isDigitOf h)).1
  have htrailer : trailer? (code high) (code low) = some sum := by
    rw [trailer?, ofNat_code (hascii hhigh), ofNat_code (hascii hlow)]
    exact Text.Hex.lenientByte?_of_digits hhigh hlow
  refine takePacket_eq_packet_iff.mpr
    ⟨gap, code high, code low, hgap, ?_, hfree, hshort, htrailer⟩
  simp [packet]

theorem takePacket_packet {payload : List UInt8} {high low : Char} {sum : UInt8}
    (hfree : packetEnd ∉ payload) (hshort : payload.length ≤ packetLimit)
    (hhigh : IsDigitOf (sum.toNat / 16) high) (hlow : IsDigitOf sum.toNat low) :
    takePacket (packet payload high low) = (.packet payload sum, []) := by
  have htaken := takePacket_gap_packet (List.not_mem_nil : packetStart ∉ []) hfree hshort
    hhigh hlow []
  rwa [List.append_nil] at htaken

/-! ## Responses -/

/-- A response whose text fits into a packet. -/
def Response.Short : Response → Prop
  | .data bytes => 2 * bytes.length ≤ packetLimit
  | _ => True

namespace Says

variable {r : Response} {text : List Char}

theorem ordinary (h : Says r text) : ∀ c ∈ text, Ordinary c := by
  have hdigit : ∀ {c}, Text.Hex.isDigit c = true → Ordinary c := by
    intro c hc
    obtain ⟨hascii, hhash, -, -, -, hstar⟩ := Text.Hex.char_of_isDigit hc
    exact ⟨hascii, hstar, hhash⟩
  have hspelled : ∀ {bytes text}, Spells bytes text → ∀ c ∈ text, Ordinary c := by
    intro bytes text h c hc
    exact hdigit (h.isDigit c hc)
  have hletter : ∀ {c : Char} {bytes text}, Ordinary c → Spells bytes text →
      ∀ d ∈ c :: text, Ordinary d := by
    intro c bytes text hc htext d hd
    rcases List.mem_cons.mp hd with rfl | hd
    · exact hc
    · exact hspelled htext d hd
  cases h with
  | ok =>
      intro c hc
      simp only [List.mem_cons, List.not_mem_nil, or_false] at hc
      rcases hc with rfl | rfl <;> exact ⟨by decide, by decide, by decide⟩
  | data spelling => exact hspelled spelling
  | signal kind spelling =>
      refine hletter ?_ spelling
      rcases kind with rfl | rfl <;> exact ⟨by decide, by decide, by decide⟩
  | exited spelling => exact hletter ⟨by decide, by decide, by decide⟩ spelling
  | terminated spelling => exact hletter ⟨by decide, by decide, by decide⟩ spelling
  | error e =>
      intro c hc
      simp only [ErrorCode.text, List.mem_cons, List.not_mem_nil, or_false] at hc
      rcases hc with rfl | rfl | rfl
      · exact ⟨by decide, by decide, by decide⟩
      · exact hdigit e.highDigit
      · exact hdigit e.lowDigit
  | unsupported =>
      intro c hc
      exact absurd hc List.not_mem_nil

/-- A short response is said in no more than a packet. -/
theorem length_le (h : Says r text) (hr : r.Short) : text.length ≤ packetLimit := by
  have hletter : ∀ {b : UInt8} {c : Char} {text}, Spells [b] text →
      (c :: text).length ≤ packetLimit := by
    intro b c text spelling
    rw [List.length_cons, spelling.length_eq]
    show 2 * 1 + 1 ≤ packetLimit
    decide
  cases h with
  | ok => decide
  | data spelling =>
      rw [spelling.length_eq]
      exact hr
  | signal _ spelling => exact hletter spelling
  | exited spelling => exact hletter spelling
  | terminated spelling => exact hletter spelling
  | error e =>
      show 3 ≤ packetLimit
      decide
  | unsupported => decide

end Says

/-- The encoded text says the response once it is expanded. -/
def Renders (r : Response) (encoded : List Char) : Prop :=
  ∃ text, Says r text ∧ Encodes text encoded

namespace Renders

variable {r : Response} {encoded : List Char}

theorem ascii (h : Renders r encoded) : Ascii encoded := by
  obtain ⟨text, hsaid, hencodes⟩ := h
  exact hencodes.ascii hsaid.ordinary

theorem free (h : Renders r encoded) : packetEnd ∉ codes encoded := by
  intro hmem
  obtain ⟨c, hc, hcode⟩ := List.mem_map.mp hmem
  have hhash : c = '#' := code_inj (h.ascii c hc) (by decide) hcode
  obtain ⟨text, hsaid, hencodes⟩ := h
  exact hencodes.free hsaid.ordinary (hhash ▸ hc)

/-- What was rendered is the text of the response. -/
theorem expand (h : Renders r encoded) :
    ∃ text, Says r text ∧ Reply.expand (String.ofList encoded) = .ok (String.ofList text) := by
  obtain ⟨text, hsaid, hencodes⟩ := h
  exact ⟨text, hsaid, hencodes.expand hsaid.ordinary⟩

end Renders

namespace Exchange

/-! ## A stub at the other end -/

section Stub

variable {σ ω : Type} {μ : Machine σ} {m : Manner ω}

/-- Between two exchanges nothing is unread, no reply is pending, and the machine is
in the state that the commands so far have brought about. The session and its stub
each are in one of the two modes. -/
structure Settled (s : Session (Stub μ m)) (x : σ) (mine its : Bool) : Prop where
  connected : s.connected = true
  quiet : s.incoming = []
  mode : s.noAck = mine
  stubMode : s.peer.noAck = its
  idle : s.peer.pending = none
  patient : s.peer.refusals = 0
  machine : s.peer.machine = x

/-- The log is beside the point. -/
theorem Settled.withNotes {s : Session (Stub μ m)} {x : σ} {mine its : Bool}
    (h : Settled s x mine its) (notes : Array Note) : Settled { s with notes } x mine its :=
  ⟨h.connected, h.quiet, h.mode, h.stubMode, h.idle, h.patient, h.machine⟩

/-- A reply has been sent, and awaits acknowledgement. It is all that is unread. -/
structure Sent (s : Session (Stub μ m)) (p : Pending) (stub : Stub μ m) : Prop where
  connected : s.connected = true
  mode : s.noAck = false
  bytes : s.incoming = (stub.send p).1
  peer : s.peer = (stub.send p).2
  stubMode : stub.noAck = false
  patient : stub.refusals = 0

/-- A stub reads the command off the wire. -/
theorem react_packet (stub : Stub μ m) (c : Command) :
    Peer.react stub (.packet c.payload) =
      Stub.hear c { stub with whim := m.next stub.whim (.packet c.payload) } := by
  show Stub.react stub (.packet c.payload) = _
  simp only [Stub.react, Command.decode?_packet]

/-- The mode without acknowledgements is granted only to a session that asks for it. -/
theorem eq_startNoAck_of_granting {c : Command} {grants : Bool}
    (h : (decide (c = .startNoAck) && grants) = true) : c = .startNoAck := by
  simpa using (Bool.and_eq_true_iff.mp h).1

/-- A command is refused if there have not been two refusals, or performed and replied to. -/
theorem hear_cases (stub : Stub μ m) (c : Command) (hmode : stub.noAck = false) :
    (stub.refusals < 2 ∧
        stub.hear c = ([0x2D], { stub with refusals := stub.refusals + 1 })) ∨
      stub.hear c =
        let granting := decide (c = .startNoAck) && m.grants stub.whim
        let performed := μ.perform granting c stub.machine
        let reply := Stub.send ⟨performed.1, 0, granting⟩
          { stub with machine := performed.2, refusals := 0 }
        (0x2B :: reply.1, reply.2) := by
  unfold Stub.hear
  by_cases hrefused : stub.noAck = false ∧ m.refuses stub.whim = true ∧ stub.refusals < 2
  · exact .inl ⟨hrefused.2.2, if_pos hrefused⟩
  · refine .inr ?_
    rw [if_neg hrefused]
    dsimp only
    rw [if_neg (by rw [hmode]; decide)]

/-- Without acknowledgements, a command is performed and replied to at once. -/
theorem hear_noAck (stub : Stub μ m) (c : Command) (hmode : stub.noAck = true) :
    stub.hear c =
      let granting := decide (c = .startNoAck) && m.grants stub.whim
      let performed := μ.perform granting c stub.machine
      (m.packet stub.whim performed.1, { stub with machine := performed.2 }) := by
  unfold Stub.hear
  rw [if_neg (by rw [hmode]; simp)]
  dsimp only
  rw [if_pos hmode]

/-- What a stub sends is a good copy of the reply, or a garbled one if there have not
been two. -/
theorem send_cases (p : Pending) (stub : Stub μ m) :
    stub.send p = (m.packet stub.whim p.response, { stub with pending := some p }) ∨
      ∃ g : Garbled, p.garbled < 2 ∧ stub.send p =
        (packet g.payload g.high g.low,
          { stub with pending := some { p with garbled := p.garbled + 1 } }) := by
  unfold Stub.send
  cases m.garbles stub.whim with
  | none => exact .inl rfl
  | some g =>
      by_cases hfew : p.garbled < 2
      · exact .inr ⟨g, hfew, if_pos hfew⟩
      · exact .inl (if_neg hfew)

/-- A good copy is taken to the last byte. -/
theorem takePacket_manner (whim : ω) {r : Response} (hr : r.Short) :
    ∃ encoded, Renders r encoded ∧ takePacket (m.packet whim r) =
      (.packet (codes encoded) (checksum (codes encoded)), []) := by
  let text := m.wording whim r
  let encoded := m.encoding whim text.1
  obtain ⟨hencodes, hfits⟩ := encoded.2
  have hrenders : Renders r encoded.1 := ⟨text.1, text.2, hencodes⟩
  have hshort : (codes encoded.1).length ≤ packetLimit := by
    rw [codes, List.length_map]
    exact hfits (text.2.length_le hr)
  let digits := m.trailer whim (checksum (codes encoded.1))
  exact ⟨encoded.1, hrenders, takePacket_packet hrenders.free hshort
    digits.highDigit digits.lowDigit⟩

/-- A reply that was sent is received, however often it is garbled before. -/
theorem conduct_receive {s : Session (Stub μ m)} {p : Pending} {stub : Stub μ m} {left : Nat}
    (h : Sent s p stub) (hr : p.response.Short) (hgarbled : p.garbled ≤ 2)
    (hleft : 3 ≤ p.garbled + left) :
    ∃ encoded s', Renders p.response encoded ∧
      (receive left).conduct s = (.ok (String.ofList encoded), s') ∧
      Settled s' stub.machine false p.granting := by
  -- by induction on the attempts left, of which a garbled reply uses up one; a stub that
  -- has garbled a reply twice has one attempt left to send it as it is
  induction left generalizing s p stub with
  | zero => omega
  | succ left ih =>
      rcases send_cases p stub with hsend | ⟨g, hfew, hsend⟩
      · obtain ⟨encoded, hrenders, hpacket⟩ := takePacket_manner (m := m) stub.whim hr
        have hincoming : takePacket s.incoming =
            (.packet (codes encoded) (checksum (codes encoded)), []) := by
          rw [h.bytes, hsend, hpacket]
        have htext := bytesText?_codes hrenders.ascii
        refine ⟨encoded, _, hrenders, conduct_receive_good left htext hincoming, ?_⟩
        let read : Session (Stub μ m) := { s with incoming := [] }
        have hreact : Peer.react read.peer .ack =
            ([], { stub with
              whim := m.next stub.whim .ack
              pending := none
              noAck := p.granting }) := by
          show Peer.react s.peer .ack = _
          rw [h.peer, hsend]
          simp [Peer.react, Stub.react, Stub.acknowledged, h.stubMode]
        have hmode : read.noAck = false := h.mode
        rw [if_neg (by rw [hmode]; decide), transmit_eq hreact]
        exact ⟨h.connected, rfl, h.mode, rfl, rfl, h.patient, rfl⟩
      · have hincoming : takePacket s.incoming = (.packet g.payload g.sum, []) := by
          rw [h.bytes, hsend]
          exact takePacket_packet g.free g.short g.highDigit g.lowDigit
        obtain ⟨notes, hagain⟩ := conduct_receive_garbled left h.mode g.wrong hincoming
        -- the stub sends the reply again, by the whim it has after hearing the refusal
        let p' : Pending := { p with garbled := p.garbled + 1 }
        let stub' : Stub μ m := { stub with
          whim := m.next stub.whim .nak
          pending := some p' }
        let read : Session (Stub μ m) := { s with incoming := [], notes }
        have hreact : Peer.react read.peer .nak = stub'.send p' := by
          show Peer.react s.peer .nak = _
          rw [h.peer, hsend]
          rfl
        have hsent : Sent (read.transmit .nak) p' stub' := by
          rw [transmit_eq hreact]
          exact ⟨h.connected, h.mode, rfl, rfl, h.stubMode, h.patient⟩
        rw [hagain]
        have hgarbled' : p'.garbled ≤ 2 := hfew
        have hleft' : 3 ≤ p'.garbled + left := by
          show 3 ≤ p.garbled + 1 + left
          omega
        have hreceived := ih hsent hr hgarbled' hleft'
        exact hreceived

/-- A command that is delivered has been performed, however often it is refused before,
and the stub has sent its reply. -/
theorem conduct_deliver {s : Session (Stub μ m)} (c : Command) {left : Nat}
    (hconnected : s.connected = true) (hquiet : s.incoming = []) (hmode : s.noAck = false)
    (hstubMode : s.peer.noAck = false) (hrefusals : s.peer.refusals ≤ 2)
    (hleft : 3 ≤ s.peer.refusals + left) :
    ∃ granting stub s', (granting = true → c = .startNoAck) ∧
      (deliver c.payload left).conduct s = (.ok (), s') ∧
      stub.machine = (μ.perform granting c s.peer.machine).2 ∧
      Sent s' ⟨(μ.perform granting c s.peer.machine).1, 0, granting⟩ stub := by
  -- by induction on the attempts left; refusals and attempts left are never fewer than 3
  -- together, so that the attempts outlast the refusals
  induction left generalizing s with
  | zero => omega
  | succ left ih =>
      let stub : Stub μ m :=
        { s.peer with whim := m.next s.peer.whim (.packet c.payload) }
      rcases hear_cases stub c hstubMode with ⟨hfew, hhear⟩ | hhear
      · have hreact := (react_packet s.peer c).trans hhear
        have hack : takeAck (s.transmit (.packet c.payload)).incoming = some (false, []) := by
          rw [transmit_eq hreact, hquiet]
          rfl
        obtain ⟨notes, hagain⟩ := conduct_deliver_refused c.payload left hmode hack
        rw [hagain, transmit_eq hreact]
        have hless : s.peer.refusals < 2 := hfew
        refine ih hconnected rfl hmode hstubMode ?_ ?_
        · show s.peer.refusals + 1 ≤ 2
          omega
        · show 3 ≤ s.peer.refusals + 1 + left
          omega
      · have hreact := (react_packet s.peer c).trans hhear
        let granting := decide (c = .startNoAck) && m.grants stub.whim
        let performed := μ.perform granting c s.peer.machine
        let stub' : Stub μ m := { stub with machine := performed.2, refusals := 0 }
        let p : Pending := ⟨performed.1, 0, granting⟩
        have hack : takeAck (s.transmit (.packet c.payload)).incoming =
            some (true, (stub'.send p).1) := by
          rw [transmit_eq hreact, hquiet]
          rfl
        refine ⟨granting, stub', _, eq_startNoAck_of_granting,
          conduct_deliver_accepted c.payload left hmode hack, rfl, ?_⟩
        rw [transmit_eq hreact]
        exact ⟨hconnected, hmode, rfl, rfl, hstubMode, rfl⟩

theorem respond_short {α : Type} {said : α → Response} (h : ∀ a, (said a).Short)
    (result : Except ErrorCode α × σ) : (respond said result).1.Short := by
  rcases result with ⟨e | a, x⟩
  · trivial
  · exact h a

/-- What a machine says at a command is short, unless memory is asked for. -/
theorem perform_short (granting : Bool) {c : Command} (x : σ)
    (hc : ∀ address count, c ≠ .readMemory address count) :
    (μ.perform granting c x).1.Short := by
  cases c with
  | startNoAck => cases granting <;> trivial
  | lastStop => trivial
  | readMemory address count => exact absurd rfl (hc address count)
  | writeMemory address data =>
      refine respond_short ?_ _
      exact fun _ => trivial
  | readRegisters =>
      refine respond_short ?_ _
      intro registers
      show 2 * registers.toBytes.length ≤ packetLimit
      rw [registers.length_toBytes]
      decide
  | writeRegisters registers =>
      refine respond_short ?_ _
      exact fun _ => trivial
  | resume signal =>
      refine respond_short ?_ _
      exact fun _ => trivial
  | step =>
      refine respond_short ?_ _
      exact fun _ => trivial
  | detach =>
      refine respond_short ?_ _
      exact fun _ => trivial

/-- A reply that is received says the response to whoever transacts the command. -/
theorem conduct_transact_of {s s₁ s₂ : Session (Stub μ m)} {c : Command} {r : Response}
    {encoded : List Char} (hconnected : s.connected = true)
    (hdeliver : (deliver c.payload maxAttempts).conduct
      (s.withNote ⟨.debug, s!"-> {c.payload}"⟩) = (.ok (), s₁))
    (hreceive : (receive maxAttempts).conduct s₁ = (.ok (String.ofList encoded), s₂))
    (hrenders : Renders r encoded) :
    ∃ text notes, Says r text ∧
      (transact c).conduct s = (.ok (String.ofList text), { s₂ with notes }) := by
  obtain ⟨text, hsaid, hexpand⟩ := hrenders.expand
  obtain ⟨notes, hexchange⟩ := conduct_exchange hconnected hdeliver hreceive
  rw [hexpand] at hexchange
  simp only [transact, conduct_bind, conduct_outcome, hexchange, conduct_pure]
  exact ⟨text, notes, hsaid, rfl⟩

/-- **One exchange.** A command that is transacted with a stub is performed once on the
machine behind it, what the machine says comes back if it is short, and nothing is left
unread. Only the grant of the mode without acknowledgements puts the two out of step. -/
theorem conduct_transact {s : Session (Stub μ m)} {x : σ} {mode : Bool}
    (h : Settled s x mode mode) {c : Command}
    (hshort : ∀ granting, (μ.perform granting c x).1.Short) :
    ∃ granting text s', (granting = true → c = .startNoAck) ∧
      Says (μ.perform granting c x).1 text ∧
      (transact c).conduct s = (.ok (String.ofList text), s') ∧
      Settled s' (μ.perform granting c x).2 mode (mode || granting) := by
  obtain ⟨hconnected, hquiet, hmode, hstubMode, hidle, hpatient, rfl⟩ := h
  let s₀ := s.withNote ⟨.debug, s!"-> {c.payload}"⟩
  -- only with acknowledgements are there loops; without them each side sends once
  cases mode with
  | false =>
      have hattempts : 3 ≤ 0 + maxAttempts := Nat.le_refl 3
      have hrefusals : s₀.peer.refusals ≤ 2 := by
        show s.peer.refusals ≤ 2
        omega
      have hleft : 3 ≤ s₀.peer.refusals + maxAttempts := by
        show 3 ≤ s.peer.refusals + maxAttempts
        rw [hpatient]
        exact hattempts
      obtain ⟨granting, stub, s₁, hgranting, hdeliver, hmachine, hsent⟩ :=
        conduct_deliver (s := s₀) c hconnected hquiet hmode hstubMode hrefusals hleft
      obtain ⟨encoded, s₂, hrenders, hreceive, hsettled⟩ :=
        conduct_receive hsent (hshort granting) (Nat.zero_le 2) hattempts
      obtain ⟨text, notes, hsaid, htransact⟩ :=
        conduct_transact_of hconnected hdeliver hreceive hrenders
      refine ⟨granting, text, _, hgranting, hsaid, htransact, ?_⟩
      rw [hmachine] at hsettled
      exact hsettled.withNotes notes
  | true =>
      let stub : Stub μ m := { s.peer with whim := m.next s.peer.whim (.packet c.payload) }
      let granting := decide (c = .startNoAck) && m.grants stub.whim
      let performed := μ.perform granting c s.peer.machine
      have hreact : Peer.react s₀.peer (.packet c.payload) =
          (m.packet stub.whim performed.1, { stub with machine := performed.2 }) :=
        (react_packet s.peer c).trans (hear_noAck stub c hstubMode)
      have hdeliver := conduct_deliver_noAck (s := s₀) c.payload 2 hmode
      obtain ⟨encoded, hrenders, hpacket⟩ :=
        takePacket_manner (m := m) stub.whim (hshort granting)
      have hincoming : takePacket (s₀.transmit (.packet c.payload)).incoming =
          (.packet (codes encoded) (checksum (codes encoded)), []) := by
        rw [transmit_eq hreact]
        show takePacket (s.incoming ++ _) = _
        rw [hquiet]
        exact hpacket
      have hreceive := conduct_receive_good 2 (bytesText?_codes hrenders.ascii) hincoming
      obtain ⟨text, notes, hsaid, htransact⟩ :=
        conduct_transact_of hconnected hdeliver hreceive hrenders
      refine ⟨granting, text, _, eq_startNoAck_of_granting, hsaid, htransact, ?_⟩
      rw [transmit_eq hreact]
      have hkept : s₀.noAck = true := hmode
      rw [if_pos hkept]
      exact ⟨hconnected, rfl, hmode, hstubMode, hidle, hpatient, rfl⟩

end Stub

end Exchange

end AvrConformance.Link
