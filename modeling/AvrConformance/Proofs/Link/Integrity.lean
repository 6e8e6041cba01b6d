import AvrConformance.Proofs.Link.Ascii
import AvrConformance.Proofs.Link.Attempts

/-!
# What an exchange vouches for

A peer may send whatever it likes. Whenever an exchange still comes to a reply, the bytes
that it has read end in the packet of that reply: the payload reaches from a start to the
first end mark, fits into the limit and is well-formed text, and the two bytes behind it
write its checksum (`exchange_vouches`). They write it as two digits, or else as a plus
sign and one digit, which the reading of numbers lets pass (`exchange_vouches_for_sign`).
-/

namespace AvrConformance.Link

/-- The bytes end in a packet with the text, whose trailer writes its checksum. -/
def EndsInPacket (Writes : UInt8 → UInt8 → UInt8 → Prop) (read : List UInt8) (text : String) :
    Prop :=
  ∃ before payload high low,
    read = before ++ packetStart :: (payload ++ [packetEnd, high, low]) ∧
    packetEnd ∉ payload ∧ payload.length ≤ packetLimit ∧ bytesText? payload = some text ∧
    Writes (checksum payload) high low

theorem EndsInPacket.append {Writes : UInt8 → UInt8 → UInt8 → Prop} {read : List UInt8}
    {text : String} (h : EndsInPacket Writes read text) (earlier : List UInt8) :
    EndsInPacket Writes (earlier ++ read) text := by
  obtain ⟨before, payload, high, low, rfl, hpacket⟩ := h
  exact ⟨earlier ++ before, payload, high, low, (List.append_assoc ..).symm, hpacket⟩

/-- Two bytes are taken for a checksum. -/
def Legible (sum high low : UInt8) : Prop := trailer? high low = some sum

theorem EndsInPacket.of_legible {read : List UInt8} {text : String}
    (h : EndsInPacket Legible read text) :
    EndsInPacket Digits read text ∨ EndsInPacket SignedDigit read text := by
  obtain ⟨before, payload, high, low, hread, hfree, hshort, htext, hlegible⟩ := h
  rcases trailer?_eq_some_iff.mp hlegible with hdigits | hsigned
  · exact .inl ⟨before, payload, high, low, hread, hfree, hshort, htext, hdigits⟩
  · exact .inr ⟨before, payload, high, low, hread, hfree, hshort, htext, hsigned⟩

/-- What a receipt has read when it comes to a reply ends in the packet of that reply. -/
theorem Receives.endsInPacket {noAck : Bool} {ending : Ending} {left : Nat}
    {bytes unread : List UInt8} {us : List Transmission} {text : String}
    (h : Receives noAck ending left bytes us (.ok text) unread) :
    ∃ read, bytes = read ++ unread ∧ EndsInPacket Legible read text := by
  generalize hresult : Except.ok text = result at h
  induction h with
  | spent bytes => cases hresult
  | barren arrives failure => cases hresult
  | @intact left bytes payload rest arrives =>
      obtain ⟨gap, high, low, -, rfl, hfree, hshort, htrailer⟩ :=
        takePacket_eq_packet_iff.mp arrives
      have htext := readText_eq_ok_iff.mp hresult.symm
      refine ⟨gap ++ packetStart :: (payload ++ [packetEnd, high, low]), ?_,
        gap, payload, high, low, rfl, hfree, hshort, htext, htrailer⟩
      simp only [List.append_assoc, List.cons_append, List.nil_append]
  | damaged mode arrives wrong => cases hresult
  | repeated mode arrives wrong again ih =>
      obtain ⟨first, hfirst, -⟩ := exists_read_of_takePacket arrives
      obtain ⟨read, hrest, hends⟩ := ih hresult
      exact ⟨first ++ read, by rw [hfirst, hrest, List.append_assoc], hends.append first⟩

namespace Exchange

variable {π : Type} [Peer π]

/-! ## Parts that come to a result -/

theorem advances_of_deliver {payload : String} {left : Nat} {s s' : Session π}
    (h : (deliver payload left).conduct s = (.ok (), s')) :
    ∃ ts read, Advances s ts read s' := by
  obtain ⟨n, read, result, t, hconduct, hadvances, -⟩ := exists_delivers payload left s
  rw [hconduct] at h
  cases h
  exact ⟨_, read, hadvances⟩

theorem advances_of_receive {left : Nat} {text : String} {s s' : Session π}
    (h : (receive left).conduct s = (.ok text, s')) :
    ∃ ts read, Advances s ts read s' ∧ EndsInPacket Legible read text := by
  obtain ⟨ts, read, result, t, hconduct, hadvances, hreceives⟩ := exists_receives left s
  rw [hconduct] at h
  cases h
  obtain ⟨taken, hstream, hends⟩ := hreceives.endsInPacket
  have hread : read = taken := List.append_cancel_right (hadvances.stream.symm.trans hstream)
  subst hread
  exact ⟨ts, read, hadvances, hends⟩

/-! ## Whole exchanges -/

/-- **What an exchange vouches for.** If an exchange comes to a reply, over any peer and in
either mode, the bytes that it has read end in the packet of that reply, whose two digits
write the checksum of the payload, unless a plus sign stands for the first of them. -/
theorem exchange_vouches {payload reply : String} {s s' : Session π}
    (h : (exchange payload).conduct s = (.ok reply, s')) :
    ∃ ts read text, Advances s ts read s' ∧ Reply.expand text = .ok reply ∧
      (EndsInPacket Digits read text ∨ EndsInPacket SignedDigit read text) := by
  obtain ⟨_, _, hlook, h⟩ := conduct_bind_eq_ok h
  cases hlook
  rw [conduct_ite] at h
  split at h
  · obtain ⟨_, _, hnote, h⟩ := conduct_bind_eq_ok h
    cases hnote
    obtain ⟨_, s₁, hdeliver, h⟩ := conduct_bind_eq_ok h
    obtain ⟨text, s₂, hreceive, h⟩ := conduct_bind_eq_ok h
    obtain ⟨_, _, hnote, h⟩ := conduct_bind_eq_ok h
    cases hnote
    rw [conduct_ofExcept] at h
    obtain ⟨hexpand, rfl⟩ := Prod.mk.inj h
    obtain ⟨ts, read, hsent⟩ := advances_of_deliver hdeliver
    obtain ⟨us, more, hreceived, hends⟩ := advances_of_receive hreceive
    have hall := (((Advances.refl s).withNote _).trans hsent).trans hreceived
    exact ⟨_, _, text, hall.withNote _, hexpand, (hends.append _).of_legible⟩
  · cases h

theorem exchange_vouches_for_stop :
    let s := Session.fresh "" (codes ['+', '$', 'S', '0', '5', '#', 'b', '8']) .closed ()
    ∃ s', (exchange "?").conduct s = (.ok "S05", s') ∧
      ∃ ts read text, Advances s ts read s' ∧ Reply.expand text = .ok "S05" ∧
        (EndsInPacket Digits read text ∨ EndsInPacket SignedDigit read text) :=
  ⟨_, rfl, exchange_vouches rfl⟩

/-- The two digits of the checksum 8 are not `+8`, which passes for them. -/
theorem exchange_vouches_for_sign :
    let read := codes ['+', '$', 'A', 'A', 'A', 'A', 'A', 'A', 'A', 'A', '#', '+', '8']
    let s := Session.fresh "" read .closed ()
    ∃ s' ts, (exchange "m0,4").conduct s = (.ok "AAAAAAAA", s') ∧ Advances s ts read s' ∧
      ∀ text, ¬ EndsInPacket Digits read text := by
  refine ⟨_, [.packet "m0,4", .ack], rfl, ⟨rfl, rfl, rfl, rfl⟩, ?_⟩
  rintro text ⟨before, payload, high, low, hread, -, -, -, hdigits⟩
  have hplus : code '+' = high := by
    have hlast := congrArg (fun bytes => bytes.reverse[1]?) hread
    simpa using hlast
  exact hdigits.ne_plus hplus.symm

end Exchange

end AvrConformance.Link
