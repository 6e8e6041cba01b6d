import AvrConformance.Proofs.Link.Steps
import AvrConformance.Proofs.Link.Traffic

/-!
# Attempts

A command is sent until the peer accepts it, and a reply is received until one is
undamaged, each so many times. What comes of that is decided by the bytes alone that
the session has to read, its **stream** (`Session.stream`): those that lie ready, and
those that its peer sends in reaction to what is transmitted. `Delivers` and `Receives`
tell the attempts one after another by the stream, and `Exchanges` puts them together.
Every exchange is one of these (`exists_exchanges`), whatever the peer.
-/

namespace AvrConformance.Link

/-! ## The attempts, told by the stream -/

/-- Delivering a command in at most so many attempts: the stream from there on, how often
the command is sent, what comes of it and what is left unread. -/
inductive Delivers (noAck : Bool) (ending : Ending) :
    Nat → List UInt8 → Nat → Except LinkError Unit → List UInt8 → Prop
  | spent (bytes : List UInt8) :
      Delivers noAck ending 0 bytes 0 (.error (.rejected maxAttempts)) bytes
  | unanswered {left : Nat} (mode : noAck = true) (bytes : List UInt8) :
      Delivers noAck ending (left + 1) bytes 1 (.ok ()) bytes
  | starved {left : Nat} {bytes : List UInt8} (mode : noAck = false)
      (heard : takeAck bytes = none) :
      Delivers noAck ending (left + 1) bytes 1 (.error ending.error) []
  | accepted {left : Nat} {bytes rest : List UInt8} (mode : noAck = false)
      (heard : takeAck bytes = some (true, rest)) :
      Delivers noAck ending (left + 1) bytes 1 (.ok ()) rest
  | refused {left n : Nat} {bytes rest unread : List UInt8} {result : Except LinkError Unit}
      (mode : noAck = false) (heard : takeAck bytes = some (false, rest))
      (again : Delivers noAck ending left rest n result unread) :
      Delivers noAck ending (left + 1) bytes (n + 1) result unread

/-- Receiving a reply in at most so many attempts: the stream from there on, what is
answered, what comes of it and what is left unread. -/
inductive Receives (noAck : Bool) (ending : Ending) :
    Nat → List UInt8 → List Transmission → Except LinkError String → List UInt8 → Prop
  | spent (bytes : List UInt8) :
      Receives noAck ending 0 bytes [] (.error (.malformed (.checksums maxAttempts))) bytes
  | barren {left : Nat} {bytes rest : List UInt8} {a : Arrival} {e : LinkError}
      (arrives : takePacket bytes = (a, rest)) (failure : a.failure? ending = some e) :
      Receives noAck ending (left + 1) bytes [] (.error e) rest
  | intact {left : Nat} {bytes payload rest : List UInt8}
      (arrives : takePacket bytes = (.packet payload (checksum payload), rest)) :
      Receives noAck ending (left + 1) bytes (if noAck then [] else [.ack]) (readText payload) rest
  | damaged {left : Nat} {bytes payload rest : List UInt8} {sum : UInt8} (mode : noAck = true)
      (arrives : takePacket bytes = (.packet payload sum, rest)) (wrong : sum ≠ checksum payload) :
      Receives noAck ending (left + 1) bytes [] (.error (.malformed .checksum)) rest
  | repeated {left : Nat} {bytes payload rest unread : List UInt8} {sum : UInt8}
      {us : List Transmission} {result : Except LinkError String} (mode : noAck = false)
      (arrives : takePacket bytes = (.packet payload sum, rest)) (wrong : sum ≠ checksum payload)
      (again : Receives noAck ending left rest us result unread) :
      Receives noAck ending (left + 1) bytes (.nak :: us) result unread

/-- A delivery, and a receipt if that succeeds. -/
inductive Exchanges (noAck : Bool) (ending : Ending) :
    List UInt8 → Nat → List Transmission → Except LinkError String → List UInt8 → Prop
  | undelivered {bytes unread : List UInt8} {n : Nat} {e : LinkError}
      (delivery : Delivers noAck ending maxAttempts bytes n (.error e) unread) :
      Exchanges noAck ending bytes n [] (.error e) unread
  | delivered {bytes rest unread : List UInt8} {n : Nat} {us : List Transmission}
      {told : Except LinkError String}
      (delivery : Delivers noAck ending maxAttempts bytes n (.ok ()) rest)
      (receipt : Receives noAck ending maxAttempts rest us told unread) :
      Exchanges noAck ending bytes n us (told.bind Reply.expand) unread

/-- Bytes that come later do not change how a command was accepted. -/
theorem Delivers.append {noAck : Bool} {ending : Ending} {left n : Nat}
    {bytes rest : List UInt8} (h : Delivers noAck ending left bytes n (.ok ()) rest)
    (more : List UInt8) : Delivers noAck ending left (bytes ++ more) n (.ok ()) (rest ++ more) := by
  generalize hresult : Except.ok () = result at h
  induction h with
  | spent bytes => cases hresult
  | unanswered mode bytes => exact .unanswered mode _
  | starved mode heard => cases hresult
  | accepted mode heard => exact .accepted mode (takeAck_append heard more)
  | refused mode heard again ih =>
      exact .refused mode (takeAck_append heard more) (ih hresult)

namespace Exchange

variable {π : Type} [Peer π]

/-! ## Delivery -/

/-- Every delivery is told by the stream. -/
theorem exists_delivers (payload : String) (left : Nat) (s : Session π) :
    ∃ n read result s', (deliver payload left).conduct s = (result, s') ∧
      Advances s (List.replicate n (.packet payload)) read s' ∧
      Delivers s.noAck s.ending left (s.stream (List.replicate n (.packet payload))) n result
        s'.incoming := by
  induction left generalizing s with
  | zero =>
      refine ⟨0, [], _, s, rfl, .refl s, ?_⟩
      rw [List.replicate_zero, Session.stream_nil]
      exact .spent s.incoming
  | succ left ih =>
      let t : Transmission := .packet payload
      have hsent : Advances s [t] [] (s.transmit t) := (Advances.refl s).transmit t
      have hready : s.stream [t] = (s.transmit t).incoming := hsent.stream
      rcases Bool.eq_false_or_eq_true s.noAck with hmode | hmode
      · refine ⟨1, [], .ok (), s.transmit t, conduct_deliver_noAck payload left hmode, hsent, ?_⟩
        rw [List.replicate_one, hready]
        exact .unanswered hmode _
      rcases hack : takeAck (s.transmit t).incoming with _ | ⟨accepted, rest⟩
      · have hall : (s.transmit t).incoming = (s.transmit t).incoming ++ [] :=
          (List.append_nil _).symm
        refine ⟨1, _, _, _, conduct_deliver_starved payload left hmode hack, hsent.take hall, ?_⟩
        rw [List.replicate_one, hready]
        exact .starved hmode hack
      obtain ⟨heard, hheard⟩ := suffix_of_takeAck hack
      have htaken := hsent.take hheard.symm
      cases accepted with
      | true =>
          refine ⟨1, _, _, _, conduct_deliver_accepted payload left hmode hack, htaken, ?_⟩
          rw [List.replicate_one, hready]
          exact .accepted hmode hack
      | false =>
          obtain ⟨notes, hagain⟩ := conduct_deliver_refused payload left hmode hack
          let again : Session π := { s.transmit t with incoming := rest, notes }
          obtain ⟨n, read, result, s', hconduct, hadvances, hdelivers⟩ := ih again
          refine ⟨n + 1, [] ++ heard ++ read, result, s', hagain.trans hconduct, ?_, ?_⟩
          · rw [List.replicate_succ]
            exact (htaken.withNotes notes).trans hadvances
          · -- the refusal is the same in front of all that comes later
            have hrefused := takeAck_append hack (reactions again.peer (List.replicate n t)).1
            rw [List.replicate_succ, Session.stream_cons]
            exact .refused hmode hrefused hdelivers

/-! ## Receipt -/

/-- Every receipt is told by the stream. -/
theorem exists_receives (left : Nat) (s : Session π) :
    ∃ us read result s', (receive left).conduct s = (result, s') ∧ Advances s us read s' ∧
      Receives s.noAck s.ending left (s.stream us) us result s'.incoming := by
  induction left generalizing s with
  | zero =>
      refine ⟨[], [], _, s, rfl, .refl s, ?_⟩
      rw [Session.stream_nil]
      exact .spent s.incoming
  | succ left ih =>
      rcases hpacket : takePacket s.incoming with ⟨a, rest⟩
      obtain ⟨read, hread, -⟩ := exists_read_of_takePacket hpacket
      have htaken : Advances s [] read { s with incoming := rest } := (Advances.refl s).take hread
      cases hfailure : a.failure? s.ending with
      | some e =>
          refine ⟨[], read, _, _, conduct_receive_barren left hfailure hpacket, htaken, ?_⟩
          rw [Session.stream_nil]
          exact .barren hpacket hfailure
      | none =>
          obtain ⟨payload, sum, rfl⟩ := Arrival.exists_packet hfailure
          have hlater := takePacket_append hpacket nofun
          by_cases hsum : sum = checksum payload
          · subst hsum
            refine ⟨if s.noAck then [] else [.ack], read, _, _,
              conduct_receive_intact left hpacket, ?_, ?_⟩
            · split
              · exact htaken
              · exact htaken.transmit .ack
            · have hrest : (if s.noAck then { s with incoming := rest }
                  else Session.transmit .ack { s with incoming := rest }).incoming =
                  rest ++ (reactions s.peer (if s.noAck then [] else [.ack])).1 := by
                split
                · exact (List.append_nil rest).symm
                · simp [Session.transmit, reactions]
              rw [hrest]
              exact .intact (hlater _)
          rcases Bool.eq_false_or_eq_true s.noAck with hmode | hmode
          · obtain ⟨notes, hended⟩ := conduct_receive_damaged left hmode hsum hpacket
            refine ⟨[], read, _, _, hended, htaken.withNotes notes, ?_⟩
            rw [Session.stream_nil]
            exact .damaged hmode hpacket hsum
          · obtain ⟨notes, hagain⟩ := conduct_receive_garbled left hmode hsum hpacket
            let heard : Session π := { s with incoming := rest, notes }
            have hnak : Advances s [.nak] read (heard.transmit .nak) :=
              (htaken.withNotes notes).transmit .nak
            obtain ⟨us, more, result, s', hconduct, hadvances, hreceives⟩ :=
              ih (heard.transmit .nak)
            refine ⟨.nak :: us, read ++ more, result, s', hagain.trans hconduct,
              hnak.trans hadvances, ?_⟩
            -- the packet is as damaged in front of all that comes later
            rw [← Session.stream_cons] at hreceives
            exact .repeated hmode (hlater _) hsum hreceives

/-! ## Whole exchanges -/

/-- **Every exchange is told by the stream**, whatever the peer and however it ends. -/
theorem exists_exchanges (payload : String) {s : Session π} (hconnected : s.connected = true) :
    ∃ n us read result s', (exchange payload).conduct s = (result, s') ∧
      Advances s (List.replicate n (.packet payload) ++ us) read s' ∧
      Exchanges s.noAck s.ending (s.stream (List.replicate n (.packet payload) ++ us)) n us result
        s'.incoming := by
  let s₀ := s.withNote ⟨.debug, s!"-> {payload}"⟩
  have hnoted : Advances s [] [] s₀ := (Advances.refl s).withNote _
  rw [conduct_exchange_eq payload hconnected]
  obtain ⟨n, read, delivered, s₁, hdeliver, hsent, hdelivers⟩ :=
    exists_delivers payload maxAttempts s₀
  have hdelivered := hnoted.trans hsent
  rw [hdeliver]
  rcases delivered with e | ⟨⟩
  · refine ⟨n, [], read, .error e, s₁, rfl, ?_, ?_⟩
    · rw [List.append_nil]
      exact hdelivered
    · rw [List.append_nil]
      exact .undelivered hdelivers
  · obtain ⟨us, more, told, s₂, hreceive, hadvances, hreceives⟩ := exists_receives maxAttempts s₁
    have hall := hdelivered.trans hadvances
    have hmode : s₁.noAck = s.noAck := hdelivered.noAck
    have hending : s₁.ending = s.ending := by rw [hdelivered.others]
    rw [hmode, hending] at hreceives
    -- the command is accepted in the same way in front of the reactions to the answers
    have hbehind : Delivers s.noAck s.ending maxAttempts
        (s.stream (List.replicate n (.packet payload) ++ us)) n (.ok ()) (s₁.stream us) := by
      have hmore := hdelivers.append (reactions s₁.peer us).1
      rw [hsent.peer, ← Session.stream_append, ← hsent.peer] at hmore
      exact hmore
    dsimp only
    rw [hreceive]
    rcases told with e | text
    · exact ⟨n, us, read ++ more, .error e, s₂, rfl, hall, .delivered hbehind hreceives⟩
    · exact ⟨n, us, read ++ more, Reply.expand text, _, rfl, hall.withNote _,
        .delivered hbehind hreceives⟩

end Exchange

end AvrConformance.Link
