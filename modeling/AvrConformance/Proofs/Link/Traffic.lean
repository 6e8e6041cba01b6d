import AvrConformance.Link.Exchange

/-!
# Traffic

All that passes between a session and its peer is what the session transmits and what
it reads. A peer reacts to each transmission, and its reactions join the bytes that lie
ready; so two facts account for the traffic of any part of a session: which
transmissions it adds, and which bytes it takes off the stream (`Advances`). The account
of one part after another is the sum of theirs (`Advances.trans`).
-/

namespace AvrConformance.Link

section Reactions

variable {π : Type} [Peer π]

/-- What a peer sends in reaction to some transmissions, and the peer afterwards. -/
def reactions (peer : π) : List Transmission → List UInt8 × π
  | [] => ([], peer)
  | t :: ts =>
    let (fresh, peer) := Peer.react peer t
    let (more, peer) := reactions peer ts
    (fresh ++ more, peer)

theorem reactions_append (peer : π) (ts us : List Transmission) :
    reactions peer (ts ++ us) =
      ((reactions peer ts).1 ++ (reactions (reactions peer ts).2 us).1,
        (reactions (reactions peer ts).2 us).2) := by
  induction ts generalizing peer with
  | nil => rfl
  | cons t ts ih => simp only [List.cons_append, reactions, ih, List.append_assoc]

/-- A peer whose bytes lie ready from the start does not react. -/
@[simp] theorem reactions_unit (ts : List Transmission) : reactions () ts = ([], ()) := by
  induction ts with
  | nil => rfl
  | cons t ts ih => simp only [reactions, Peer.react, ih, List.append_nil]

/-- The bytes that a session has to read if this is what it transmits. -/
def Session.stream (s : Session π) (ts : List Transmission) : List UInt8 :=
  s.incoming ++ (reactions s.peer ts).1

theorem Session.stream_nil (s : Session π) : s.stream [] = s.incoming := List.append_nil _

/-- The reaction to the first transmission lies ready once it is made. -/
theorem Session.stream_cons (t : Transmission) (ts : List Transmission) (s : Session π) :
    s.stream (t :: ts) = (s.transmit t).stream ts := by
  simp only [Session.stream, reactions, Session.transmit, Session.enqueue_eq, List.append_assoc]

/-- If a peer does not react, the stream is what lies ready from the start. -/
theorem Session.stream_unit (s : Session Unit) (ts : List Transmission) :
    s.stream ts = s.incoming := by
  rw [Session.stream, reactions_unit, List.append_nil]

/-- The reactions to later transmissions come later in the stream. -/
theorem Session.stream_append (s : Session π) (ts us : List Transmission) :
    s.stream (ts ++ us) = s.stream ts ++ (reactions (reactions s.peer ts).2 us).1 := by
  rw [Session.stream, reactions_append, ← List.append_assoc]
  rfl

end Reactions

/-! ## The account of a part of a session -/

/-- From the one session to the other, these are the transmissions and these the bytes
that are read. All else but the log is as it was. -/
structure Advances {π : Type} [Peer π] (s : Session π) (ts : List Transmission)
    (read : List UInt8) (s' : Session π) : Prop where
  sent : s'.sent.toList = s.sent.toList ++ ts
  /-- What lay ready and what came in reaction is what was read and what is left. -/
  stream : s.incoming ++ (reactions s.peer ts).1 = read ++ s'.incoming
  peer : s'.peer = (reactions s.peer ts).2
  others : s' = { s with
    incoming := s'.incoming, peer := s'.peer, sent := s'.sent, notes := s'.notes }

namespace Advances

variable {π : Type} [Peer π] {s s' s'' : Session π} {ts us : List Transmission}
  {read more rest : List UInt8}

theorem connected (h : Advances s ts read s') : s'.connected = s.connected := by
  rw [h.others]

theorem noAck (h : Advances s ts read s') : s'.noAck = s.noAck := by
  rw [h.others]

/-- What is left unread, if it is known what lay behind the bytes that are read. -/
theorem incoming_eq (h : Advances s ts read s') (hs : s.incoming = read ++ rest) :
    s'.incoming = rest ++ (reactions s.peer ts).1 := by
  have hstream := h.stream
  rw [hs, List.append_assoc] at hstream
  exact (List.append_cancel_left hstream).symm

theorem trans (h : Advances s ts read s') (h' : Advances s' us more s'') :
    Advances s (ts ++ us) (read ++ more) s'' where
  sent := by rw [h'.sent, h.sent, List.append_assoc]
  stream := by
    have hlater := h'.stream
    rw [h.peer] at hlater
    rw [reactions_append, ← List.append_assoc, h.stream, List.append_assoc, hlater,
      List.append_assoc]
  peer := by rw [h'.peer, h.peer, reactions_append]
  others := by
    have hothers := h'.others
    rw [h.others] at hothers
    exact hothers

theorem refl (s : Session π) : Advances s [] [] s :=
  ⟨(List.append_nil _).symm, List.append_nil _, rfl, rfl⟩

/-- The log is beside the point. -/
theorem withNotes (h : Advances s ts read s') (notes : Array Note) :
    Advances s ts read { s' with notes } where
  sent := h.sent
  stream := h.stream
  peer := h.peer
  others := by rw [h.others]

theorem withNote (h : Advances s ts read s') (n : Note) : Advances s ts read (s'.withNote n) :=
  h.withNotes (s'.notes.push n)

theorem take (h : Advances s ts read s') (hs : s'.incoming = more ++ rest) :
    Advances s ts (read ++ more) { s' with incoming := rest } where
  sent := h.sent
  stream := by rw [h.stream, hs, List.append_assoc]
  peer := h.peer
  others := by rw [h.others]

theorem transmit (h : Advances s ts read s') (t : Transmission) :
    Advances s (ts ++ [t]) read (s'.transmit t) := by
  have hstep : Advances s' [t] [] (s'.transmit t) :=
    ⟨by simp [Session.transmit], by simp [Session.transmit, reactions], rfl, rfl⟩
  have hboth := h.trans hstep
  rwa [List.append_nil] at hboth

end Advances

end AvrConformance.Link
