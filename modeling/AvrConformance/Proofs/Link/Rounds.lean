import AvrConformance.Proofs.Link.Attempts

/-!
# Rounds

A round is an exchange as a session takes it, whatever its peer sends and whatever comes
of it. It is told by what the session reads: the bytes that are **heard** while the
command waits to be accepted, and the **arrivals** scanned behind them. These decide all
that a round transmits (`Round.transmissions`): the command, again after each refusal as
long as there are attempts left, and the answer due to each arrival. Every exchange of a
command is a round (`exists_takes`), and a failed one is all that poisons a session.
-/

namespace AvrConformance.Link

/-! ## What is heard -/

/-- Bytes that are heard before a command is accepted: refusals and noise, up to an
acknowledgement, unless the start of a packet stands for it. -/
def Heard (bytes : List UInt8) : Prop :=
  ∃ front, (∀ b ∈ front, b ≠ packetStart ∧ b ≠ 0x2B) ∧ (bytes = front ∨ bytes = front ++ [0x2B])

namespace Heard

theorem of_noise {noise : List UInt8} (h : Noise noise) : Heard noise :=
  ⟨noise, fun b hb => ⟨(h b hb).1, (h b hb).2.1⟩, .inl rfl⟩

theorem nil : Heard [] := of_noise fun _ hb => absurd hb List.not_mem_nil

theorem accepted {noise : List UInt8} (h : Noise noise) : Heard (noise ++ [0x2B]) :=
  ⟨noise, fun b hb => ⟨(h b hb).1, (h b hb).2.1⟩, .inr rfl⟩

/-- A refusal is followed by what is heard when the command has been sent again. -/
theorem refused {noise later : List UInt8} (h : Noise noise) (hlater : Heard later) :
    Heard (noise ++ [0x2D] ++ later) := by
  obtain ⟨front, hfront, hend⟩ := hlater
  refine ⟨noise ++ [0x2D] ++ front, ?_, ?_⟩
  · intro b hb
    rcases List.mem_append.mp hb with hb | hb
    · rcases List.mem_append.mp hb with hb | hb
      · exact ⟨(h b hb).1, (h b hb).2.1⟩
      · rw [List.mem_singleton.mp hb]
        exact ⟨by decide, by decide⟩
    · exact hfront b hb
  · rcases hend with rfl | rfl
    · exact .inl rfl
    · exact .inr (by rw [← List.append_assoc])

end Heard

theorem Noise.count_refusals {noise : List UInt8} (h : Noise noise) : noise.count 0x2D = 0 :=
  List.count_eq_zero.mpr fun hmem => (h _ hmem).2.2 rfl

/-- How often a command is sent: again after each refusal that is heard, as long as there
are attempts left. -/
def sendings (noAck : Bool) (heard : List UInt8) : Nat :=
  if noAck then 1 else min maxAttempts (heard.count 0x2D + 1)

/-! ## What arrives -/

/-- The transmission due to an arrival while packets are acknowledged. -/
def Arrival.due : Arrival → List Transmission
  | packet payload sum => [if sum = checksum payload then .ack else .nak]
  | oversized => []
  | noTrailer => []
  | ended => []

/-- Nothing is due to what is no packet. -/
theorem Arrival.due_of_failure? {a : Arrival} {ending : Ending} {e : LinkError}
    (h : a.failure? ending = some e) : a.due = [] := by
  cases a with
  | packet payload sum => cases h
  | oversized => rfl
  | noTrailer => rfl
  | ended => rfl

/-- The bytes are those of the arrivals, one after another, of which only the last may be
the end of the stream. -/
inductive Scanned : List UInt8 → List Arrival → Prop
  | nil : Scanned [] []
  | ended {bytes : List UInt8} (last : takePacket bytes = (.ended, [])) : Scanned bytes [.ended]
  | cons {bytes more : List UInt8} {a : Arrival} {arrivals : List Arrival}
      (first : takePacket bytes = (a, [])) (goes : a ≠ .ended) (others : Scanned more arrivals) :
      Scanned (bytes ++ more) (a :: arrivals)

/-- One arrival by itself. -/
theorem Scanned.singleton {bytes : List UInt8} {a : Arrival} (h : takePacket bytes = (a, [])) :
    Scanned bytes [a] := by
  by_cases hended : a = .ended
  · subst hended
    exact .ended h
  · have hone := Scanned.cons h hended .nil
    rwa [List.append_nil] at hone

/-- An undamaged packet. -/
def Arrival.verified : Arrival → Bool
  | packet payload sum => decide (sum = checksum payload)
  | oversized => false
  | noTrailer => false
  | ended => false

/-- What is due to some arrivals acknowledges each undamaged packet, and nothing else. -/
theorem count_ack_due (arrivals : List Arrival) :
    (arrivals.flatMap Arrival.due).count .ack = arrivals.countP Arrival.verified := by
  have hdue : ∀ a : Arrival, a.due.count .ack = if a.verified then 1 else 0 := by
    intro a
    cases a with
    | packet payload sum =>
        by_cases hsum : sum = checksum payload <;> simp [Arrival.due, Arrival.verified, hsum]
    | oversized => rfl
    | noTrailer => rfl
    | ended => rfl
  induction arrivals with
  | nil => rfl
  | cons a arrivals ih =>
      rw [List.flatMap_cons, List.count_append, ih, hdue, List.countP_cons, Nat.add_comm]

def answers (noAck : Bool) (arrivals : List Arrival) : List Transmission :=
  if noAck then [] else arrivals.flatMap Arrival.due

theorem mem_answers {noAck : Bool} {arrivals : List Arrival} {t : Transmission}
    (h : t ∈ answers noAck arrivals) : noAck = false ∧ (t = .ack ∨ t = .nak) := by
  unfold answers at h
  split at h
  · cases h
  · rename_i hmode
    obtain ⟨a, -, hdue⟩ := List.mem_flatMap.mp h
    refine ⟨Bool.eq_false_iff.mpr hmode, ?_⟩
    cases a with
    | packet payload sum =>
        rw [List.mem_singleton.mp hdue]
        split
        · exact .inl rfl
        · exact .inr rfl
    | oversized => cases hdue
    | noTrailer => cases hdue
    | ended => cases hdue

/-- The arrivals end in an undamaged packet, whose expanded payload is the reply. -/
def Brings (arrivals : List Arrival) (reply : String) : Prop :=
  ∃ front payload text, arrivals = front ++ [.packet payload (checksum payload)] ∧
    bytesText? payload = some text ∧ Reply.expand text = .ok reply

/-! ## What an exchange hears and what arrives -/

/-- A delivery hears all that it reads, and is told by the refusals among that how often
to send the command. -/
theorem Delivers.exists_heard {noAck : Bool} {ending : Ending} {left n : Nat}
    {bytes unread : List UInt8} {result : Except LinkError Unit}
    (h : Delivers noAck ending left bytes n result unread) (hmode : noAck = false) :
    ∃ heard, Heard heard ∧ bytes = heard ++ unread ∧ n = min left (heard.count 0x2D + 1) := by
  have honce : ∀ {heard : List UInt8} (left : Nat), heard.count 0x2D = 0 →
      1 = min (left + 1) (heard.count 0x2D + 1) := by
    intro heard left hcount
    omega
  induction h with
  | spent bytes => exact ⟨[], .nil, rfl, (Nat.zero_min _).symm⟩
  | unanswered mode bytes => exact nomatch hmode.symm.trans mode
  | @starved left bytes mode hack =>
      have hnoise := takeAck_eq_none_iff.mp hack
      have hall : bytes = bytes ++ [] := (List.append_nil bytes).symm
      exact ⟨bytes, .of_noise hnoise, hall, honce left hnoise.count_refusals⟩
  | @accepted left bytes rest mode hack =>
      obtain ⟨noise, hnoise, hbytes | ⟨behind, -, hbytes⟩⟩ := takeAck_eq_accepted_iff.mp hack
      · have hcount : (noise ++ [0x2B]).count (0x2D : UInt8) = 0 := by
          rw [List.count_append, hnoise.count_refusals]
          rfl
        refine ⟨noise ++ [0x2B], .accepted hnoise, ?_, honce left hcount⟩
        rw [hbytes, List.append_assoc]
        rfl
      · exact ⟨noise, .of_noise hnoise, hbytes, honce left hnoise.count_refusals⟩
  | @refused left n bytes rest unread result mode hack again ih =>
      obtain ⟨noise, hnoise, hbytes⟩ := takeAck_eq_refused_iff.mp hack
      obtain ⟨later, hlater, hrest, rfl⟩ := ih
      have hcount : (noise ++ [0x2D] ++ later).count (0x2D : UInt8) = later.count 0x2D + 1 := by
        rw [List.count_append, List.count_append, hnoise.count_refusals]
        show 0 + 1 + _ = _
        omega
      refine ⟨noise ++ [0x2D] ++ later, .refused hnoise hlater, ?_, ?_⟩
      · rw [hbytes, hrest]
        simp only [List.append_assoc, List.cons_append, List.nil_append]
      · rw [hcount]
        omega

/-- Without acknowledgements nothing is heard. -/
theorem Delivers.exists_sendings {noAck : Bool} {ending : Ending} {n : Nat}
    {bytes unread : List UInt8} {result : Except LinkError Unit}
    (h : Delivers noAck ending maxAttempts bytes n result unread) :
    ∃ heard, Heard heard ∧ (noAck = true → heard = []) ∧ bytes = heard ++ unread ∧
      n = sendings noAck heard := by
  rcases Bool.eq_false_or_eq_true noAck with hmode | hmode
  · have hnone : sendings noAck [] = 1 := if_pos hmode
    cases h with
    | unanswered mode bytes => exact ⟨[], .nil, fun _ => rfl, rfl, hnone.symm⟩
    | starved mode hack => exact nomatch hmode.symm.trans mode
    | accepted mode hack => exact nomatch hmode.symm.trans mode
    | refused mode hack again => exact nomatch hmode.symm.trans mode
  · obtain ⟨heard, hheard, hbytes, hn⟩ := h.exists_heard hmode
    have hspoken : ¬ noAck = true := by
      rw [hmode]
      decide
    exact ⟨heard, hheard, fun hnoAck => absurd hnoAck hspoken, hbytes,
      hn.trans (if_neg hspoken).symm⟩

/-- A receipt scans all that it reads, answers what is due to the arrivals, and comes to a
reply only by an undamaged packet. -/
theorem Receives.exists_scanned {noAck : Bool} {ending : Ending} {left : Nat}
    {bytes unread : List UInt8} {us : List Transmission} {result : Except LinkError String}
    (h : Receives noAck ending left bytes us result unread) :
    ∃ arrivals scanned, Scanned scanned arrivals ∧ bytes = scanned ++ unread ∧
      us = answers noAck arrivals ∧
      ∀ text, result = .ok text → ∃ front payload,
        arrivals = front ++ [.packet payload (checksum payload)] ∧
          bytesText? payload = some text := by
  induction h with
  | spent bytes => exact ⟨[], [], .nil, rfl, (ite_self []).symm, nofun⟩
  | @barren left bytes rest a e arrives failure =>
      obtain ⟨read, hread, halone⟩ := exists_read_of_takePacket arrives
      have hsilent : answers noAck [a] = [] := by
        simp [answers, Arrival.due_of_failure? failure]
      exact ⟨[a], read, .singleton halone, hread, hsilent.symm, nofun⟩
  | @intact left bytes payload rest arrives =>
      obtain ⟨read, hread, halone⟩ := exists_read_of_takePacket arrives
      have hdue : answers noAck [.packet payload (checksum payload)] =
          if noAck then [] else [.ack] := by
        simp [answers, Arrival.due]
      exact ⟨_, read, .singleton halone, hread, hdue.symm, fun text htext =>
        ⟨[], payload, rfl, readText_eq_ok_iff.mp htext⟩⟩
  | @damaged left bytes payload rest sum mode arrives wrong =>
      obtain ⟨read, hread, halone⟩ := exists_read_of_takePacket arrives
      exact ⟨_, read, .singleton halone, hread, (if_pos mode).symm, nofun⟩
  | @repeated left bytes payload rest unread sum us result mode arrives wrong again ih =>
      obtain ⟨read, hread, halone⟩ := exists_read_of_takePacket arrives
      obtain ⟨arrivals, scanned, hscanned, hrest, hus, htold⟩ := ih
      have hdue : answers noAck (.packet payload sum :: arrivals) =
          .nak :: answers noAck arrivals := by
        simp [answers, mode, Arrival.due, wrong]
      refine ⟨.packet payload sum :: arrivals, read ++ scanned, .cons halone nofun hscanned, ?_,
        ?_, ?_⟩
      · rw [hread, hrest, List.append_assoc]
      · rw [hdue, hus]
      · intro text htext
        obtain ⟨front, last, rfl, hlast⟩ := htold text htext
        exact ⟨_ :: front, last, rfl, hlast⟩

/-- What is heard and what arrives is all that an exchange reads, and decides all that it
transmits. -/
theorem Exchanges.exists_traffic {noAck : Bool} {ending : Ending} {bytes unread : List UInt8}
    {n : Nat} {us : List Transmission} {result : Except LinkError String}
    (h : Exchanges noAck ending bytes n us result unread) :
    ∃ heard arrivals scanned, Heard heard ∧ (noAck = true → heard = []) ∧
      Scanned scanned arrivals ∧ bytes = heard ++ scanned ++ unread ∧
      n = sendings noAck heard ∧ us = answers noAck arrivals ∧
      ∀ reply, result = .ok reply → Brings arrivals reply := by
  cases h with
  | undelivered delivery =>
      -- a command that is not delivered is followed by nothing
      obtain ⟨heard, hheard, hunheard, hbytes, hn⟩ := delivery.exists_sendings
      refine ⟨heard, [], [], hheard, hunheard, .nil, ?_, hn, (ite_self []).symm, nofun⟩
      rw [List.append_nil]
      exact hbytes
  | @delivered _ _ _ _ told delivery receipt =>
      obtain ⟨heard, hheard, hunheard, hbytes, hn⟩ := delivery.exists_sendings
      obtain ⟨arrivals, scanned, hscanned, hrest, hus, htold⟩ := receipt.exists_scanned
      refine ⟨heard, arrivals, scanned, hheard, hunheard, hscanned, ?_, hn, hus, ?_⟩
      · rw [hbytes, hrest, List.append_assoc]
      · intro reply hreply
        cases told with
        | error e => cases hreply
        | ok text =>
            obtain ⟨front, payload, harrivals, hpayload⟩ := htold text rfl
            exact ⟨front, payload, text, harrivals, hpayload, hreply⟩

namespace Exchange

variable {π : Type} [Peer π]

/-- A command is exchanged, and a failure is remembered. -/
theorem conduct_transact_eq (c : Command) (s : Session π) :
    (transact c).conduct s =
      match (exchange c.payload).conduct s with
      | (.ok reply, s) => (.ok reply, s)
      | (.error e, s) => (.error e, { s with poisoned := true }) := by
  simp only [transact, conduct_bind, conduct_outcome]
  rcases (exchange c.payload).conduct s with ⟨e | reply, s'⟩ <;> rfl

/-- What is heard and what arrives during an exchange decide all that it transmits. -/
theorem exchange_advances (payload : String) {s : Session π} (hconnected : s.connected = true) :
    ∃ heard arrivals scanned, Heard heard ∧ (s.noAck = true → heard = []) ∧
      Scanned scanned arrivals ∧
      Advances s
        (List.replicate (sendings s.noAck heard) (.packet payload) ++ answers s.noAck arrivals)
        (heard ++ scanned) ((exchange payload).conduct s).2 ∧
      ∀ reply, ((exchange payload).conduct s).1 = .ok reply → Brings arrivals reply := by
  obtain ⟨n, us, read, result, s', hconduct, hadvances, hexchanges⟩ :=
    exists_exchanges payload hconnected
  obtain ⟨heard, arrivals, scanned, hheard, hunheard, hscanned, hstream, rfl, rfl, htold⟩ :=
    hexchanges.exists_traffic
  have hread : read = heard ++ scanned :=
    List.append_cancel_right (hadvances.stream.symm.trans hstream)
  subst hread
  rw [hconduct]
  exact ⟨heard, arrivals, scanned, hheard, hunheard, hscanned, hadvances, htold⟩

end Exchange

/-! ## Rounds -/

/-- An exchange as a session takes it. -/
structure Round where
  command : Command
  /-- Is the session connected? Otherwise nothing is read or transmitted. -/
  connected : Bool
  noAck : Bool
  heard : List UInt8
  arrivals : List Arrival
  result : Except LinkError String

namespace Round

def transmissions (r : Round) : List Transmission :=
  if r.connected then
    List.replicate (sendings r.noAck r.heard) (.packet r.command.payload)
      ++ answers r.noAck r.arrivals
  else []

theorem mem_transmissions {r : Round} {t : Transmission} (h : t ∈ r.transmissions) :
    t = .packet r.command.payload ∨ (r.noAck = false ∧ (t = .ack ∨ t = .nak)) := by
  unfold transmissions at h
  split at h
  · exact (List.mem_append.mp h).imp List.eq_of_mem_replicate mem_answers
  · cases h

def failed (r : Round) : Bool :=
  match r.result with
  | .ok _ => false
  | .error _ => true

theorem failed_eq_true_iff {r : Round} : r.failed = true ↔ ∃ e, r.result = .error e := by
  unfold failed
  cases r.result <;> simp

theorem failed_eq_false_iff {r : Round} : r.failed = false ↔ ∃ reply, r.result = .ok reply := by
  unfold failed
  cases r.result <;> simp

end Round

/-- A session takes a round, and is poisoned if the exchange fails. -/
structure Takes {π : Type} [Peer π] (s : Session π) (r : Round) (s' : Session π) : Prop where
  conduct : (Exchange.transact r.command).conduct s = (r.result, s')
  connected : r.connected = s.connected
  mode : r.noAck = s.noAck
  heard : Heard r.heard
  unheard : r.noAck = true → r.heard = []
  idle : r.connected = false → r.heard = [] ∧ r.arrivals = []
  /-- The bytes that are read are those that are heard and those that are scanned. -/
  traffic : ∃ scanned, Scanned scanned r.arrivals ∧
    Advances s r.transmissions (r.heard ++ scanned) { s' with poisoned := s.poisoned }
  poisoned : s'.poisoned = (s.poisoned || r.failed)
  told : ∀ reply, r.result = .ok reply → Brings r.arrivals reply

section Takes

variable {π : Type} [Peer π]

/-- An exchange does not let go of the connection, even if it fails. -/
theorem Takes.kept {r : Round} {s s' : Session π} (h : Takes s r s') :
    s'.connected = s.connected := by
  obtain ⟨scanned, -, hadvances⟩ := h.traffic
  exact hadvances.connected

/-- Nor does it change the mode by itself. -/
theorem Takes.sameMode {r : Round} {s s' : Session π} (h : Takes s r s') : s'.noAck = s.noAck := by
  obtain ⟨scanned, -, hadvances⟩ := h.traffic
  exact hadvances.noAck

theorem Takes.sent {r : Round} {s s' : Session π} (h : Takes s r s') :
    s'.sent.toList = s.sent.toList ++ r.transmissions := by
  obtain ⟨scanned, -, hadvances⟩ := h.traffic
  exact hadvances.sent

/-- What an exchange hears and scans stands first in the stream. The session that it leaves
has the rest to read. -/
theorem Takes.stream_append {r : Round} {s s' : Session π} (h : Takes s r s') :
    ∃ scanned, Scanned scanned r.arrivals ∧ ∀ ts : List Transmission,
      s.stream (r.transmissions ++ ts) = r.heard ++ scanned ++ s'.stream ts := by
  obtain ⟨scanned, hscanned, hadvances⟩ := h.traffic
  have hpeer : s'.peer = (reactions s.peer r.transmissions).2 := hadvances.peer
  have hread : s.stream r.transmissions = r.heard ++ scanned ++ s'.incoming := hadvances.stream
  refine ⟨scanned, hscanned, fun ts => ?_⟩
  rw [Session.stream_append, hread, ← hpeer, List.append_assoc]
  rfl

/-- With acknowledgements, each undamaged packet that is scanned is acknowledged once. -/
theorem Takes.count_ack {r : Round} {s s' : Session π} (h : Takes s r s')
    (hmode : r.noAck = false) :
    r.transmissions.count .ack = r.arrivals.countP Arrival.verified := by
  unfold Round.transmissions
  rcases Bool.eq_false_or_eq_true r.connected with hconnected | hconnected
  · have hpackets : (List.replicate (sendings r.noAck r.heard)
        (Transmission.packet r.command.payload)).count .ack = 0 :=
      List.count_eq_zero.mpr fun hmem => nomatch List.eq_of_mem_replicate hmem
    rw [if_pos hconnected, List.count_append, hpackets, Nat.zero_add, answers, hmode]
    exact count_ack_due r.arrivals
  · rw [hconnected, (h.idle hconnected).2]
    rfl

/-- An exchange that changes nothing but the traffic is a round of the command. -/
theorem takes_of_exchange {r : Round} {s s₁ : Session π} {scanned : List UInt8}
    (hexchange : (Exchange.exchange r.command.payload).conduct s = (r.result, s₁))
    (hconnected : r.connected = s.connected) (hmode : r.noAck = s.noAck) (hheard : Heard r.heard)
    (hunheard : r.noAck = true → r.heard = [])
    (hidle : r.connected = false → r.heard = [] ∧ r.arrivals = [])
    (hscanned : Scanned scanned r.arrivals)
    (hadvances : Advances s r.transmissions (r.heard ++ scanned) s₁)
    (htold : ∀ reply, r.result = .ok reply → Brings r.arrivals reply) :
    Takes s r ((Exchange.transact r.command).conduct s).2 := by
  have hkept : s₁.poisoned = s.poisoned := by rw [hadvances.others]
  have htransact : (Exchange.transact r.command).conduct s =
      (r.result, { s₁ with poisoned := s.poisoned || r.failed }) := by
    rw [Exchange.conduct_transact_eq, hexchange]
    cases hresult : r.result with
    | ok reply => simp [Round.failed, hresult, ← hkept]
    | error e => simp [Round.failed, hresult]
  have hsame : { s₁ with poisoned := s.poisoned } = s₁ := by rw [← hkept]
  rw [htransact]
  exact {
    conduct := htransact
    connected := hconnected
    mode := hmode
    heard := hheard
    unheard := hunheard
    idle := hidle
    traffic := ⟨scanned, hscanned, by rw [hsame]; exact hadvances⟩
    poisoned := rfl
    told := htold }

/-- **Every exchange is a round.** -/
theorem exists_takes (c : Command) (s : Session π) :
    ∃ r, r.command = c ∧ Takes s r ((Exchange.transact c).conduct s).2 := by
  rcases Bool.eq_false_or_eq_true s.connected with hconnected | hconnected
  · obtain ⟨heard, arrivals, scanned, hheard, hunheard, hscanned, hadvances, htold⟩ :=
      Exchange.exchange_advances c.payload hconnected
    let r : Round :=
      ⟨c, s.connected, s.noAck, heard, arrivals, ((Exchange.exchange c.payload).conduct s).1⟩
    have htransmissions : r.transmissions =
        List.replicate (sendings s.noAck heard) (.packet c.payload) ++
          answers s.noAck arrivals := if_pos hconnected
    rw [← htransmissions] at hadvances
    have hbusy : r.connected = false → r.heard = [] ∧ r.arrivals = [] := fun hidle =>
      absurd (hconnected.symm.trans hidle) (by decide)
    exact ⟨r, rfl, takes_of_exchange rfl rfl rfl hheard hunheard hbusy hscanned hadvances htold⟩
  · let r : Round := ⟨c, false, s.noAck, [], [], .error .notConnected⟩
    have hadvances : Advances s r.transmissions [] s := Advances.refl s
    exact ⟨r, rfl, takes_of_exchange
      (Exchange.conduct_exchange_of_not_connected c.payload hconnected) hconnected.symm rfl .nil
      (fun _ => rfl) (fun _ => ⟨rfl, rfl⟩) .nil hadvances nofun⟩

end Takes

/-! ## Rounds in turn -/

/-- Is this the round by which acknowledgements are done without from then on? -/
def Round.hushes (r : Round) : Bool :=
  match r.result with
  | .ok reply => decide (r.command = .startNoAck ∧ reply = "OK")
  | .error _ => false

/-- From the one session to the other, these rounds are taken in turn. Between them the
session may write its log, and may let go of its connection. -/
inductive Rounds {π : Type} [Peer π] : Session π → List Round → Session π → Prop
  | nil (s : Session π) : Rounds s [] s
  | taken {s s₁ s' : Session π} {r : Round} {rs : List Round} (first : Takes s r s₁)
      (others : Rounds { s₁ with noAck := s₁.noAck || r.hushes } rs s') : Rounds s (r :: rs) s'
  | noted {s s' : Session π} {rs : List Round} (notes : Array Note)
      (others : Rounds { s with notes } rs s') : Rounds s rs s'
  | parted {s s' : Session π} {rs : List Round}
      (others : Rounds { s with connected := false } rs s') : Rounds s rs s'

namespace Rounds

variable {π : Type} [Peer π] {s s' s'' : Session π} {rs more : List Round}

theorem trans (h : Rounds s rs s') (h' : Rounds s' more s'') : Rounds s (rs ++ more) s'' := by
  induction h with
  | nil s => exact h'
  | taken first _ ih => exact .taken first (ih h')
  | noted notes _ ih => exact .noted notes (ih h')
  | parted _ ih => exact .parted (ih h')

/-- One round, unless acknowledgements are done without from then on. -/
theorem single {r : Round} (h : Takes s r s') (hhushes : r.hushes = false) :
    Rounds s [r] s' := by
  refine .taken h ?_
  rw [hhushes, Bool.or_false]
  exact .nil s'

theorem note (s : Session π) (notes : Array Note) : Rounds s [] { s with notes } :=
  .noted notes (.nil _)

theorem exists_takes_of_mem (h : Rounds s rs s') :
    ∀ r ∈ rs, ∃ s₁ s₂ : Session π, Takes s₁ r s₂ := by
  induction h with
  | nil s => exact fun r hr => absurd hr List.not_mem_nil
  | taken first _ ih => exact List.forall_mem_cons.mpr ⟨⟨_, _, first⟩, ih⟩
  | noted _ _ ih => exact ih
  | parted _ ih => exact ih

/-- Nothing is transmitted but what the rounds do. -/
theorem sent (h : Rounds s rs s') :
    s'.sent.toList = s.sent.toList ++ rs.flatMap Round.transmissions := by
  induction h with
  | nil s => exact (List.append_nil _).symm
  | taken first _ ih =>
      dsimp only at ih
      rw [ih, first.sent, List.flatMap_cons, List.append_assoc]
  | noted _ _ ih => exact ih
  | parted _ ih => exact ih

/-- A session is poisoned once a round has failed, and stays so. -/
theorem poisoned (h : Rounds s rs s') :
    s'.poisoned = (s.poisoned || rs.any Round.failed) := by
  induction h with
  | nil s => exact (Bool.or_false _).symm
  | taken first _ ih =>
      have hfirst := first.poisoned
      dsimp only at ih
      rw [ih, hfirst, List.any_cons, Bool.or_assoc]
  | noted _ _ ih => exact ih
  | parted _ ih => exact ih

/-- Each round is taken in the mode that the rounds before it have led to. -/
theorem mode (h : Rounds s rs s') {front behind : List Round} {r : Round}
    (hsplit : rs = front ++ r :: behind) : r.noAck = (s.noAck || front.any Round.hushes) := by
  induction h generalizing front with
  | nil s =>
      have hsome : front ++ r :: behind ≠ [] :=
        List.append_ne_nil_of_right_ne_nil front (List.cons_ne_nil r behind)
      exact absurd hsplit.symm hsome
  | @taken s s₁ s' first rs htakes _ ih =>
      cases front with
      | nil =>
          obtain ⟨rfl, -⟩ := List.cons.inj hsplit
          rw [List.any_nil, Bool.or_false]
          exact htakes.mode
      | cons x front =>
          obtain ⟨rfl, hrest⟩ := List.cons.inj hsplit
          rw [ih hrest, htakes.sameMode, List.any_cons, Bool.or_assoc]
  | noted _ _ ih => exact ih hsplit
  | parted _ ih => exact ih hsplit

/-- Acknowledgements are done without for good. -/
theorem noAck_of_hushed (h : Rounds s rs s') {front behind : List Round}
    (hsplit : rs = front ++ behind) (hhushed : front.any Round.hushes = true) :
    ∀ r ∈ behind, r.noAck = true := by
  intro r hr
  obtain ⟨between, rest, rfl⟩ := List.append_of_mem hr
  have hmode := h.mode (hsplit.trans (List.append_assoc front between (r :: rest)).symm)
  rw [hmode, List.any_append, hhushed, Bool.true_or, Bool.or_true]

end Rounds

end AvrConformance.Link
