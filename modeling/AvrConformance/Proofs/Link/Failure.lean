import AvrConformance.Proofs.Link.Lifetime

/-!
# Failed exchanges

A failed exchange is remembered, but it is only a farewell that heeds it: every other
request is answered as if nothing had failed (`Blind`). Whether it can succeed is up to
the peer. It fails for want of a packet, if none lies unread and none is sent any more
(`exists_sent_of_request`); but a late reply is taken for its answer, whether it lay
unread already or comes when the next command goes out (`answers_after_failure_stale`).
-/

namespace AvrConformance.Link

variable {π α β : Type}

section Stream

variable [Peer π] {s s' : Session π} {rs : List Round}

/-! ## What a request can be answered by -/

theorem packetStart_mem_of_scanned {bytes payload : List UInt8} {arrivals : List Arrival}
    {sum : UInt8} (h : Scanned bytes arrivals) (hpacket : .packet payload sum ∈ arrivals) :
    packetStart ∈ bytes := by
  induction h with
  | nil => cases hpacket
  | ended _ => cases List.mem_singleton.mp hpacket
  | cons first _ _ ih =>
      rcases List.mem_cons.mp hpacket with rfl | hlater
      · obtain ⟨gap, _, _, -, rfl, -⟩ := takePacket_eq_packet_iff.mp first
        exact List.mem_append_left _ (List.mem_append_right gap List.mem_cons_self)
      · exact List.mem_append_right _ (ih hlater)

/-- An exchange with a reply scans a packet. -/
theorem Takes.packetStart_mem {r : Round} {scanned : List UInt8} (h : Takes s r s')
    (hscanned : Scanned scanned r.arrivals) (hanswered : r.failed = false) :
    packetStart ∈ scanned := by
  obtain ⟨reply, hreply⟩ := Round.failed_eq_false_iff.mp hanswered
  obtain ⟨front, payload, _, harrivals, -⟩ := h.told reply hreply
  have hpacket : .packet payload (checksum payload) ∈ r.arrivals := by
    rw [harrivals]
    exact List.mem_append_right front List.mem_cons_self
  exact packetStart_mem_of_scanned hscanned hpacket

/-- Every reply was among the bytes that lay unread or came in reaction. -/
theorem Rounds.packetStart_mem (h : Rounds s rs s') {r : Round} (hr : r ∈ rs)
    (hanswered : r.failed = false) :
    packetStart ∈ s.stream (rs.flatMap Round.transmissions) := by
  induction h with
  | nil s => cases hr
  | taken first _ ih =>
      obtain ⟨scanned, hscanned, hstream⟩ := first.stream_append
      rw [List.flatMap_cons, hstream]
      rcases List.mem_cons.mp hr with rfl | hr
      · have hmem := first.packetStart_mem hscanned hanswered
        exact List.mem_append_left _ (List.mem_append_right _ hmem)
      · exact List.mem_append_right _ (ih hr)
  | noted _ _ ih => exact ih hr
  | parted _ ih => exact ih hr

/-- A request that calls for an exchange fails if, at some moment before, no packet lies
unread and none is sent from then on. -/
theorem exists_sent_of_request (more : List Request) {q : Request} (hq : q ≠ .close)
    (hcommands : q.commands ≠ []) (s : Session π) :
    ∃ ts, (Session.target q (s.through more)).2.sent.toList = s.sent.toList ++ ts ∧
      (packetStart ∉ s.stream ts →
        ∃ e, (Session.target q (s.through more)).1 = .error e) := by
  obtain ⟨before, hbefore, -⟩ := exists_rounds_through more s
  obtain ⟨rs, hserves, hsome⟩ := exists_serves hq (s.through more)
  have hrounds := hbefore.trans hserves.rounds
  refine ⟨_, hrounds.sent, fun hnever => ?_⟩
  cases houtcome : (Session.target q (s.through more)).1 with
  | error e => exact ⟨e, rfl⟩
  | ok reply =>
      obtain ⟨r, rest, rfl⟩ := List.exists_cons_of_ne_nil (hsome hcommands)
      have hanswered := hserves.went_of_ok houtcome r List.mem_cons_self
      have hmem := hrounds.packetStart_mem
        (List.mem_append_right before List.mem_cons_self) hanswered
      exact absurd hmem hnever

end Stream

/-! ## Who heeds a failure -/

/-- A session without the mark of a failure. -/
def Session.unmarked (s : Session π) : Session π := { s with poisoned := false }

/-- Sessions that differ in nothing but the mark. -/
theorem Session.eq_of_unmarked {s t : Session π} (h : s.unmarked = t.unmarked) :
    t = { s with poisoned := t.poisoned } := by
  cases s
  cases t
  injection h with h₁ h₂ h₃ h₄ h₅ h₆ h₇ h₈ h₉
  subst h₁ h₂ h₃ h₄ h₅ h₆ h₈ h₉
  rfl

/-- A step whose result does not depend on whether an exchange has failed before. Nor
does the session that it leaves, up to the mark itself. -/
def Blind (x : Exchange π α) : Prop :=
  ∀ s t : Session π, s.unmarked = t.unmarked →
    (x.conduct s).1 = (x.conduct t).1 ∧ (x.conduct s).2.unmarked = (x.conduct t).2.unmarked

namespace Blind

theorem of_mark {x : Exchange π α}
    (h : ∀ (s : Session π) (poisoned : Bool),
      (x.conduct s).1 = (x.conduct { s with poisoned }).1 ∧
        (x.conduct s).2.unmarked = (x.conduct { s with poisoned }).2.unmarked) : Blind x := by
  intro s t hst
  rw [Session.eq_of_unmarked hst]
  exact h s t.poisoned

theorem done (a : α) : Blind (pure a : Exchange π α) := fun _ _ h => ⟨rfl, h⟩

theorem fail (e : LinkError) : Blind (.fail e : Exchange π α) := fun _ _ h => ⟨rfl, h⟩

theorem ofExcept (x : Except LinkError α) : Blind (.ofExcept x : Exchange π α) := by
  cases x with
  | ok a => exact .done a
  | error e => exact .fail e

theorem bind {x : Exchange π α} {f : α → Exchange π β} (hx : Blind x) (hf : ∀ a, Blind (f a)) :
    Blind (x >>= f) := by
  intro s t h
  obtain ⟨hresult, hleft⟩ := hx s t h
  rw [Exchange.conduct_bind, Exchange.conduct_bind]
  generalize x.conduct s = outcome at hresult hleft ⊢
  generalize x.conduct t = outcome' at hresult hleft ⊢
  obtain ⟨result, s₁⟩ := outcome
  obtain ⟨result', t₁⟩ := outcome'
  obtain rfl : result = result' := hresult
  cases result with
  | ok a => exact hf a s₁ t₁ hleft
  | error e => exact ⟨rfl, hleft⟩

theorem outcome {x : Exchange π α} (hx : Blind x) : Blind x.outcome := by
  intro s t h
  obtain ⟨hresult, hleft⟩ := hx s t h
  exact ⟨congrArg Except.ok hresult, hleft⟩

/-- Looking at a session is blind if nothing is made of the mark. -/
theorem look {f : Session π → Exchange π α}
    (hf : ∀ (s : Session π) (poisoned : Bool), f s = f { s with poisoned })
    (hblind : ∀ s, Blind (f s)) : Blind (.look >>= f) := by
  intro s t h
  have hsame : f s = f t := by
    rw [Session.eq_of_unmarked h]
    exact hf s t.poisoned
  show ((f s).conduct s).1 = ((f t).conduct t).1 ∧
    ((f s).conduct s).2.unmarked = ((f t).conduct t).2.unmarked
  rw [hsame]
  exact hblind t s t h

theorem ite {c : Prop} [Decidable c] {x y : Exchange π α} (hx : Blind x) (hy : Blind y) :
    Blind (if c then x else y) := by
  split
  · exact hx
  · exact hy

/-! ### Exchanges -/

theorem note (level : Level) (message : String) :
    Blind (Exchange.note level message : Exchange π Unit) := .of_mark fun _ _ => ⟨rfl, rfl⟩

theorem starve : Blind (.starve : Exchange π α) := .of_mark fun _ _ => ⟨rfl, rfl⟩

theorem awaitPacket : Blind (.awaitPacket : Exchange π Arrival) := .of_mark fun _ _ => ⟨rfl, rfl⟩

theorem awaitAck : Blind (.awaitAck : Exchange π Bool) := by
  refine .look (fun _ _ => rfl) fun s => ?_
  rcases takeAck s.incoming with _ | ⟨accepted, rest⟩
  · exact .starve
  · exact .bind (.of_mark fun _ _ => ⟨rfl, rfl⟩) fun _ => .done accepted

variable [Peer π]

theorem write (t : Transmission) : Blind (.write t : Exchange π Unit) :=
  .of_mark fun _ _ => ⟨rfl, rfl⟩

theorem deliver (payload : String) (left : Nat) :
    Blind (.deliver payload left : Exchange π Unit) := by
  induction left with
  | zero => exact .fail _
  | succ left ih =>
      refine .bind (.write _) fun _ => .look (fun _ _ => rfl) fun s => .ite (.done ()) ?_
      exact .bind .awaitAck fun accepted => .ite (.done ()) (.bind (.note _ _) fun _ => ih)

theorem accept (payload : List UInt8) : Blind (.accept payload : Exchange π String) := by
  have hthen : ∀ {x : Exchange π String} (s : Session π), Blind x →
      Blind (if s.noAck then (pure () >>= fun _ => x) else (.write .ack >>= fun _ => x)) :=
    fun s hx => .ite (.bind (.done ()) fun _ => hx) (.bind (.write .ack) fun _ => hx)
  unfold Exchange.accept
  cases bytesText? payload with
  | some text => exact .look (fun _ _ => rfl) fun s => hthen s (.done text)
  | none => exact .look (fun _ _ => rfl) fun s => hthen s (.fail _)

theorem receive (left : Nat) : Blind (.receive left : Exchange π String) := by
  induction left with
  | zero => exact .fail _
  | succ left ih =>
      refine .bind .awaitPacket fun arrival => ?_
      cases arrival with
      | ended => exact .starve
      | oversized => exact .fail _
      | noTrailer => exact .fail _
      | packet payload sum =>
          refine .ite (.accept payload) (.bind (.note _ _) fun _ => ?_)
          exact .look (fun _ _ => rfl) fun s => .ite (.fail _) (.bind (.write .nak) fun _ => ih)

theorem exchange (payload : String) : Blind (.exchange payload : Exchange π String) := by
  refine .look (fun _ _ => rfl) fun s => .ite ?_ (.fail _)
  refine .bind (.note _ _) fun _ => .bind (.deliver _ _) fun _ => .bind (.receive _) fun reply => ?_
  exact .bind (.note _ _) fun _ => .ofExcept _

/-- An exchange of a command sets the mark, and does not see it. -/
theorem transact (c : Command) : Blind (.transact c : Exchange π String) := by
  refine .bind (.outcome (.exchange c.payload)) fun result => ?_
  cases result with
  | ok reply => exact .done reply
  | error e => exact .bind (.of_mark fun _ _ => ⟨rfl, rfl⟩) fun _ => .fail e

/-! ### Requests -/

theorem readMemory (address : UInt32) (count : Nat) :
    Blind (.readMemory address count : Exchange π (List UInt8)) := by
  unfold Exchange.readMemory
  generalize transfers count = left
  induction left generalizing address count with
  | zero => exact .done []
  | succ left ih =>
      refine .bind (.transact _) fun reply => .bind (.ofExcept _) fun chunk => .ite ?_ (.fail _)
      exact .bind (ih _ _) fun rest => .done _

theorem writeMemory (address : UInt32) (data : List UInt8) :
    Blind (.writeMemory address data : Exchange π Unit) := by
  unfold Exchange.writeMemory
  generalize transfers data.length = left
  induction left generalizing address data with
  | zero => exact .done ()
  | succ left ih =>
      exact .bind (.transact _) fun reply => .bind (.ofExcept _) fun _ => ih _ _

/-- Only a farewell heeds a failure. -/
theorem serve {q : Request} (hq : q ≠ .close) : Blind (.serve q : Exchange π q.Reply) := by
  cases q with
  | close => exact absurd rfl hq
  | readMemory address count => exact .readMemory address count
  | writeMemory address data => exact .writeMemory address data
  | readRegisters => exact .bind (.transact _) fun _ => .ofExcept _
  | writeRegisters registers => exact .bind (.transact _) fun _ => .ofExcept _
  | resume signal => exact .bind (.transact _) fun _ => .ofExcept _
  | step => exact .bind (.transact _) fun _ => .ofExcept _

theorem through {requests : List Request} (h : .close ∉ requests) {s t : Session π}
    (hst : s.unmarked = t.unmarked) :
    (s.through requests).unmarked = (t.through requests).unmarked := by
  induction requests generalizing s t with
  | nil => exact hst
  | cons q requests ih =>
      have hq : q ≠ .close := fun hq => h (hq ▸ List.mem_cons_self)
      have hleft := (Blind.serve hq s t hst).2
      exact ih (fun hmem => h (List.mem_cons_of_mem q hmem)) hleft

end Blind

/-! ## The whole -/

/-- **After a failure.** In every session, whatever its peer, the mark tells whether an
exchange has failed. Whether or not one has, every later request but a farewell is answered
as if none had. If it calls for an exchange, it fails as long as no start of a packet lies
unread, and none is sent in reaction to what is transmitted from then on. -/
theorem answers_after_failure [Peer π] (address : String) (incoming : List UInt8)
    (ending : Ending) (peer : π) (wantNoAck : Bool) (requests : List Request) :
    let s₀ := Session.fresh address incoming ending peer
    let s := s₀.held wantNoAck requests
    (∃ rounds, Rounds s₀ rounds s ∧ s.poisoned = rounds.any Round.failed) ∧
      ∀ more q, q ≠ .close →
        (.close ∉ more → (Session.target q (s.through more)).1 =
          (Session.target q (s.unmarked.through more)).1) ∧
        (q.commands ≠ [] → ∃ ts,
          (Session.target q (s.through more)).2.sent.toList = s.sent.toList ++ ts ∧
          (packetStart ∉ s.stream ts →
            ∃ e, (Session.target q (s.through more)).1 = .error e)) := by
  intro s₀ s
  refine ⟨?_, fun more q hq => ⟨fun hmore => ?_, fun hcommands => ?_⟩⟩
  · obtain ⟨first, later, hrounds, -⟩ := exists_rounds_held wantNoAck requests s₀
    refine ⟨first ++ later, hrounds, ?_⟩
    rw [hrounds.poisoned]
    exact Bool.false_or _
  · have hsame : (s.through more).unmarked = (s.unmarked.through more).unmarked :=
      Blind.through hmore rfl
    exact (Blind.serve hq _ _ hsame).1
  · exact exists_sent_of_request more hq hcommands s

/-- A peer that hangs up behind the opening is not heard of again. -/
theorem answers_after_failure_at_end :
    let rx := ['+', '$', 'S', '0', '5', '#', 'b', '8']
    let s := (Session.fresh "" (codes rx) .closed ()).held false [.readRegisters]
    s.poisoned = true ∧
      ∀ more q, q ≠ .close → q.commands ≠ [] →
        ∃ e, (Session.target q (s.through more)).1 = .error e := by
  intro rx s
  have hunread : packetStart ∉ s.incoming := by decide
  obtain ⟨-, hlater⟩ :=
    answers_after_failure "" (codes rx) .closed () false [.readRegisters]
  refine ⟨rfl, fun more q hq hcommands => ?_⟩
  obtain ⟨ts, -, hfails⟩ := (hlater more q hq).2 hcommands
  apply hfails
  rw [Session.stream_unit]
  exact hunread

/-- A peer that has something to send for each of some transmissions to come. -/
structure Prepared where
  reactions : List (List UInt8)

instance : Peer Prepared := ⟨fun p _ => (p.reactions.headD [], ⟨p.reactions.tail⟩)⟩

/-- A late reply is taken for the answer to the next request, which asks for other bytes. In
the first session it lies unread, behind a reply whose checksum cannot be read. In the
second one the exchange has failed because a read timed out, and the reply to it comes when
the next command has gone out, in front of the reply to that. -/
theorem answers_after_failure_stale :
    (let rx := ['+', '$', 'S', '0', '5', '#', 'b', '8',
      '+', '$', 'a', 'a', 'a', 'a', '#', '8', 'g', '$', 'a', 'a', 'a', 'a', '#', '8', '4']
    let s := (Session.fresh "" (codes rx) .closed ()).held false []
    let s' := (Session.target (.readMemory 0 2) s).2
    (Session.target (.readMemory 0 2) s).1 = .error (.malformed .trailer) ∧
      s'.poisoned = true ∧ (Session.target (.readMemory 0x100 2) s').1 = .ok [0xAA, 0xAA]) ∧
    (let opening := ['+', '$', 'S', '0', '5', '#', 'b', '8']
    let late := ['$', 'a', 'a', 'a', 'a', '#', '8', '4',
      '+', '$', '5', '5', '5', '5', '#', 'd', '4']
    let peer : Prepared := ⟨[codes opening, [], codes ['+'], codes late]⟩
    let s := (Session.fresh "" [] (.failed "timed out") peer).held false []
    let s' := (Session.target (.readMemory 0 2) s).2
    (Session.target (.readMemory 0 2) s).1 = .error (.transport "timed out") ∧
      s'.poisoned = true ∧ (Session.target (.readMemory 0x100 2) s').1 = .ok [0xAA, 0xAA]) := by
  exact ⟨⟨rfl, rfl, rfl⟩, rfl, rfl, rfl⟩

end AvrConformance.Link
