import AvrConformance.Proofs.Inquiries
import AvrConformance.Proofs.Link.Exchange

/-!
# A session refines the machine behind its stub

A session over a stub answers the requests of a campaign as the machine behind the stub
would, and leaves it in the same state (`serve_of_inStep`). It does so from the
handshake on (`start_inStep`), so whole campaigns come to the same over the wire as on
the machine itself (`session_refines_machine`): whatever the machine, and whatever
the manner of its stub.
-/

namespace AvrConformance

namespace Link

variable {σ ω : Type} {μ : Machine σ} {m : Manner ω}

/-! ## What replies are taken for -/

theorem isError_text (e : ErrorCode) : Reply.isError (String.ofList e.text) = true := by
  rw [Reply.isError, String.toList_ofList]
  simp only [ErrorCode.text, e.highDigit, e.lowDigit, Bool.and_self]

/-- No stop reply can be mistaken for an error. -/
theorem isError_of_head {c : Char} {text : List Char} (hc : c ≠ 'E') :
    Reply.isError (String.ofList (c :: text)) = false := by
  rw [Reply.isError, String.toList_ofList]
  split
  · rename_i heq
    injection heq with hE
    exact absurd hE hc
  · rfl

/-- Nor can a row of bytes. -/
theorem isError_of_length {text : List Char} (h : text.length ≠ 3) :
    Reply.isError (String.ofList text) = false := by
  rw [Reply.isError, String.toList_ofList]
  split
  · exact absurd rfl h
  · rfl

/-- A reply to a command that yields nothing. -/
theorem ok_of_said {result : Except ErrorCode Unit × σ} {text : List Char}
    (h : Says (respond (fun _ => .ok) result).1 text) :
    Reply.ok (String.ofList text) = result.1.mapError ErrorCode.failure := by
  rcases result with ⟨e | u, x⟩
  · cases h
    have hother : ∀ reply : String, e.text ≠ reply.toList → String.ofList e.text ≠ reply := by
      intro reply hne heq
      apply hne
      rw [← heq, String.toList_ofList]
    have hok : String.ofList e.text ≠ "OK" := hother "OK" nofun
    have hempty : String.ofList e.text ≠ "" := hother "" nofun
    rw [Reply.ok, if_neg hok, if_neg hempty, if_pos (isError_text e)]
    rfl
  · cases h
    rfl

/-- A reply to a command that yields a stop. -/
theorem stop_of_said {result : Except ErrorCode Stop × σ} {text : List Char}
    (h : Says (respond .stop result).1 text) :
    Reply.stop (String.ofList text) = result.1.mapError ErrorCode.failure := by
  have hletter : ∀ {letter : Char} {number : UInt8} {text : List Char} {stop : Stop},
      letter ≠ 'E' → Text.Hex.Spells [number] text → Reply.stopOf? letter number = some stop →
      Reply.stop (String.ofList (letter :: text)) = .ok stop := by
    intro letter number text stop hE spelling hstop
    cases spelling with
    | cons highDigit lowDigit others =>
        cases others
        rw [Reply.stop, isError_of_head hE, String.toList_ofList]
        simp only [Bool.false_eq_true, if_false, Reply.leadingStop?,
          Text.Hex.lenientByte?_of_digits highDigit lowDigit, Option.bind_some, hstop]
  rcases result with ⟨e | stop, x⟩
  · cases h
    rw [Reply.stop, if_pos (isError_text e)]
    rfl
  · cases h with
    | signal kind spelling =>
        rcases kind with rfl | rfl
        · exact hletter (by decide) spelling rfl
        · exact hletter (by decide) spelling rfl
    | exited spelling => exact hletter (by decide) spelling rfl
    | terminated spelling => exact hletter (by decide) spelling rfl

/-- A reply to a command that yields registers. -/
theorem registers_of_said {result : Except ErrorCode Snapshot × σ} {text : List Char}
    (h : Says (respond (fun registers : Snapshot => .data registers.toBytes) result).1 text) :
    Reply.registers (String.ofList text) = result.1.mapError ErrorCode.failure := by
  rcases result with ⟨e | registers, x⟩
  · cases h
    rw [Reply.registers, Reply.data, if_pos (isError_text e)]
    rfl
  · cases h with
    | data spelling =>
        have hlength : text.length ≠ 3 := by
          rw [spelling.length_eq, registers.length_toBytes]
          decide
        rw [Reply.registers, Reply.data, isError_of_length hlength]
        simp only [Bool.false_eq_true, if_false]
        show Except.mapError LinkError.registers (Snapshot.ofBlock (String.ofList text)) = _
        rw [Snapshot.ofBlock_of_spells spelling]
        rfl

theorem respond_snd {α : Type} (said : α → Response) (result : Except ErrorCode α × σ) :
    (respond said result).2 = result.2 := by
  rcases result with ⟨e | a, x⟩ <;> rfl

theorem respond_of_ok {α : Type} (said : α → Response) {result : Except ErrorCode α × σ} {a : α}
    (h : result.1 = .ok a) : respond said result = (said a, result.2) := by
  obtain ⟨_, x⟩ := result
  cases h
  rfl

/-! ## Requests -/

open Exchange (Settled conduct_transact perform_short transact ofExcept)

/-- The session is in step with its stub, and the machine behind it is in a state. -/
def InStep (s : Session (Stub μ m)) (x : σ) : Prop := ∃ mode, Settled s x mode mode

theorem InStep.withNote {s : Session (Stub μ m)} {x : σ} (h : InStep s x) (n : Note) :
    InStep (s.withNote n) x := by
  obtain ⟨mode, hsettled⟩ := h
  exact ⟨mode, hsettled.withNotes (s.notes.push n)⟩

/-- The machine performs the command, says so, and is in step again. -/
theorem transact_of_inStep {s : Session (Stub μ m)} {x : σ} (h : InStep s x) {c : Command}
    (hc : c ≠ .startNoAck) (hshort : ∀ granting, (μ.perform granting c x).1.Short) :
    ∃ text s', (transact c).conduct s = (.ok (String.ofList text), s') ∧
      Says (μ.perform false c x).1 text ∧ InStep s' (μ.perform false c x).2 := by
  obtain ⟨mode, hsettled⟩ := h
  obtain ⟨granting, text, s', hgranting, hsaid, htransact, hsettled'⟩ :=
    conduct_transact hsettled hshort
  -- the mode is not spoken of, so both keep the one they have
  have hkept : granting = false := by
    cases granting with
    | false => rfl
    | true => exact absurd (hgranting rfl) hc
  subst hkept
  rw [Bool.or_false] at hsettled'
  exact ⟨text, s', htransact, hsaid, mode, hsettled'⟩

/-- A request that takes one exchange: the machine performs the command, and its reply
is held against what the command calls for. -/
theorem conduct_asked {α : Type} {s : Session (Stub μ m)} {x : σ} (h : InStep s x) (c : Command)
    (hc : c ≠ .startNoAck ∧ ∀ address count, c ≠ .readMemory address count)
    {said : α → Response} {result : Except ErrorCode α × σ}
    (hperform : μ.perform false c x = respond said result)
    {decode : String → Except LinkError α}
    (hdecode : ∀ text, Says (respond said result).1 text →
      decode (String.ofList text) = result.1.mapError ErrorCode.failure) :
    ∃ s', (do let reply ← transact c; ofExcept (decode reply) :
        Exchange (Stub μ m) α).conduct s = (result.1.mapError ErrorCode.failure, s') ∧
      InStep s' result.2 := by
  obtain ⟨text, s', htransact, hsaid, hstep⟩ := transact_of_inStep h hc.1 fun granting =>
    perform_short granting x hc.2
  rw [hperform] at hsaid hstep
  rw [respond_snd] at hstep
  refine ⟨s', ?_, hstep⟩
  rw [Exchange.conduct_bind, htransact]
  dsimp only
  rw [Exchange.conduct_ofExcept, hdecode text hsaid]

/-- A few bytes are written by one command. -/
theorem writeMemory_eq {address : UInt32} {data : List UInt8} (hsome : 0 < data.length)
    (hfew : data.length ≤ 4) :
    (Exchange.writeMemory address data : Exchange (Stub μ m) Unit) =
      (do let reply ← transact (.writeMemory address data); ofExcept (Reply.ok reply)) := by
  have honce : transfers data.length = 1 := by
    simp only [transfers, maxTransfer]
    omega
  have hwhole : data.take maxTransfer = data := by
    apply List.take_of_length_le
    simp only [maxTransfer]
    omega
  have hlast : ∀ x : Exchange (Stub μ m) Unit, (x >>= fun _ => pure ()) = x := by
    intro x
    apply Exchange.ext
    funext s
    rw [Exchange.conduct_bind]
    rcases x.conduct s with ⟨e | u, s'⟩ <;> rfl
  simp only [Exchange.writeMemory, honce, Exchange.writeChunks, hwhole, hlast]

/-- A request of a campaign is answered as by the machine, and has the same effect
on it. -/
theorem serve_of_inStep {s : Session (Stub μ m)} {x : σ} (h : InStep s x) {q : Request}
    (hq : (Inquiry.request q).OfCase) :
    (Session.target q s).1 = (μ.target q x).1 ∧
      InStep (Session.target q s).2 (μ.target q x).2 := by
  have hend : ∀ {α : Type} {e : Exchange (Stub μ m) α} {result : Except ErrorCode α × σ},
      (∃ s', e.conduct s = (result.1.mapError ErrorCode.failure, s') ∧ InStep s' result.2) →
      (e.conduct s).1 = result.1.mapError ErrorCode.failure ∧ InStep (e.conduct s).2 result.2 := by
    rintro α e result ⟨s', hconduct, hstep⟩
    rw [hconduct]
    exact ⟨rfl, hstep⟩
  cases q with
  | readMemory address count => exact absurd hq id
  | close => exact absurd hq id
  | writeMemory address data =>
      have hasked := conduct_asked h (.writeMemory address data) ⟨nofun, nofun⟩ rfl
        fun _ => ok_of_said
      rw [← writeMemory_eq hq.1 hq.2] at hasked
      exact hend hasked
  | readRegisters =>
      exact hend (conduct_asked h .readRegisters ⟨nofun, nofun⟩ rfl
        fun _ => registers_of_said)
  | writeRegisters registers =>
      exact hend (conduct_asked h (.writeRegisters registers) ⟨nofun, nofun⟩ rfl
        fun _ => ok_of_said)
  | resume signal =>
      exact hend (conduct_asked h (.resume signal) ⟨nofun, nofun⟩ rfl fun _ => stop_of_said)
  | step =>
      exact hend (conduct_asked h .step ⟨nofun, nofun⟩ rfl fun _ => stop_of_said)

/-! ## The handshake -/

/-- A session with a stub that has heard nothing yet has nothing to read. -/
theorem settled_fresh (address : String) (ending : Ending) (x : σ) (whim : ω) :
    Settled (Session.fresh address [] ending (Stub.fresh x whim : Stub μ m)) x false false :=
  ⟨rfl, rfl, rfl, rfl, rfl, rfl, rfl⟩

/-- The mode without acknowledgements begins on both sides or on neither. -/
theorem conduct_negotiate {s : Session (Stub μ m)} {x : σ} (h : Settled s x false false) :
    ∃ s', (Exchange.negotiate : Exchange (Stub μ m) Unit).conduct s = (.ok (), s') ∧
      InStep s' x := by
  obtain ⟨granting, text, s', -, hsaid, htransact, hsettled⟩ :=
    conduct_transact h (c := .startNoAck) fun granting => perform_short granting x nofun
  simp only [Exchange.negotiate, Exchange.conduct_bind, htransact]
  cases granting with
  | true =>
      have hok : String.ofList text = "OK" := by
        cases hsaid
        rfl
      simp only [hok, if_true, Exchange.conduct_change]
      exact ⟨_, rfl, true, hsettled.connected, hsettled.quiet, rfl, hsettled.stubMode,
        hsettled.idle, hsettled.patient, hsettled.machine⟩
  | false =>
      have hdeclined : String.ofList text ≠ "OK" := by
        cases hsaid
        decide
      simp only [if_neg hdeclined]
      exact ⟨_, rfl, false, hsettled.withNotes _⟩

/-- The handshake in three parts. -/
theorem handshake_eq (wantNoAck : Bool) :
    (Exchange.handshake wantNoAck : Exchange (Stub μ m) Unit) =
      (if wantNoAck then Exchange.negotiate else pure ()) >>= fun _ =>
        Exchange.stopAfter .lastStop >>= fun stop =>
          Exchange.note .debug s!"initial stop: {stop.text}" := by
  cases wantNoAck <;> rfl

/-- The handshake succeeds, and leaves the machine as it was. -/
theorem start_inStep (wantNoAck : Bool) (address : String) (ending : Ending) (x : σ) (whim : ω) :
    ∃ s, Session.start wantNoAck
      (Session.fresh address [] ending (Stub.fresh x whim : Stub μ m)) = (.ok (), s) ∧
      InStep s x := by
  have hfresh := settled_fresh (μ := μ) (m := m) address ending x whim
  obtain ⟨s₁, hmode, hstep₁⟩ : ∃ s₁, (if wantNoAck then Exchange.negotiate else pure () :
      Exchange (Stub μ m) Unit).conduct (Session.fresh address [] ending (Stub.fresh x whim)) =
        (.ok (), s₁) ∧ InStep s₁ x := by
    cases wantNoAck with
    | true => exact conduct_negotiate hfresh
    | false => exact ⟨_, rfl, false, hfresh⟩
  -- asking for the last stop is an exchange like any other, and changes nothing
  obtain ⟨s₂, hasked, mode, hsettled⟩ := conduct_asked hstep₁ .lastStop ⟨nofun, nofun⟩
    (rfl : _ = respond .stop (.ok (μ.lastStop x), x)) fun _ => stop_of_said
  have hstop : (Exchange.stopAfter .lastStop : Exchange (Stub μ m) Stop).conduct s₁ =
      (.ok (μ.lastStop x), s₂) := hasked
  have hshake : ∃ notes, (Exchange.handshake wantNoAck).conduct
      (Session.fresh address [] ending (Stub.fresh x whim : Stub μ m)) =
        (.ok (), { s₂ with notes }) := by
    rw [handshake_eq, Exchange.conduct_bind, hmode]
    dsimp only
    rw [Exchange.conduct_bind, hstop]
    exact ⟨_, rfl⟩
  obtain ⟨notes, hshake⟩ := hshake
  refine ⟨_, by rw [Session.start, hshake]; rfl, mode, ?_⟩
  exact hsettled.withNotes _

end Link

/-! ## Campaigns -/

open Link (Session Stub Manner Ending InStep)

variable {σ ω : Type}

/-- **Refinement.** Whatever the machine, and whatever the manner of the stub in front of
it, a session connects to the stub, and a campaign over the session comes to the same as
on the machine itself, up to the moments at which its reports began. Behind it nothing is
left unread, and the machine is in the same state. -/
theorem session_refines_machine (μ : Machine σ) (m : Manner ω) (x : σ) (whim : ω)
    (address : String) (ending : Ending) (wantNoAck : Bool) (settings : RunSettings)
    (opcodes : List Opcode) (wireClock : Session (Stub μ m) → Timestamp) (clock : σ → Timestamp)
    (moment : Timestamp) :
    ∃ s, Session.start wantNoAck
        (Session.fresh address [] ending (Stub.fresh x whim : Stub μ m)) = (.ok (), s) ∧
      let wire := (Campaign.run settings opcodes).run
        ⟨Session.target, Session.withNote, wireClock⟩ s
      let direct := (Campaign.run settings opcodes).run ⟨μ.target, fun _ y => y, clock⟩ x
      wire.1.dated moment = direct.1.dated moment ∧
        wire.2.incoming = [] ∧ wire.2.peer.machine = direct.2 := by
  obtain ⟨s, hstart, hstep⟩ := Link.start_inStep (μ := μ) (m := m) wantNoAck address ending x whim
  refine ⟨s, hstart, ?_⟩
  let wire : Bench (Session (Stub μ m)) := ⟨Session.target, Session.withNote, wireClock⟩
  let direct : Bench σ := ⟨μ.target, fun _ y => y, clock⟩
  let wireStanding : Bench (Session (Stub μ m)) := Session.bench moment
  let directStanding : Bench σ := μ.target.bench moment
  have hlockstep : ∀ (q : Inquiry) (s : Session (Stub μ m)) (y : σ), q.OfCampaign → InStep s y →
      (wireStanding.answer q s).1 = (directStanding.answer q y).1 ∧
        InStep (wireStanding.answer q s).2 (directStanding.answer q y).2 := by
    intro q s y hq hstep
    cases q with
    | request q => exact Link.serve_of_inStep hstep (hq.elim id nofun)
    | note n =>
        exact ⟨rfl, hstep.withNote n⟩
    | clock => exact ⟨rfl, hstep⟩
  obtain ⟨hsame, mode, hsettled⟩ :=
    Dialogue.run_lockstep hlockstep (Campaign.asks_run settings opcodes) hstep
  -- the moments told on either side make no difference but in the reports
  obtain ⟨hwire, hwireLeft⟩ :=
    @Campaign.run_of_clock _ wire wireStanding rfl rfl settings opcodes moment s
  obtain ⟨hdirect, hdirectLeft⟩ :=
    @Campaign.run_of_clock _ direct directStanding rfl rfl settings opcodes moment x
  show ((Campaign.run settings opcodes).run wire s).1.dated moment =
      ((Campaign.run settings opcodes).run direct x).1.dated moment ∧
    ((Campaign.run settings opcodes).run wire s).2.incoming = [] ∧
    ((Campaign.run settings opcodes).run wire s).2.peer.machine =
      ((Campaign.run settings opcodes).run direct x).2
  rw [hwire, hdirect, hwireLeft, hdirectLeft]
  exact ⟨congrArg (Campaign.dated moment) hsame, hsettled.quiet, hsettled.machine⟩

end AvrConformance
