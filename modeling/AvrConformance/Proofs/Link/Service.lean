import AvrConformance.Proofs.Link.Pieces

/-!
# How requests are served

A request calls for commands (`Request.commands`): a transfer for one for each of its
pieces, every other request for one. A session carries them out in order, one round each,
up to the first that fails or is answered by something else than it calls for
(`Serves`). Only a farewell looks at what has happened before: it is left out if the
session is released or poisoned (`close_cases`).
-/

namespace AvrConformance

open Link (maxTransfer Command Piece readPieces writePieces)

/-! ## What requests call for -/

/-- The commands that a request calls for, in order. -/
def Request.commands : Request → List Command
  | readMemory address count =>
    (pieces count).map fun (start, size) => .readMemory (address + UInt32.ofNat start) size
  | writeMemory address data =>
    (pieces data.length).map fun (start, size) =>
      .writeMemory (address + UInt32.ofNat start) ((data.drop start).take size)
  | readRegisters => [.readRegisters]
  | writeRegisters registers => [.writeRegisters registers]
  | resume signal => [.resume signal]
  | step => [.step]
  | close => [.detach]

theorem commands_readMemory (address : UInt32) (count : Nat) :
    (Request.readMemory address count).commands =
      (readPieces address count).map Piece.command := by
  rw [readPieces, List.map_map]
  rfl

theorem commands_writeMemory (address : UInt32) (data : List UInt8) :
    (Request.writeMemory address data).commands =
      (writePieces address data).map Piece.command := by
  rw [writePieces, List.map_map]
  rfl

theorem commands_readMemory_of_pos (address : UInt32) {count : Nat} (h : 0 < count) :
    (Request.readMemory address count).commands =
      .readMemory address (min maxTransfer count) ::
        (Request.readMemory (address + UInt32.ofNat maxTransfer)
          (count - maxTransfer)).commands := by
  rw [commands_readMemory, commands_readMemory, Link.readPieces_of_pos address h]
  rfl

theorem commands_writeMemory_of_pos (address : UInt32) {data : List UInt8} (h : 0 < data.length) :
    (Request.writeMemory address data).commands =
      .writeMemory address (data.take maxTransfer) ::
        (Request.writeMemory (address + UInt32.ofNat maxTransfer)
          (data.drop maxTransfer)).commands := by
  rw [commands_writeMemory, commands_writeMemory, Link.writePieces_of_pos address h]
  rfl

namespace Link

open Exchange (transact ofExcept)

variable {π α β : Type} [Peer π]

/-! ## Carrying out commands -/

/-- The commands are carried out in order, up to the first round that fails, or that is
answered by something else than its command calls for. The connection is kept. -/
structure Serves (s : Session π) (commands : List Command)
    (outcome : Except LinkError α × Session π) (rs : List Round) : Prop where
  rounds : Rounds s rs outcome.2
  kept : outcome.2.connected = s.connected
  asked : rs.map Round.command <+: commands
  went : ∀ r ∈ rs.dropLast, r.failed = false
  failed : ∀ r ∈ rs, ∀ e, r.result = .error e → outcome.1 = .error e
  through : ∀ a, outcome.1 = .ok a → rs.map Round.command = commands

namespace Serves

variable {s : Session π} {commands : List Command}

theorem done (a : α) : Serves s [] (.ok a, s) [] where
  rounds := .nil s
  kept := rfl
  asked := List.prefix_rfl
  went _ hr := absurd hr List.not_mem_nil
  failed _ hr := absurd hr List.not_mem_nil
  through _ _ := rfl

theorem refused (e : LinkError) : Serves (α := α) s commands (.error e, s) [] where
  rounds := .nil s
  kept := rfl
  asked := List.nil_prefix
  went _ hr := absurd hr List.not_mem_nil
  failed _ hr := absurd hr List.not_mem_nil
  through _ h := nomatch h

/-- What comes to something has not failed on the way. -/
theorem went_of_ok {outcome : Except LinkError α × Session π} {rs : List Round} {a : α}
    (h : Serves s commands outcome rs) (ha : outcome.1 = .ok a) :
    ∀ r ∈ rs, r.failed = false := by
  intro r hr
  refine Bool.eq_false_iff.mpr fun hfailed => ?_
  obtain ⟨e, he⟩ := Round.failed_eq_true_iff.mp hfailed
  exact nomatch ha.symm.trans (h.failed r hr e he)

end Serves

/-- One part after another, each of which carries out its commands. -/
theorem exists_serves_bind {x : Exchange π α} {f : α → Exchange π β} {s : Session π}
    {commands more : List Command} {rs : List Round} (hx : Serves s commands (x.conduct s) rs)
    (hf : ∀ a s, ∃ later, Serves s more ((f a).conduct s) later) :
    ∃ later, Serves s (commands ++ more) ((x >>= f).conduct s) (rs ++ later) := by
  rw [Exchange.conduct_bind]
  rcases hconduct : x.conduct s with ⟨e | a, s₁⟩
  · rw [hconduct] at hx
    refine ⟨[], ?_⟩
    rw [List.append_nil]
    exact {
      rounds := hx.rounds
      kept := hx.kept
      asked := hx.asked.trans (List.prefix_append commands more)
      went := hx.went
      failed := fun r hr e' he => by
        injection hx.failed r hr e' he with hsame
        rw [hsame]
      through := nofun }
  · rw [hconduct] at hx
    obtain ⟨later, hlater⟩ := hf a s₁
    have hwent := hx.went_of_ok rfl
    have hasked : rs.map Round.command = commands := hx.through a rfl
    refine ⟨later, ?_⟩
    exact {
      rounds := hx.rounds.trans hlater.rounds
      kept := hlater.kept.trans hx.kept
      asked := by
        rw [List.map_append, hasked]
        exact (List.prefix_append_right_inj commands).mpr hlater.asked
      went := fun r hr => by
        cases later with
        | nil =>
            rw [List.append_nil] at hr
            exact hx.went r hr
        | cons first others =>
            rw [List.dropLast_append_cons] at hr
            exact (List.mem_append.mp hr).elim (hwent r) (hlater.went r)
      failed := fun r hr e he =>
        (List.mem_append.mp hr).elim (fun h => nomatch hx.failed r h e he)
          fun h => hlater.failed r h e he
      through := fun b hb => by rw [List.map_append, hasked, hlater.through b hb] }

/-- What a reply is taken for needs no further round. -/
theorem serves_ofExcept (x : Except LinkError α) (s : Session π) :
    Serves s [] ((ofExcept x : Exchange π α).conduct s) [] := by
  rw [Exchange.conduct_ofExcept]
  cases x with
  | ok a => exact .done a
  | error e => exact .refused e

theorem serves_of_round {r : Round} {s s' : Session π} {outcome : Except LinkError α}
    (hrounds : Rounds s [r] s') (hkept : s'.connected = s.connected)
    (hfailed : ∀ e, r.result = .error e → outcome = .error e) :
    Serves s [r.command] (outcome, s') [r] where
  rounds := hrounds
  kept := hkept
  asked := List.prefix_rfl
  went _ hx := absurd hx List.not_mem_nil
  failed x hx e he := by
    rw [List.mem_singleton.mp hx] at he
    exact hfailed e he
  through _ _ := rfl

theorem exists_serves_transact {c : Command} (hc : c ≠ .startNoAck) (s : Session π) :
    ∃ r, Serves s [c] ((transact c).conduct s) [r] := by
  obtain ⟨r, rfl, htakes⟩ := exists_takes c s
  rw [htakes.conduct]
  have hhushes := Round.hushes_eq_false hc
  exact ⟨r, serves_of_round (.single htakes hhushes) htakes.kept fun e he => he⟩

/-- A request that takes one exchange. -/
theorem exists_serves_single {c : Command} (hc : c ≠ .startNoAck)
    (decode : String → Except LinkError α) (s : Session π) :
    ∃ r rs, Serves s [c] ((transact c >>= fun reply => ofExcept (decode reply)).conduct s)
      (r :: rs) := by
  obtain ⟨r, hfirst⟩ := exists_serves_transact hc s
  obtain ⟨rs, hall⟩ := exists_serves_bind hfirst fun reply s =>
    ⟨[], serves_ofExcept (decode reply) s⟩
  exact ⟨r, rs, hall⟩

/-! ## Requests -/

/-- A walk over pieces carries out their commands. -/
theorem serves_of_moves {ps : List (Piece β)} {rs : List Round} {s s' : Session π}
    {result : Except LinkError (List β)} (hrounds : Rounds s rs s')
    (hkept : s'.connected = s.connected) (h : Moves ps rs result) (f : List β → α) :
    Serves s (ps.map Piece.command) (result.map f, s') rs where
  rounds := hrounds
  kept := hkept
  asked := h.asked
  went r hr := by
    obtain ⟨p, -, -, b, hbrings⟩ := h.movedBy_of_mem_dropLast r hr
    refine Bool.eq_false_iff.mpr fun hfailed => ?_
    obtain ⟨e, he⟩ := Round.failed_eq_true_iff.mp hfailed
    rw [he] at hbrings
    cases hbrings
  failed r hr e he := by
    rw [h.eq_error_of_mem r hr e he]
    rfl
  through a ha := by
    cases result with
    | error e => cases ha
    | ok bs => exact (h.movedBy_of_ok rfl).1

theorem exists_serves_readMemory (address : UInt32) (count : Nat) (s : Session π) :
    ∃ rs, Serves s (Request.readMemory address count).commands
      ((Exchange.readMemory address count).conduct s) rs ∧
        ((Request.readMemory address count).commands ≠ [] → rs ≠ []) := by
  obtain ⟨rs, result, s', hwalk, hrounds, hkept, hmoves⟩ :=
    exists_moves (readPieces address count) command_ne_of_mem_readPieces s
  rw [conduct_readMemory, hwalk, commands_readMemory]
  exact ⟨rs, serves_of_moves hrounds hkept hmoves List.flatten,
    fun h => hmoves.ne_nil (mt List.map_eq_nil_iff.mpr h)⟩

theorem exists_serves_writeMemory (address : UInt32) (data : List UInt8) (s : Session π) :
    ∃ rs, Serves s (Request.writeMemory address data).commands
      ((Exchange.writeMemory address data).conduct s) rs ∧
        ((Request.writeMemory address data).commands ≠ [] → rs ≠ []) := by
  obtain ⟨rs, result, s', hwalk, hrounds, hkept, hmoves⟩ :=
    exists_moves (writePieces address data) command_ne_of_mem_writePieces s
  rw [conduct_writeMemory, hwalk, commands_writeMemory]
  exact ⟨rs, serves_of_moves hrounds hkept hmoves fun _ => (),
    fun h => hmoves.ne_nil (mt List.map_eq_nil_iff.mpr h)⟩

/-- Every request but the farewell carries out the commands that it calls for. -/
theorem exists_serves {q : Request} (hq : q ≠ .close) (s : Session π) :
    ∃ rs, Serves s q.commands (Session.target q s) rs ∧ (q.commands ≠ [] → rs ≠ []) := by
  cases q with
  | close => exact absurd rfl hq
  | readMemory address count => exact exists_serves_readMemory address count s
  | writeMemory address data => exact exists_serves_writeMemory address data s
  | readRegisters =>
      obtain ⟨r, rs, hserves⟩ := exists_serves_single (c := .readRegisters) nofun Reply.registers s
      exact ⟨r :: rs, hserves, fun _ => List.cons_ne_nil r rs⟩
  | writeRegisters registers =>
      obtain ⟨r, rs, hserves⟩ :=
        exists_serves_single (c := .writeRegisters registers) nofun Reply.ok s
      exact ⟨r :: rs, hserves, fun _ => List.cons_ne_nil r rs⟩
  | resume signal =>
      obtain ⟨r, rs, hserves⟩ := exists_serves_single (c := .resume signal) nofun Reply.stop s
      exact ⟨r :: rs, hserves, fun _ => List.cons_ne_nil r rs⟩
  | step =>
      obtain ⟨r, rs, hserves⟩ := exists_serves_single (c := .step) nofun Reply.stop s
      exact ⟨r :: rs, hserves, fun _ => List.cons_ne_nil r rs⟩

/-- A request fails when the first exchange that it calls for does, and leaves the session
as the exchange does. -/
theorem target_of_error {q : Request} (hq : q ≠ .close) {c : Command} {more : List Command}
    (hc : q.commands = c :: more) {s s' : Session π} {e : LinkError}
    (h : (transact c).conduct s = (.error e, s')) : Session.target q s = (.error e, s') := by
  have hsingle : ∀ {γ : Type} {f : String → Exchange π γ},
      (transact c >>= f).conduct s = (.error e, s') := by
    intro γ f
    rw [Exchange.conduct_bind, h]
  cases q with
  | close => exact absurd rfl hq
  | readMemory address count =>
      rcases Nat.eq_zero_or_pos count with rfl | hsome
      · cases hc
      · rw [commands_readMemory_of_pos address hsome] at hc
        obtain ⟨rfl, -⟩ := List.cons.inj hc
        show (Exchange.readMemory address count).conduct s = _
        rw [readMemory_of_pos address hsome]
        exact hsingle
  | writeMemory address data =>
      rcases Nat.eq_zero_or_pos data.length with hnone | hsome
      · obtain rfl := List.length_eq_zero_iff.mp hnone
        cases hc
      · rw [commands_writeMemory_of_pos address hsome] at hc
        obtain ⟨rfl, -⟩ := List.cons.inj hc
        show (Exchange.writeMemory address data).conduct s = _
        rw [writeMemory_of_pos address hsome]
        exact hsingle
  | readRegisters =>
      obtain ⟨rfl, -⟩ := List.cons.inj hc
      exact hsingle
  | writeRegisters registers =>
      obtain ⟨rfl, -⟩ := List.cons.inj hc
      exact hsingle
  | resume signal =>
      obtain ⟨rfl, -⟩ := List.cons.inj hc
      exact hsingle
  | step =>
      obtain ⟨rfl, -⟩ := List.cons.inj hc
      exact hsingle

/-- Taking leave of a session that is released does nothing, a poisoned session is let go in
silence, and any other says farewell in one round. -/
theorem close_cases (s : Session π) :
    (s.connected = false ∧ Session.target .close s = (.ok (), s)) ∨
      (s.connected = true ∧ s.poisoned = true ∧ ∃ notes,
        Session.target .close s = (.ok (), { s with connected := false, notes })) ∨
      (s.connected = true ∧ s.poisoned = false ∧ ∃ r s₁ notes, r.command = .detach ∧
        Takes s r s₁ ∧
        Session.target .close s =
          (r.result.map fun _ => (), { s₁ with connected := false, notes })) := by
  have hclose : Session.target .close s = (Exchange.close : Exchange π Unit).conduct s := rfl
  rw [hclose]
  rcases Bool.eq_false_or_eq_true s.connected with hconnected | hconnected
  · rcases Bool.eq_false_or_eq_true s.poisoned with hpoisoned | hpoisoned
    · refine .inr (.inl ⟨hconnected, hpoisoned, ?_⟩)
      simp only [Exchange.close, Exchange.farewell, Exchange.conduct_bind, Exchange.conduct_look,
        hconnected, hpoisoned, if_true, Exchange.conduct_outcome, Exchange.conduct_pure,
        Exchange.conduct_change, Exchange.note, Exchange.conduct_ofExcept]
      exact ⟨_, rfl⟩
    · obtain ⟨r, hcommand, htakes⟩ := exists_takes .detach s
      have hconduct := htakes.result_eq hcommand
      generalize ((transact .detach).conduct s).2 = s₁ at htakes hconduct
      -- the outcome of the farewell is that of its exchange, whatever the reply
      have hparted : ((Exchange.farewell : Exchange π Unit).outcome).conduct s =
          (.ok (r.result.map fun _ => ()), s₁) := by
        simp only [Exchange.conduct_outcome, Exchange.farewell, Exchange.conduct_bind,
          Exchange.conduct_look, hpoisoned, Bool.false_eq_true, if_false, hconduct]
        cases r.result <;> rfl
      refine .inr (.inr ⟨hconnected, hpoisoned, r, s₁,
        s₁.notes.push ⟨.info, s!"disconnected from {s.address}"⟩, hcommand, htakes, ?_⟩)
      simp only [Exchange.close, Exchange.conduct_bind, Exchange.conduct_look, hconnected,
        if_true, hparted, Exchange.conduct_change, Exchange.note, Exchange.conduct_ofExcept]
      rfl
  · refine .inl ⟨hconnected, ?_⟩
    simp only [Exchange.close, Exchange.conduct_bind, Exchange.conduct_look, hconnected,
      Bool.false_eq_true, if_false, Exchange.conduct_pure]

end Link

end AvrConformance
