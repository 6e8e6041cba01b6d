import AvrConformance.Proofs.Transfers

/-!
# Transfers that are cut short

A peer may answer whatever it likes, and at any piece of a transfer. What has been asked for
by then is the front of what the transfer calls for, and nothing is asked for behind the
first piece that is not answered as it should be (`BreaksOff`). A write succeeds if every
piece was answered by `OK`; a read, if every reply spells as many bytes as were asked for
(`Round.Tells`), and then its result is those bytes and no others (`transfers_break_off`).
-/

namespace AvrConformance.Link

open Text.Hex (Spells)

variable {α β : Type}

/-! ## What replies are taken for -/

theorem ok_eq_ok_iff {reply : String} {u : Unit} : Reply.ok reply = .ok u ↔ reply = "OK" := by
  unfold Reply.ok
  split
  · simp [*]
  split
  · simp [*]
  split <;> simp [*]

/-- A reply is taken for bytes if it spells them. -/
theorem bytes_eq_ok_iff {reply : String} {bytes : List UInt8} :
    (Reply.data reply >>= Reply.bytes) = .ok bytes ↔ Spells bytes reply.toList := by
  constructor
  · intro h
    rw [Reply.data] at h
    split at h
    · cases h
    · exact Reply.bytes_eq_ok_iff.mp h
  · intro h
    obtain ⟨hgenuine, htaken⟩ := bytes_of_spells h
    rw [String.ofList_toList] at hgenuine htaken
    rw [Reply.data, hgenuine]
    exact htaken

/-- The peer's reply in a round spells these bytes. -/
def Round.Tells (r : Round) (bytes : List UInt8) : Prop :=
  ∃ reply, r.result = .ok reply ∧ Spells bytes reply.toList

theorem taken_write_iff {r : Round} {address : UInt32} {data : List UInt8} :
    (∃ u, r.result.bind (Piece.write address data).taken = .ok u) ↔ r.result = .ok "OK" := by
  cases hresult : r.result with
  | error e =>
      refine iff_of_false ?_ nofun
      rintro ⟨u, h⟩
      cases h
  | ok reply =>
      show (∃ u, Reply.ok reply = .ok u) ↔ _
      simp only [ok_eq_ok_iff, exists_const, Except.ok.injEq]

theorem taken_read_iff {r : Round} {address : UInt32} {size : Nat} {chunk : List UInt8} :
    r.result.bind (Piece.read address size).taken = .ok chunk ↔
      r.Tells chunk ∧ chunk.length = size := by
  have htaken : ∀ reply, (Piece.read address size).taken reply = .ok chunk ↔
      Spells chunk reply.toList ∧ chunk.length = size := by
    intro reply
    rw [Piece.read, ← bytes_eq_ok_iff]
    dsimp only
    rcases Reply.data reply >>= Reply.bytes with e | bytes
    · simp
    · by_cases hfull : bytes.length = size
      · simp only [if_pos hfull, Except.ok.injEq]
        exact ⟨fun h => ⟨h, h ▸ hfull⟩, fun h => h.1⟩
      · simp only [if_neg hfull, Except.ok.injEq, false_iff, not_and, reduceCtorEq]
        rintro rfl
        exact hfull
  unfold Round.Tells
  cases hresult : r.result with
  | error e =>
      have hnone : (Except.error e : Except LinkError String).bind
          (Piece.read address size).taken ≠ .ok chunk := by simp [Except.bind]
      exact iff_of_false hnone (by simp)
  | ok reply => exact (htaken reply).trans (by simp)

/-! ## Breaking off -/

/-- The commands are carried out in order, one round each, up to the first round that is not
answered as it should be, with which the transfer fails. -/
structure BreaksOff (Good : Round → Prop) (commands : List Command) (rs : List Round)
    (result : Except LinkError α) : Prop where
  asked : rs.map Round.command <+: commands
  went : ∀ r ∈ rs.dropLast, Good r
  broken : ∀ e, result = .error e → ∃ r ∈ rs.getLast?, ¬ Good r
  through : ∀ a, result = .ok a → rs.map Round.command = commands ∧ ∀ r ∈ rs, Good r

/-- A walk over pieces breaks off, if a good round is one that moves its piece. -/
theorem Moves.breaksOff {ps : List (Piece β)} {rs : List Round}
    {result : Except LinkError (List β)} {Good : Round → Prop} (h : Moves ps rs result)
    (hgood : ∀ p ∈ ps, ∀ r : Round, r.command = p.command →
      (Good r ↔ ∃ b, r.result.bind p.taken = .ok b)) (f : List β → α) :
    BreaksOff Good (ps.map Piece.command) rs (result.map f) where
  asked := h.asked
  went r hr := by
    obtain ⟨p, hp, hasked, hbrings⟩ := h.movedBy_of_mem_dropLast r hr
    exact (hgood p hp r hasked).mpr hbrings
  broken e he := by
    cases result with
    | ok bs => cases he
    | error e =>
        obtain ⟨r, hr, p, hp, hasked, hfails⟩ := h.exists_last_of_error rfl
        refine ⟨r, hr, fun hr => ?_⟩
        obtain ⟨b, hbrings⟩ := (hgood p hp r hasked).mp hr
        cases hfails.symm.trans hbrings
  through a ha := by
    cases result with
    | error e => cases ha
    | ok bs =>
        obtain ⟨hcommands, hmoved⟩ := h.movedBy_of_ok rfl
        refine ⟨hcommands, fun r hr => ?_⟩
        obtain ⟨p, hp, hasked, hbrings⟩ := hmoved r hr
        exact (hgood p hp r hasked).mpr hbrings

/-- So it succeeds exactly if all commands were carried out, and answered as they should be. -/
theorem BreaksOff.succeeds_iff {Good : Round → Prop} {commands : List Command}
    {rs : List Round} {result : Except LinkError α} (h : BreaksOff Good commands rs result) :
    (∃ a, result = .ok a) ↔ rs.map Round.command = commands ∧ ∀ r ∈ rs, Good r := by
  constructor
  · rintro ⟨a, ha⟩
    exact h.through a ha
  · rintro ⟨-, hgood⟩
    cases result with
    | ok a => exact ⟨a, rfl⟩
    | error e =>
        obtain ⟨r, hr, hbad⟩ := h.broken e rfl
        exact absurd (hgood r (List.mem_of_getLast? hr)) hbad

/-! ## Writes -/

/-- The bytes that a command carries. -/
def Command.cargo : Command → List UInt8
  | .writeMemory _ data => data
  | _ => []

/-- All the pieces of a write together are the data. -/
theorem cargo_commands (address : UInt32) (data : List UInt8) :
    (Request.writeMemory address data).commands.flatMap Command.cargo = data := by
  generalize hcount : data.length = count
  induction count using Nat.strongRecOn generalizing address data with
  | ind count ih =>
      subst hcount
      rcases Nat.eq_zero_or_pos data.length with hnone | hsome
      · obtain rfl := List.length_eq_zero_iff.mp hnone
        rfl
      · have hless : (data.drop maxTransfer).length < data.length := by
          rw [List.length_drop]
          exact Nat.sub_lt hsome (by decide)
        rw [commands_writeMemory_of_pos address hsome, List.flatMap_cons, ih _ hless _ _ rfl]
        exact List.take_append_drop maxTransfer data

/-- What has been sent is the front of the data. -/
theorem BreaksOff.front {Good : Round → Prop} {address : UInt32} {data : List UInt8}
    {rs : List Round} {result : Except LinkError α}
    (h : BreaksOff Good (Request.writeMemory address data).commands rs result) :
    (rs.flatMap fun r => r.command.cargo) <+: data := by
  obtain ⟨later, hlater⟩ := h.asked
  have hall := congrArg (List.flatMap Command.cargo) hlater
  rw [cargo_commands, List.flatMap_append, List.flatMap_map] at hall
  exact ⟨_, hall⟩

theorem BreaksOff.whole {Good : Round → Prop} {address : UInt32} {data : List UInt8}
    {rs : List Round} {result : Except LinkError α} {a : α}
    (h : BreaksOff Good (Request.writeMemory address data).commands rs result)
    (hok : result = .ok a) : (rs.flatMap fun r => r.command.cargo) = data := by
  have hall := congrArg (List.flatMap Command.cargo) (h.through a hok).1
  rw [cargo_commands, List.flatMap_map] at hall
  exact hall

/-! ## Reads -/

/-- The round asks for some bytes, and its reply spells as many. -/
def Round.TellsAll (r : Round) : Prop :=
  ∃ address bytes, r.command = .readMemory address bytes.length ∧ r.Tells bytes

theorem tellsAll_iff {r : Round} {address : UInt32} {size : Nat}
    (h : r.command = .readMemory address size) :
    r.TellsAll ↔ ∃ chunk, r.result.bind (Piece.read address size).taken = .ok chunk := by
  constructor
  · rintro ⟨place, bytes, hasked, htells⟩
    rw [h] at hasked
    cases hasked
    exact ⟨bytes, taken_read_iff.mpr ⟨htells, rfl⟩⟩
  · rintro ⟨chunk, hbrings⟩
    obtain ⟨htells, rfl⟩ := taken_read_iff.mp hbrings
    exact ⟨address, chunk, h, htells⟩

/-- Behind the first piece lies the rest, unless the first piece is short and there is none. -/
theorem take_drop_first {first rest : List UInt8} {count : Nat}
    (hfirst : first.length = min maxTransfer count) (hrest : rest.length = count - maxTransfer) :
    (first ++ rest).take maxTransfer = first ∧
      ∀ n, (first ++ rest).drop (maxTransfer + n) = rest.drop n := by
  rcases Nat.le_total maxTransfer count with hlong | hshort
  · rw [Nat.min_eq_left hlong] at hfirst
    refine ⟨List.take_left' hfirst, fun n => ?_⟩
    rw [← hfirst, List.drop_append, List.drop_eq_nil_of_le (Nat.le_add_right _ n),
      Nat.add_sub_cancel_left, List.nil_append]
  · rw [Nat.sub_eq_zero_of_le hshort] at hrest
    obtain rfl := List.length_eq_zero_iff.mp hrest
    have hsmall : first.length ≤ maxTransfer := hfirst ▸ Nat.min_le_left maxTransfer count
    rw [List.append_nil]
    refine ⟨List.take_of_length_le hsmall, fun n => ?_⟩
    rw [List.drop_nil, List.drop_eq_nil_of_le (Nat.le_trans hsmall (Nat.le_add_right _ n))]

/-- What a read comes to is as long as asked for, and its pieces are what the rounds tell. -/
theorem Moves.tells {address : UInt32} {count : Nat} {rs : List Round}
    {chunks : List (List UInt8)} (h : Moves (readPieces address count) rs (.ok chunks)) :
    chunks.flatten.length = count ∧
      ∀ (i : Nat) (hi : i < rs.length),
        rs[i].Tells ((chunks.flatten.drop (maxTransfer * i)).take maxTransfer) := by
  -- by induction on the bytes left, of which a command moves some
  induction count using Nat.strongRecOn generalizing address rs chunks with
  | ind count ih =>
      rcases Nat.eq_zero_or_pos count with rfl | hsome
      · cases h
        exact ⟨rfl, fun i hi => absurd hi (Nat.not_lt_zero i)⟩
      · have hless : count - maxTransfer < count := Nat.sub_lt hsome (by decide)
        rw [readPieces_of_pos address hsome] at h
        cases h with
        | @moved _ _ r rs chunk others _ asked brings later all =>
            cases others with
            | error e => cases all
            | ok others =>
                cases all
                obtain ⟨htells, hfull⟩ := taken_read_iff.mp brings
                obtain ⟨hlength, hothers⟩ := ih _ hless later
                refine ⟨?_, ?_⟩
                · rw [List.flatten_cons, List.length_append, hfull, hlength]
                  omega
                · obtain ⟨htake, hdrop⟩ := take_drop_first hfull hlength
                  intro i hi
                  cases i with
                  | zero =>
                      rw [Nat.mul_zero, List.drop_zero, List.flatten_cons, htake]
                      exact htells
                  | succ i =>
                      have hstart : maxTransfer * (i + 1) = maxTransfer + maxTransfer * i := by
                        rw [Nat.mul_succ, Nat.add_comm]
                      rw [hstart, List.flatten_cons, hdrop]
                      exact hothers i (Nat.lt_of_succ_lt_succ hi)

/-! ## Any peer -/

section Sessions

variable {π : Type} [Peer π]

/-- The reply of a round is the expanded payload of a packet whose checksum is right. -/
theorem Rounds.brings {s s' : Session π} {rs : List Round} (h : Rounds s rs s') :
    ∀ r ∈ rs, ∀ reply, r.result = .ok reply → Brings r.arrivals reply := by
  intro r hr reply hreply
  obtain ⟨s₁, s₂, htakes⟩ := h.exists_takes_of_mem r hr
  exact htakes.told reply hreply

/-- A write, told by its rounds: its commands are carried out and nothing else is sent, up
to the first that is not answered by `OK`. What has been sent is the front of the data, and
all of it if the write succeeds. -/
structure Writes (s : Session π) (address : UInt32) (data : List UInt8)
    (outcome : Except LinkError Unit × Session π) (rs : List Round) : Prop where
  rounds : Rounds s rs outcome.2
  sent : outcome.2.sent.toList = s.sent.toList ++ rs.flatMap Round.transmissions
  breaksOff : BreaksOff (fun r => r.result = .ok "OK") (Request.writeMemory address data).commands
    rs outcome.1
  succeeds_iff : outcome.1 = .ok () ↔
    rs.map Round.command = (Request.writeMemory address data).commands ∧
      ∀ r ∈ rs, r.result = .ok "OK"
  front : (rs.flatMap fun r => r.command.cargo) <+: data
  whole : outcome.1 = .ok () → (rs.flatMap fun r => r.command.cargo) = data

/-- A read, told by its rounds: its commands are carried out and nothing else is sent, up to
the first to which no undamaged packet spells as many bytes as it asks for. The bytes that
the read comes to are as many as asked for, and each piece is told by its round. -/
structure Fetches (s : Session π) (address : UInt32) (count : Nat)
    (outcome : Except LinkError (List UInt8) × Session π) (rs : List Round) : Prop where
  rounds : Rounds s rs outcome.2
  sent : outcome.2.sent.toList = s.sent.toList ++ rs.flatMap Round.transmissions
  verified : ∀ r ∈ rs, ∀ reply, r.result = .ok reply → Brings r.arrivals reply
  breaksOff : BreaksOff Round.TellsAll (Request.readMemory address count).commands rs outcome.1
  succeeds_iff : (∃ bytes, outcome.1 = .ok bytes) ↔
    rs.map Round.command = (Request.readMemory address count).commands ∧
      ∀ r ∈ rs, r.TellsAll
  length_eq : ∀ bytes, outcome.1 = .ok bytes → bytes.length = count
  tells : ∀ bytes, outcome.1 = .ok bytes → ∀ (i : Nat) (hi : i < rs.length),
    rs[i].Tells ((bytes.drop (maxTransfer * i)).take maxTransfer)

theorem exists_writes (address : UInt32) (data : List UInt8) (s : Session π) :
    ∃ rs, Writes s address data (Session.target (.writeMemory address data) s) rs := by
  obtain ⟨rs, result, s', hwalk, hrounds, -, hmoves⟩ :=
    exists_moves (writePieces address data) command_ne_of_mem_writePieces s
  have hgood : ∀ p ∈ writePieces address data, ∀ r : Round, r.command = p.command →
      (r.result = .ok "OK" ↔ ∃ u, r.result.bind p.taken = .ok u) := by
    intro p hp r _
    obtain ⟨⟨start, size⟩, -, rfl⟩ := List.mem_map.mp hp
    exact taken_write_iff.symm
  have hbreaks := hmoves.breaksOff hgood fun _ => ()
  rw [← commands_writeMemory] at hbreaks
  have htarget : Session.target (.writeMemory address data) s = (result.map fun _ => (), s') := by
    show (Exchange.writeMemory address data).conduct s = _
    rw [conduct_writeMemory, hwalk]
  rw [htarget]
  refine ⟨rs, ?_⟩
  exact {
    rounds := hrounds
    sent := hrounds.sent
    breaksOff := hbreaks
    succeeds_iff := exists_const Unit |>.symm.trans hbreaks.succeeds_iff
    front := hbreaks.front
    whole := fun hok => hbreaks.whole hok }

theorem exists_fetches (address : UInt32) (count : Nat) (s : Session π) :
    ∃ rs, Fetches s address count (Session.target (.readMemory address count) s) rs := by
  obtain ⟨rs, result, s', hwalk, hrounds, -, hmoves⟩ :=
    exists_moves (readPieces address count) command_ne_of_mem_readPieces s
  have hgood : ∀ p ∈ readPieces address count, ∀ r : Round, r.command = p.command →
      (r.TellsAll ↔ ∃ chunk, r.result.bind p.taken = .ok chunk) := by
    intro p hp r hasked
    obtain ⟨⟨start, size⟩, -, rfl⟩ := List.mem_map.mp hp
    exact tellsAll_iff hasked
  have hbreaks := hmoves.breaksOff hgood List.flatten
  rw [← commands_readMemory] at hbreaks
  have htarget : Session.target (.readMemory address count) s =
      (result.map List.flatten, s') := by
    show (Exchange.readMemory address count).conduct s = _
    rw [conduct_readMemory, hwalk]
  have htells : ∀ bytes, result.map List.flatten = .ok bytes → bytes.length = count ∧
      ∀ (i : Nat) (hi : i < rs.length),
        rs[i].Tells ((bytes.drop (maxTransfer * i)).take maxTransfer) := by
    intro bytes hok
    cases result with
    | error e => cases hok
    | ok chunks =>
        cases hok
        exact hmoves.tells
  rw [htarget]
  refine ⟨rs, ?_⟩
  exact {
    rounds := hrounds
    sent := hrounds.sent
    verified := hrounds.brings
    breaksOff := hbreaks
    succeeds_iff := hbreaks.succeeds_iff
    length_eq := fun bytes hok => (htells bytes hok).1
    tells := fun bytes hok => (htells bytes hok).2 }

/-- **Transfers are cut short at the first piece that goes wrong**, whatever the peer sends, at
any address and of any length. A write asks for its pieces in order until one is not answered
by `OK`, and succeeds if all are; what it has sent is always a front of the data. A read asks
for its pieces in order until one is not answered by as many bytes as it has; it comes to those
bytes, piece by piece, and never to fewer, more or others. -/
theorem transfers_break_off (address : UInt32) (s : Session π) :
    (∀ data : List UInt8, ∃ rs,
      Writes s address data (Session.target (.writeMemory address data) s) rs) ∧
    ∀ count : Nat, ∃ rs,
      Fetches s address count (Session.target (.readMemory address count) s) rs :=
  ⟨fun data => exists_writes address data s, fun count => exists_fetches address count s⟩

end Sessions

end AvrConformance.Link
