import AvrConformance.Link.Client
import AvrConformance.Proofs.Link.Rounds

/-!
# Pieces of a transfer

Memory is moved in pieces, one command each, and the pieces of a transfer lie one behind
the other. A piece is known by its command, and by what the reply to that is taken for
(`Piece`); a read and a write are the same walk over their pieces (`moveAll`), which ends at
the first that fails. `Moves` tells the rounds that come of it, and every walk is told so,
whatever the peer (`exists_moves`).
-/

namespace AvrConformance

open Link (maxTransfer transfers)

/-! ## Where pieces lie -/

/-- The pieces in which a number of bytes is moved: where each begins, and its size. -/
def pieces (count : Nat) : List (Nat × Nat) :=
  (List.range (transfers count)).map fun i =>
    (maxTransfer * i, min maxTransfer (count - maxTransfer * i))

theorem transfers_eq_succ {count : Nat} (h : 0 < count) :
    transfers count = transfers (count - maxTransfer) + 1 := by
  simp only [transfers, maxTransfer]
  omega

/-- What is left behind the first piece is moved in pieces likewise. -/
theorem pieces_of_pos {count : Nat} (h : 0 < count) :
    pieces count =
      (0, min maxTransfer count) ::
        (pieces (count - maxTransfer)).map fun (start, size) => (maxTransfer + start, size) := by
  rw [pieces, transfers_eq_succ h, List.range_succ_eq_map, List.map_cons, pieces, List.map_map,
    List.map_map]
  refine List.cons_eq_cons.mpr ⟨?_, List.map_congr_left ?_⟩
  · rw [Nat.mul_zero, Nat.sub_zero]
  · intro i _
    have hstart : maxTransfer * (i + 1) = maxTransfer + maxTransfer * i := by
      rw [Nat.mul_succ, Nat.add_comm]
    simp only [Function.comp_apply, Nat.succ_eq_add_one, hstart, Nat.sub_sub]

/-- A piece is never empty, holds no more than one command moves, and lies within the whole. -/
theorem mem_pieces {count start size : Nat} (h : (start, size) ∈ pieces count) :
    0 < size ∧ size ≤ maxTransfer ∧ start + size ≤ count := by
  obtain ⟨i, hi, hpiece⟩ := List.mem_map.mp h
  obtain ⟨rfl, rfl⟩ := Prod.mk.inj hpiece
  have hin := List.mem_range.mp hi
  simp only [transfers, maxTransfer] at hin ⊢
  omega

namespace Link

open Exchange (transact ofExcept)

/-! ## Reads and writes -/

/-- A piece of a transfer: the command that moves it, and what the reply is taken for. -/
structure Piece (β : Type) where
  command : Command
  taken : String → Except LinkError β

namespace Piece

/-- A piece that is read. The reply has to hold as many bytes as were asked for. -/
def read (address : UInt32) (size : Nat) : Piece (List UInt8) where
  command := .readMemory address size
  taken reply :=
    match Reply.data reply >>= Reply.bytes with
    | .ok chunk =>
      if chunk.length = size then .ok chunk
      else .error (.malformed (.packetLength size address chunk.length))
    | .error e => .error e

/-- A piece that is written. -/
def write (address : UInt32) (data : List UInt8) : Piece Unit where
  command := .writeMemory address data
  taken := Reply.ok

end Piece

def readPieces (address : UInt32) (count : Nat) : List (Piece (List UInt8)) :=
  (pieces count).map fun (start, size) => .read (address + UInt32.ofNat start) size

def writePieces (address : UInt32) (data : List UInt8) : List (Piece Unit) :=
  (pieces data.length).map fun (start, size) =>
    .write (address + UInt32.ofNat start) ((data.drop start).take size)

theorem command_ne_of_mem_readPieces {address : UInt32} {count : Nat} :
    ∀ p ∈ readPieces address count, p.command ≠ .startNoAck := by
  intro p hp
  obtain ⟨⟨start, size⟩, -, rfl⟩ := List.mem_map.mp hp
  exact nofun

theorem command_ne_of_mem_writePieces {address : UInt32} {data : List UInt8} :
    ∀ p ∈ writePieces address data, p.command ≠ .startNoAck := by
  intro p hp
  obtain ⟨⟨start, size⟩, -, rfl⟩ := List.mem_map.mp hp
  exact nofun

theorem readPieces_of_pos (address : UInt32) {count : Nat} (h : 0 < count) :
    readPieces address count =
      .read address (min maxTransfer count) ::
        readPieces (address + UInt32.ofNat maxTransfer) (count - maxTransfer) := by
  simp only [readPieces, pieces_of_pos h, List.map_cons, List.map_map]
  refine List.cons_eq_cons.mpr ⟨?_, List.map_congr_left ?_⟩
  · simp
  · rintro ⟨start, size⟩ _
    simp only [Function.comp_apply]
    rw [UInt32.add_assoc, UInt32.ofNat_add]

theorem writePieces_of_pos (address : UInt32) {data : List UInt8} (h : 0 < data.length) :
    writePieces address data =
      .write address (data.take maxTransfer) ::
        writePieces (address + UInt32.ofNat maxTransfer) (data.drop maxTransfer) := by
  simp only [writePieces, pieces_of_pos h, List.map_cons, List.map_map, List.length_drop]
  refine List.cons_eq_cons.mpr ⟨?_, List.map_congr_left ?_⟩
  · simp [List.take_eq_take_min (l := data)]
  · rintro ⟨start, size⟩ _
    simp only [Function.comp_apply, List.drop_drop]
    rw [UInt32.add_assoc, UInt32.ofNat_add]

section Transfers

variable {π β : Type} [Peer π]

/-- Moving pieces in turn, up to the first that fails. -/
def moveAll : List (Piece β) → Exchange π (List β)
  | [] => return []
  | p :: rest => do
    let reply ← transact p.command
    let b ← ofExcept (p.taken reply)
    let others ← moveAll rest
    return b :: others

/-- The first piece of a walk, and the rest of it if that one succeeds. -/
theorem conduct_moveAll_cons {p : Piece β} {rest : List (Piece β)} {s s₁ : Session π}
    {told : Except LinkError String} (h : (transact p.command).conduct s = (told, s₁)) :
    (moveAll (p :: rest)).conduct s =
      match told.bind p.taken with
      | .error e => (.error e, s₁)
      | .ok b =>
        (((moveAll rest).conduct s₁).1.map (b :: ·), ((moveAll rest).conduct s₁).2) := by
  rw [moveAll, Exchange.conduct_bind, h]
  rcases told with e | reply
  · rfl
  · simp only [Exchange.conduct_bind, Exchange.conduct_ofExcept, Except.bind]
    rcases p.taken reply with e | b
    · rfl
    · dsimp only
      rcases (moveAll rest).conduct s₁ with ⟨e | others, s₂⟩ <;> rfl

/-- A read takes its first piece, and then reads the rest. -/
theorem readMemory_of_pos (address : UInt32) {count : Nat} (h : 0 < count) :
    (Exchange.readMemory address count : Exchange π (List UInt8)) =
      (transact (.readMemory address (min maxTransfer count)) >>= fun reply =>
        ofExcept (Reply.data reply >>= Reply.bytes) >>= fun chunk =>
          if chunk.length = min maxTransfer count then
            Exchange.readMemory (address + UInt32.ofNat maxTransfer) (count - maxTransfer) >>=
              fun rest => pure (chunk ++ rest)
          else
            .fail (.malformed (.packetLength (min maxTransfer count) address chunk.length))) := by
  -- behind a short piece there is nothing left, wherever it would be read from
  have hrest : (Exchange.readChunks (address + UInt32.ofNat (min maxTransfer count))
        (count - min maxTransfer count) (transfers (count - maxTransfer)) :
        Exchange π (List UInt8)) =
      Exchange.readMemory (address + UInt32.ofNat maxTransfer) (count - maxTransfer) := by
    rcases Nat.le_total maxTransfer count with hlong | hshort
    · rw [Nat.min_eq_left hlong]
      rfl
    · have hnone : count - maxTransfer = 0 := Nat.sub_eq_zero_of_le hshort
      rw [hnone]
      rfl
  rw [← hrest, Exchange.readMemory, transfers_eq_succ h]
  rfl

/-- A write sends its first piece, and then writes the rest. -/
theorem writeMemory_of_pos (address : UInt32) {data : List UInt8} (h : 0 < data.length) :
    (Exchange.writeMemory address data : Exchange π Unit) =
      (transact (.writeMemory address (data.take maxTransfer)) >>= fun reply =>
        ofExcept (Reply.ok reply) >>= fun _ =>
          Exchange.writeMemory (address + UInt32.ofNat maxTransfer) (data.drop maxTransfer)) := by
  simp only [Exchange.writeMemory, transfers_eq_succ h, List.length_drop]
  rfl

/-- A read moves its pieces, and puts together what they bring. -/
theorem conduct_readMemory (address : UInt32) (count : Nat) (s : Session π) :
    (Exchange.readMemory address count).conduct s =
      (((moveAll (readPieces address count)).conduct s).1.map List.flatten,
        ((moveAll (readPieces address count)).conduct s).2) := by
  -- by induction on the bytes left, of which a command moves some
  induction count using Nat.strongRecOn generalizing address s with
  | ind count ih =>
      rcases Nat.eq_zero_or_pos count with rfl | hsome
      · rfl
      · have hless : count - maxTransfer < count := Nat.sub_lt hsome (by decide)
        rw [readMemory_of_pos address hsome, readPieces_of_pos address hsome,
          Exchange.conduct_bind]
        rcases hfirst : (transact (.readMemory address (min maxTransfer count))).conduct s with
          ⟨told, s₁⟩
        rw [conduct_moveAll_cons (p := .read address (min maxTransfer count)) hfirst]
        rcases told with e | reply
        · rfl
        · simp only [Exchange.conduct_bind, Exchange.conduct_ofExcept, Except.bind, Piece.read]
          rcases Reply.data reply >>= Reply.bytes with e | chunk
          · rfl
          · by_cases hfull : chunk.length = min maxTransfer count
            · simp only [if_pos hfull, Exchange.conduct_bind, ih _ hless]
              rcases (moveAll (readPieces (address + UInt32.ofNat maxTransfer)
                (count - maxTransfer))).conduct s₁ with ⟨e | chunks, s₂⟩ <;> rfl
            · simp only [if_neg hfull, Exchange.conduct_fail]
              rfl

/-- A write moves its pieces. -/
theorem conduct_writeMemory (address : UInt32) (data : List UInt8) (s : Session π) :
    (Exchange.writeMemory address data).conduct s =
      (((moveAll (writePieces address data)).conduct s).1.map fun _ => (),
        ((moveAll (writePieces address data)).conduct s).2) := by
  generalize hcount : data.length = count
  induction count using Nat.strongRecOn generalizing address data s with
  | ind count ih =>
      subst hcount
      rcases Nat.eq_zero_or_pos data.length with hnone | hsome
      · obtain rfl := List.length_eq_zero_iff.mp hnone
        rfl
      · have hless : (data.drop maxTransfer).length < data.length := by
          rw [List.length_drop]
          exact Nat.sub_lt hsome (by decide)
        rw [writeMemory_of_pos address hsome, writePieces_of_pos address hsome,
          Exchange.conduct_bind]
        rcases hfirst : (transact (.writeMemory address (data.take maxTransfer))).conduct s with
          ⟨told, s₁⟩
        rw [conduct_moveAll_cons (p := .write address (data.take maxTransfer)) hfirst]
        rcases told with e | reply
        · rfl
        · simp only [Exchange.conduct_bind, Exchange.conduct_ofExcept, Except.bind, Piece.write]
          rcases Reply.ok reply with e | _
          · rfl
          · simp only [ih _ hless _ _ _ rfl]
            rcases (moveAll (writePieces (address + UInt32.ofNat maxTransfer)
              (data.drop maxTransfer))).conduct s₁ with ⟨e | units, s₂⟩ <;> rfl

/-! ## Rounds of a transfer -/

/-- Only a request for it makes a session do without acknowledgements. -/
theorem Round.hushes_eq_false {r : Round} (h : r.command ≠ .startNoAck) : r.hushes = false := by
  unfold Round.hushes
  split
  · exact decide_eq_false fun hasked => h hasked.1
  · rfl

theorem Takes.result_eq {s s' : Session π} {r : Round} {c : Command} (h : Takes s r s')
    (hc : r.command = c) : (transact c).conduct s = (r.result, s') := by
  rw [← hc]
  exact h.conduct

end Transfers

/-- The pieces are moved in turn, one round each. A round that fails, or whose reply is taken
for nothing, is the last, and the transfer fails with it. -/
inductive Moves {β : Type} :
    List (Piece β) → List Round → Except LinkError (List β) → Prop
  | done : Moves [] [] (.ok [])
  | broken {p : Piece β} {rest : List (Piece β)} {r : Round} {e : LinkError}
      (asked : r.command = p.command) (failure : r.result.bind p.taken = .error e) :
      Moves (p :: rest) [r] (.error e)
  | moved {p : Piece β} {rest : List (Piece β)} {r : Round} {rs : List Round} {b : β}
      {others result : Except LinkError (List β)} (asked : r.command = p.command)
      (brings : r.result.bind p.taken = .ok b) (later : Moves rest rs others)
      (all : result = others.map (b :: ·)) : Moves (p :: rest) (r :: rs) result

/-- The round carries out the piece's command, and its reply is taken for something. -/
def Piece.MovedBy {β : Type} (p : Piece β) (r : Round) : Prop :=
  r.command = p.command ∧ ∃ b, r.result.bind p.taken = .ok b

namespace Moves

variable {β : Type} {ps : List (Piece β)} {rs : List Round} {result : Except LinkError (List β)}

theorem ne_nil (h : Moves ps rs result) (hps : ps ≠ []) : rs ≠ [] := by
  cases h with
  | done => exact absurd rfl hps
  | broken asked failure => exact List.cons_ne_nil _ _
  | moved asked brings later all => exact List.cons_ne_nil _ _

/-- No piece is left out, and none is moved twice. -/
theorem asked (h : Moves ps rs result) : rs.map Round.command <+: ps.map Piece.command := by
  induction h with
  | done => exact List.prefix_rfl
  | broken asked failure =>
      rw [List.map_singleton, List.map_cons, asked]
      exact List.prefix_append [_] _
  | moved asked brings later all ih =>
      rw [List.map_cons, List.map_cons, asked]
      exact (List.prefix_cons_inj _).mpr ih

/-- Only the last round may not move its piece. -/
theorem movedBy_of_mem_dropLast (h : Moves ps rs result) :
    ∀ r ∈ rs.dropLast, ∃ p ∈ ps, p.MovedBy r := by
  induction h with
  | done => exact fun r hr => absurd hr List.not_mem_nil
  | broken asked failure => exact fun r hr => absurd hr List.not_mem_nil
  | @moved p rest first rs b others result asked brings later all ih =>
      intro r hr
      cases rs with
      | nil => exact absurd hr List.not_mem_nil
      | cons second rs =>
          rcases List.mem_cons.mp hr with rfl | hr
          · exact ⟨p, List.mem_cons_self, asked, b, brings⟩
          · obtain ⟨p', hp', hmoved⟩ := ih r hr
            exact ⟨p', List.mem_cons_of_mem p hp', hmoved⟩

/-- A transfer that succeeds has moved every piece. -/
theorem movedBy_of_ok {bs : List β} (h : Moves ps rs result) (hok : result = .ok bs) :
    rs.map Round.command = ps.map Piece.command ∧ ∀ r ∈ rs, ∃ p ∈ ps, p.MovedBy r := by
  induction h generalizing bs with
  | done => exact ⟨rfl, fun r hr => absurd hr List.not_mem_nil⟩
  | broken asked failure => cases hok
  | @moved p rest first rs b others result asked brings later all ih =>
      subst all
      cases others with
      | error e => cases hok
      | ok chunks =>
          obtain ⟨hcommands, hmoved⟩ := ih rfl
          refine ⟨by rw [List.map_cons, List.map_cons, asked, hcommands], ?_⟩
          refine List.forall_mem_cons.mpr ⟨⟨p, List.mem_cons_self, asked, b, brings⟩, ?_⟩
          intro r hr
          obtain ⟨p', hp', hmoved'⟩ := hmoved r hr
          exact ⟨p', List.mem_cons_of_mem p hp', hmoved'⟩

/-- A transfer that fails does so with its last round. -/
theorem exists_last_of_error {e : LinkError} (h : Moves ps rs result) (herror : result = .error e) :
    ∃ r ∈ rs.getLast?, ∃ p ∈ ps, r.command = p.command ∧ r.result.bind p.taken = .error e := by
  induction h with
  | done => cases herror
  | @broken p rest r e' asked failure =>
      cases herror
      exact ⟨r, rfl, p, List.mem_cons_self, asked, failure⟩
  | @moved p rest first rs b others result asked brings later all ih =>
      subst all
      cases others with
      | ok chunks => cases herror
      | error e' =>
          cases herror
          obtain ⟨r, hr, p', hp', hfails⟩ := ih rfl
          refine ⟨r, ?_, p', List.mem_cons_of_mem p hp', hfails⟩
          rw [Option.mem_def, List.getLast?_cons, Option.mem_def.mp hr]
          rfl

/-- A round that fails is the last, and the transfer fails with its error. -/
theorem eq_error_of_mem (h : Moves ps rs result) :
    ∀ r ∈ rs, ∀ e, r.result = .error e → result = .error e := by
  induction h with
  | done => exact fun r hr => absurd hr List.not_mem_nil
  | @broken p rest first e' asked failure =>
      intro r hr e he
      rw [List.mem_singleton.mp hr] at he
      rw [he] at failure
      cases failure
      rfl
  | @moved p rest first rs b others result asked brings later all ih =>
      intro r hr e he
      rcases List.mem_cons.mp hr with rfl | hr
      · rw [he] at brings
        cases brings
      · rw [all, ih r hr e he]
        rfl

end Moves

/-- **Every walk over pieces is told by its rounds**, whatever the peer. -/
theorem exists_moves {π β : Type} [Peer π] (ps : List (Piece β))
    (hps : ∀ p ∈ ps, p.command ≠ .startNoAck) (s : Session π) :
    ∃ rs result s', (moveAll ps).conduct s = (result, s') ∧ Rounds s rs s' ∧
      s'.connected = s.connected ∧ Moves ps rs result := by
  induction ps generalizing s with
  | nil => exact ⟨[], _, s, rfl, .nil s, rfl, .done⟩
  | cons p rest ih =>
      obtain ⟨hp, hrest⟩ := List.forall_mem_cons.mp hps
      obtain ⟨r, hasked, htakes⟩ := exists_takes p.command s
      have hconduct := htakes.result_eq hasked
      generalize ((transact p.command).conduct s).2 = s₁ at htakes hconduct
      have hround : Rounds s [r] s₁ := .single htakes (Round.hushes_eq_false (hasked ▸ hp))
      rw [conduct_moveAll_cons hconduct]
      cases hfirst : r.result.bind p.taken with
      | error e => exact ⟨[r], .error e, s₁, rfl, hround, htakes.kept, .broken hasked hfirst⟩
      | ok b =>
          obtain ⟨rs, others, s', hothers, hrounds, hkept, hmoves⟩ := ih hrest s₁
          rw [hothers]
          exact ⟨r :: rs, _, s', rfl, hround.trans hrounds, hkept.trans htakes.kept,
            .moved hasked hfirst hmoves rfl⟩

end Link

end AvrConformance
