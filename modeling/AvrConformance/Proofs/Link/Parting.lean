import AvrConformance.Proofs.Link.Ascii
import AvrConformance.Proofs.Link.Lifetime

/-!
# Parting

A session parts from its peer in one of two ways: it says farewell and waits to be
answered, or it is let go and waits for nothing. Either way it says at most one thing,
and nothing at all once an exchange has failed, since the session may then be out of
step with its peer (`parting_of_poisoned`). Over a session that has parted, requests are
turned away, unless they call for no exchange (`barred_once_closed`).
-/

namespace AvrConformance.Link

open Exchange (transact)

variable {π : Type} [Peer π]

/-- The only packet by which a session parts. -/
abbrev farewell : Transmission := .packet Command.detach.payload

/-! ## A farewell as a round -/

/-- A round of a connected session sends its command once, and once more for each refusal, as
long as there are attempts left. -/
theorem count_command {r : Round} {s s' : Session π} (h : Takes s r s')
    (hconnected : r.connected = true) :
    r.transmissions.count (.packet r.command.payload) =
      min maxAttempts (r.heard.count 0x2D + 1) := by
  have hanswers : (answers r.noAck r.arrivals).count (.packet r.command.payload) = 0 := by
    refine List.count_eq_zero.mpr fun hmem => ?_
    rcases (mem_answers hmem).2 with hack | hnak
    · cases hack
    · cases hnak
  rw [Round.transmissions, if_pos hconnected, List.count_append, List.count_replicate_self,
    hanswers, Nat.add_zero, sendings]
  cases hmode : r.noAck with
  | true =>
      rw [h.unheard hmode]
      rfl
  | false => rfl

/-- Without a connection there is nothing to part from. -/
theorem close_of_not_connected {s : Session π} (h : s.connected = false) :
    Session.target .close s = (.ok (), s) ∧ s.release = s := by
  refine ⟨?_, by rw [Session.release, h]; rfl⟩
  rcases close_cases s with ⟨-, hidle⟩ | ⟨hconnected, -⟩ | ⟨hconnected, -⟩
  · exact hidle
  · exact absurd (h.symm.trans hconnected) (by decide)
  · exact absurd (h.symm.trans hconnected) (by decide)

/-- Whatever comes of taking leave, the connection is gone. -/
theorem connected_close (s : Session π) : (Session.target .close s).2.connected = false := by
  rcases close_cases s with ⟨hparted, hidle⟩ | ⟨-, -, notes, hsilent⟩ |
    ⟨-, -, r, s₁, notes, -, -, hleft⟩
  · rw [hidle]
    exact hparted
  · rw [hsilent]
  · rw [hleft]

/-- How a session is left, given whether one of its exchanges has failed. -/
structure Parting (s : Session π) (failed : Bool) : Prop where
  poisoned : s.poisoned = failed
  /-- A session that has failed parts in silence. -/
  silent : failed = true →
    (Session.target .close s).2.sent = s.sent ∧ s.release.sent = s.sent
  /-- Any other says farewell once if it is let go, and reads nothing. -/
  letGo : failed = false → s.connected = true →
    s.release.sent = s.sent.push farewell ∧
      s.release.incoming = s.incoming ++ (Peer.react s.peer farewell).1
  /-- If it takes leave, it sends no other command, and this one again only when refused. -/
  leave : failed = false → s.connected = true →
    ∃ r s₁, Takes s r s₁ ∧
      (Session.target .close s).2.sent.toList = s.sent.toList ++ r.transmissions ∧
      r.transmissions.count farewell = min maxAttempts (r.heard.count 0x2D + 1) ∧
      ∀ payload, .packet payload ∈ r.transmissions → .packet payload = farewell
  /-- A session that has parted does so no more. -/
  parted : s.connected = false → Session.target .close s = (.ok (), s) ∧ s.release = s
  /-- Whatever comes of taking leave, the session has parted then, and is done with it. -/
  gone : ∀ c, c = (Session.target .close s).2 →
    c.connected = false ∧ Session.target .close c = (.ok (), c) ∧ c.release = c
  /-- What has failed stays so. -/
  kept : failed = true → ∀ requests, (s.through requests).poisoned = true

theorem parting_of_poisoned {s : Session π} {failed : Bool} (h : s.poisoned = failed) :
    Parting s failed := by
  have hcases := close_cases s
  refine ⟨h, ?_, ?_, ?_, fun hparted => close_of_not_connected hparted, ?_, ?_⟩
  · rintro rfl
    refine ⟨?_, ?_⟩
    · rcases hcases with ⟨-, hidle⟩ | ⟨-, -, notes, hsilent⟩ | ⟨-, hsound, -⟩
      · rw [hidle]
      · rw [hsilent]
      · exact absurd (h.symm.trans hsound) (by decide)
    · unfold Session.release
      rw [h]
      cases s.connected <;> rfl
  · rintro rfl hconnected
    have hrelease : s.release = Session.withNote ⟨.debug, s!"released connection to {s.address}"⟩
        { s.transmit farewell with connected := false } := by
      rw [Session.release, if_pos hconnected, h]
      rfl
    rw [hrelease]
    exact ⟨rfl, Session.enqueue_eq _ _⟩
  · rintro rfl hconnected
    rcases hcases with ⟨hparted, -⟩ | ⟨-, hpoisoned, -⟩ |
      ⟨-, -, r, s₁, notes, hcommand, htakes, hleft⟩
    · exact absurd (hparted.symm.trans hconnected) (by decide)
    · exact absurd (h.symm.trans hpoisoned) (by decide)
    · have hcount := count_command htakes (htakes.connected.trans hconnected)
      rw [hcommand] at hcount
      refine ⟨r, s₁, htakes, ?_, hcount, ?_⟩
      · rw [hleft]
        exact htakes.sent
      · intro payload hmem
        rcases Round.mem_transmissions hmem with hpacket | ⟨-, hack | hnak⟩
        · rw [hpacket, hcommand]
        · cases hack
        · cases hnak
  · rintro c rfl
    have hgone := connected_close s
    exact ⟨hgone, close_of_not_connected hgone⟩
  · rintro rfl requests
    obtain ⟨rs, hrounds, -⟩ := exists_rounds_through requests s
    rw [hrounds.poisoned, h, Bool.true_or]

/-! ## Released sessions -/

theorem conduct_transact_of_not_connected (c : Command) {s : Session π}
    (h : s.connected = false) :
    (transact c).conduct s = (.error .notConnected, { s with poisoned := true }) := by
  rw [Exchange.conduct_transact_eq, Exchange.conduct_exchange_of_not_connected c.payload h]

/-- What requests over a released session come to. Moving no bytes takes no exchange, and
parting once more is in order. -/
def barred : (q : Request) → q.Answer
  | .readMemory _ 0 => .ok []
  | .readMemory _ (_ + 1) => .error .notConnected
  | .writeMemory _ [] => .ok ()
  | .writeMemory _ (_ :: _) => .error .notConnected
  | .readRegisters => .error .notConnected
  | .writeRegisters _ => .error .notConnected
  | .resume _ => .error .notConnected
  | .step => .error .notConnected
  | .close => .ok ()

/-- A request calls for an exchange and is barred, or takes none and does nothing. -/
theorem barred_cases {q : Request} (hq : q ≠ .close) :
    (∃ c more, q.commands = c :: more ∧ barred q = .error .notConnected) ∨
      (q.commands = [] ∧ ∀ s : Session π, Session.target q s = (barred q, s)) := by
  cases q with
  | close => exact absurd rfl hq
  | readMemory address count =>
      cases count with
      | zero => exact .inr ⟨rfl, fun _ => rfl⟩
      | succ count =>
          exact .inl ⟨_, _, commands_readMemory_of_pos address (Nat.succ_pos count), rfl⟩
  | writeMemory address data =>
      cases data with
      | nil => exact .inr ⟨rfl, fun _ => rfl⟩
      | cons b data =>
          exact .inl ⟨_, _, commands_writeMemory_of_pos address (Nat.succ_pos data.length), rfl⟩
  | readRegisters => exact .inl ⟨_, _, rfl, rfl⟩
  | writeRegisters registers => exact .inl ⟨_, _, rfl, rfl⟩
  | resume signal => exact .inl ⟨_, _, rfl, rfl⟩
  | step => exact .inl ⟨_, _, rfl, rfl⟩

/-- A request over a released session leaves nothing but the mark of a failure. -/
theorem target_of_not_connected {s : Session π} (h : s.connected = false) (q : Request) :
    ∃ poisoned, Session.target q s = (barred q, { s with poisoned }) := by
  by_cases hq : q = .close
  · subst hq
    exact ⟨s.poisoned, (close_of_not_connected h).1⟩
  · rcases barred_cases (π := π) hq with ⟨c, more, hc, hbarred⟩ | ⟨-, hidle⟩
    · rw [hbarred]
      exact ⟨true, target_of_error hq hc (conduct_transact_of_not_connected c h)⟩
    · exact ⟨s.poisoned, hidle s⟩

theorem through_of_not_connected {s : Session π} (h : s.connected = false)
    (requests : List Request) : ∃ poisoned, s.through requests = { s with poisoned } := by
  induction requests generalizing s with
  | nil => exact ⟨s.poisoned, rfl⟩
  | cons q requests ih =>
      obtain ⟨poisoned, htarget⟩ := target_of_not_connected h q
      rw [Session.through_cons, htarget]
      exact ih h

/-- **Closed.** Once a session has been told to take leave, whatever came of that, each
request is turned away, and none of them transmits or reads anything. Only those that
call for no exchange succeed: moving no bytes, and taking leave again. -/
theorem barred_once_closed (s : Session π) (requests : List Request) (q : Request) :
    let c := (Session.target .close s).2
    c.connected = false ∧
      ∃ poisoned, Session.target q (c.through requests) = (barred q, { c with poisoned }) := by
  intro c
  have hgone : c.connected = false := connected_close s
  obtain ⟨poisoned, hthrough⟩ := through_of_not_connected hgone requests
  have hlater : ({ c with poisoned } : Session π).connected = false := hgone
  rw [hthrough]
  exact ⟨hgone, target_of_not_connected hlater q⟩

/-- Over a session that has said farewell, no bytes are still read and written with success. -/
theorem barred_once_closed_but_for_nothing :
    let rx := ['+', '$', 'S', '0', '5', '#', 'b', '8', '+', '$', 'O', 'K', '#', '9', 'a']
    let s := (Session.fresh "" (codes rx) .closed ()).held false []
    let c := (Session.target .close s).2
    (Session.target .close s).1 = .ok () ∧ c.connected = false ∧
      (Session.target (.readMemory 0 0) c).1 = .ok [] ∧
      (Session.target (.writeMemory 0 []) c).1 = .ok () := by
  exact ⟨rfl, rfl, rfl, rfl⟩

end AvrConformance.Link
