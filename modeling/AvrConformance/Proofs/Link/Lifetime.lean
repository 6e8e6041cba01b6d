import AvrConformance.Proofs.Link.Service

/-!
# The life of a session

A session shakes hands, serves requests, and is let go, by its owner or in the end
without a word from it. If shaking hands fails, no request is served. Whatever happens,
the life of a session up to its release is a row of rounds: those of its opening, and
then those that the requests call for (`exists_rounds_held`).
-/

namespace AvrConformance.Link

open Exchange (transact)

variable {π : Type} [Peer π]

namespace Session

/-- A session after some requests. -/
def through (requests : List Request) (s : Session π) : Session π :=
  requests.foldl (fun s q => (target q s).2) s

@[simp] theorem through_cons (q : Request) (requests : List Request) (s : Session π) :
    s.through (q :: requests) = (target q s).2.through requests := rfl

/-- The requests that a session comes to serve: none if shaking hands fails. -/
def served (wantNoAck : Bool) (requests : List Request) (s : Session π) : List Request :=
  match ((Exchange.handshake wantNoAck).conduct s).1 with
  | .ok () => requests
  | .error _ => []

/-- A session as it is held once it has shaken hands and served what it comes to serve. -/
def held (wantNoAck : Bool) (requests : List Request) (s : Session π) : Session π :=
  match (Exchange.handshake wantNoAck).conduct s with
  | (.ok (), s) => (s.withNote ⟨.info, s!"connected to target at {s.address}"⟩).through requests
  | (.error _, s) => s

/-- A session that is opened, serves requests if that succeeds, and is let go. -/
def live (wantNoAck : Bool) (requests : List Request) (s : Session π) : Session π :=
  match s.start wantNoAck with
  | (.ok (), s) => (s.through requests).release
  | (.error _, s) => s

/-- A session is let go whether or not shaking hands succeeds. -/
theorem live_eq (wantNoAck : Bool) (requests : List Request) (s : Session π) :
    s.live wantNoAck requests = (s.held wantNoAck requests).release := by
  unfold live held start settle
  rcases (Exchange.handshake wantNoAck).conduct s with ⟨e | _, s⟩ <;> rfl

end Session

/-! ## The opening -/

/-- The commands by which a session is opened. -/
def opening (wantNoAck : Bool) : List Command :=
  (if wantNoAck then [.startNoAck] else []) ++ [.lastStop]

/-- Acknowledgements are done without if and only if the peer agrees. -/
theorem exists_serves_negotiate (s : Session π) :
    ∃ rs, Serves s [.startNoAck] (Exchange.negotiate.conduct s) rs := by
  obtain ⟨r, hcommand, htakes⟩ := exists_takes .startNoAck s
  have hconduct := htakes.result_eq hcommand
  generalize ((transact .startNoAck).conduct s).2 = s₁ at htakes hconduct
  simp only [Exchange.negotiate, Exchange.conduct_bind, hconduct]
  rw [← hcommand]
  cases hresult : r.result with
  | error e =>
      have hhushes : r.hushes = false := by simp only [Round.hushes, hresult]
      refine ⟨[r], serves_of_round (.single htakes hhushes) htakes.kept fun e' he => ?_⟩
      injection hresult.symm.trans he with hsame
      rw [hsame]
  | ok reply =>
      have hnever : ∀ {outcome : Except LinkError Unit} e, r.result = .error e →
          outcome = .error e := fun e he => nomatch hresult.symm.trans he
      dsimp only
      by_cases hagreed : reply = "OK"
      · have hhushes : r.hushes = true := by
          simp only [Round.hushes, hresult, hcommand, hagreed, and_self, decide_true]
        rw [if_pos hagreed, Exchange.conduct_change]
        refine ⟨[r], serves_of_round (.taken htakes ?_) htakes.kept hnever⟩
        rw [hhushes, Bool.or_true]
        exact .nil _
      · have hhushes : r.hushes = false := by
          simp only [Round.hushes, hresult, hagreed, and_false, decide_false]
        rw [if_neg hagreed, Exchange.note, Exchange.conduct_change]
        exact ⟨[r], serves_of_round ((Rounds.single htakes hhushes).trans (.note _ _))
          htakes.kept hnever⟩

theorem exists_serves_handshake (wantNoAck : Bool) (s : Session π) :
    ∃ rs, Serves s (opening wantNoAck) ((Exchange.handshake wantNoAck).conduct s) rs := by
  have hnote : ∀ (n : Note) (s : Session π),
      Serves s [] ((Exchange.change (Session.withNote n)).conduct s) [] := by
    intro n s
    exact { Serves.done () with rounds := .note s _, kept := rfl }
  have hlast : ∀ (_ : Unit) (s : Session π), ∃ rs, Serves s [.lastStop]
      ((Exchange.stopAfter .lastStop >>= fun stop =>
        Exchange.note .debug s!"initial stop: {stop.text}").conduct s) rs := by
    intro _ s
    obtain ⟨r, rs, hserves⟩ := exists_serves_single (c := .lastStop) nofun Reply.stop s
    obtain ⟨later, hall⟩ := exists_serves_bind hserves fun stop s => ⟨[], hnote _ s⟩
    exact ⟨_, hall⟩
  have hfirst : ∃ rs, Serves s (if wantNoAck then [.startNoAck] else [])
      ((if wantNoAck then Exchange.negotiate else pure () : Exchange π Unit).conduct s) rs := by
    cases wantNoAck with
    | true => exact exists_serves_negotiate s
    | false => exact ⟨[], .done ()⟩
  obtain ⟨rs, hserves⟩ := hfirst
  obtain ⟨later, hall⟩ := exists_serves_bind hserves hlast
  refine ⟨rs ++ later, ?_⟩
  cases wantNoAck <;> exact hall

/-- A session that has been opened has not failed yet, and is connected. -/
theorem sound_of_start {wantNoAck : Bool} {s : Session π} (h : (s.start wantNoAck).1 = .ok ()) :
    (s.start wantNoAck).2.poisoned = s.poisoned ∧
      (s.start wantNoAck).2.connected = s.connected := by
  obtain ⟨rs, hserves⟩ := exists_serves_handshake wantNoAck s
  unfold Session.start at h ⊢
  rcases hconduct : (Exchange.handshake wantNoAck).conduct s with ⟨e | _, s₁⟩
  · rw [hconduct] at h
    cases h
  · rw [hconduct] at hserves
    have hnever : rs.any Round.failed = false := by
      rw [List.any_eq_false]
      intro r hr
      rw [hserves.went_of_ok rfl r hr]
      exact Bool.false_ne_true
    have hpoisoned := hserves.rounds.poisoned
    rw [hnever, Bool.or_false] at hpoisoned
    exact ⟨hpoisoned, hserves.kept⟩

/-! ## Requests in turn -/

/-- The rounds are those that the requests call for in turn, as far as each of them gets. -/
inductive CalledFor : List Request → List Round → Prop
  | nil : CalledFor [] []
  | cons {q : Request} {requests : List Request} {part rs : List Round}
      (asked : part.map Round.command <+: q.commands) (others : CalledFor requests rs) :
      CalledFor (q :: requests) (part ++ rs)

/-- A round that is called for carries out a command of one of the requests. -/
theorem CalledFor.exists_request {requests : List Request} {rs : List Round}
    (h : CalledFor requests rs) : ∀ r ∈ rs, ∃ q ∈ requests, r.command ∈ q.commands := by
  induction h with
  | nil => exact fun r hr => absurd hr List.not_mem_nil
  | @cons q _ _ _ asked _ ih =>
      intro r hr
      rcases List.mem_append.mp hr with hr | hr
      · exact ⟨q, List.mem_cons_self, asked.subset (List.mem_map_of_mem hr)⟩
      · obtain ⟨q', hq', hcommand⟩ := ih r hr
        exact ⟨q', List.mem_cons_of_mem q hq', hcommand⟩

/-- Every request is served in rounds of the commands that it calls for. -/
theorem exists_rounds_target (q : Request) (s : Session π) :
    ∃ part, Rounds s part (Session.target q s).2 ∧ part.map Round.command <+: q.commands := by
  by_cases hq : q = .close
  · subst hq
    rcases close_cases s with ⟨-, hidle⟩ | ⟨-, -, notes, hsilent⟩ |
      ⟨-, -, r, s₁, notes, hcommand, htakes, hparted⟩
    · rw [hidle]
      exact ⟨[], .nil s, List.nil_prefix⟩
    · rw [hsilent]
      exact ⟨[], .parted (.note _ notes), List.nil_prefix⟩
    · rw [hparted]
      have hhushes : r.hushes = false := Round.hushes_eq_false (by rw [hcommand]; nofun)
      refine ⟨[r], (Rounds.single htakes hhushes).trans (.parted (.note _ notes)), ?_⟩
      rw [List.map_cons, hcommand]
      exact List.prefix_rfl
  · obtain ⟨part, hserves, -⟩ := exists_serves hq s
    exact ⟨part, hserves.rounds, hserves.asked⟩

theorem exists_rounds_through (requests : List Request) (s : Session π) :
    ∃ rs, Rounds s rs (s.through requests) ∧ CalledFor requests rs := by
  induction requests generalizing s with
  | nil => exact ⟨[], .nil s, .nil⟩
  | cons q requests ih =>
      obtain ⟨part, hpart, hasked⟩ := exists_rounds_target q s
      obtain ⟨rs, hrs, hcalled⟩ := ih (Session.target q s).2
      exact ⟨part ++ rs, hpart.trans hrs, .cons hasked hcalled⟩

/-- **A session is a row of rounds**, those of its opening and then those that the
requests it comes to serve call for. -/
theorem exists_rounds_held (wantNoAck : Bool) (requests : List Request) (s : Session π) :
    ∃ first later, Rounds s (first ++ later) (s.held wantNoAck requests) ∧
      first.map Round.command <+: opening wantNoAck ∧
      CalledFor (s.served wantNoAck requests) later := by
  obtain ⟨first, hserves⟩ := exists_serves_handshake wantNoAck s
  unfold Session.held Session.served
  rcases hconduct : (Exchange.handshake wantNoAck).conduct s with ⟨e | _, s₁⟩
  · rw [hconduct] at hserves
    refine ⟨first, [], ?_, hserves.asked, .nil⟩
    rw [List.append_nil]
    exact hserves.rounds
  · rw [hconduct] at hserves
    obtain ⟨later, hlater, hcalled⟩ := exists_rounds_through requests
      (s₁.withNote ⟨.info, s!"connected to target at {s₁.address}"⟩)
    exact ⟨first, later, hserves.rounds.trans (.noted _ hlater), hserves.asked, hcalled⟩

end AvrConformance.Link
