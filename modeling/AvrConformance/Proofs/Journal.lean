import AvrConformance.Proofs.Campaign

/-!
# Journals

What a procedure does to a target is told by its requests in order, each with its
answer: its **deeds**. A bench that keeps a journal of them is otherwise the bench
that it was (`run_journaled`), so that the deeds of a procedure are what it leaves in
an empty journal.

A procedure that may fail follows a **script** when it makes the requests of the
script in order, up to the first deed by which the driver fails, and makes none
behind that (`Drive.Scripted`). Scripts are joined as procedures are
(`scripted_bind`).
-/

namespace AvrConformance

variable {σ α β : Type}

/-- A request made of a target, with its answer. -/
structure Deed where
  request : Request
  answer : request.Answer

/-- What the driver makes of the answer to a request. -/
def Request.settle : (q : Request) → q.Answer → Except DriveError q.Reply
  | .readMemory address count, answer =>
    match answer with
    | .ok data =>
      if data.length = count then .ok data
      else .error (.request "reading memory" (.malformed (.blockLength count address data.length)))
    | .error e => .error (.request "reading memory" e)
  | .writeMemory _ _, answer => answer.mapError (.request "writing memory")
  | .readRegisters, answer => answer.mapError (.request "reading registers")
  | .writeRegisters _, answer => answer.mapError (.request "writing registers")
  | .resume _, answer => Drive.ofStop "resuming" answer
  | .step, answer => Drive.ofStop "stepping" answer
  | .close, answer => answer.mapError (.request "closing")

namespace Deed

/-- Why the driver fails by the deed, unless it does not: the request failed, or the
target stopped for good. -/
def failure? (d : Deed) : Option DriveError :=
  match d.request.settle d.answer with
  | .ok _ => none
  | .error e => some e

theorem failure?_of_ok {q : Request} {answer : q.Answer} {reply : q.Reply}
    (h : q.settle answer = .ok reply) : failure? ⟨q, answer⟩ = none := by
  simp only [failure?, h]

theorem failure?_of_error {q : Request} {answer : q.Answer} {e : DriveError}
    (h : q.settle answer = .error e) : failure? ⟨q, answer⟩ = some e := by
  simp only [failure?, h]

end Deed

/-! ## Keeping a journal -/

/-- The bench with a journal beside it. -/
def Bench.journaled (b : Bench σ) : Bench (σ × List Deed) where
  target q s :=
    let (answer, state) := b.target q s.1
    (answer, state, s.2 ++ [⟨q, answer⟩])
  note n s := (b.note n s.1, s.2)
  clock s := b.clock s.1

/-- What an inquiry adds to a journal. -/
def Inquiry.entry : (q : Inquiry) → q.Answer → List Deed
  | .request q, answer => [⟨q, answer⟩]
  | .note _, _ => []
  | .clock, _ => []

theorem Bench.answer_journaled (b : Bench σ) (q : Inquiry) (s : σ) (past : List Deed) :
    b.journaled.answer q (s, past) =
      ((b.answer q s).1, (b.answer q s).2, past ++ q.entry (b.answer q s).1) := by
  cases q with
  | request q => rfl
  | note n => simp [answer, journaled, Inquiry.entry]
  | clock => simp [answer, journaled, Inquiry.entry]

namespace Procedure

/-- What a procedure does to the target of a bench. -/
def deeds (p : Procedure α) (b : Bench σ) (s : σ) : List Deed :=
  (p.run b.journaled (s, [])).2.2

/-- A journal changes nothing else, and what it held before stays. -/
theorem run_journaled (p : Procedure α) (b : Bench σ) (s : σ) (past : List Deed) :
    p.run b.journaled (s, past) = ((p.run b s).1, (p.run b s).2, past ++ p.deeds b s) := by
  induction p generalizing s past with
  | done a => simp [deeds, run, Dialogue.run]
  | ask q next ih =>
      -- whatever is asked, the rest of the dialogue goes on from a longer journal
      have hstep : ∀ past, run (.ask q next) b.journaled (s, past) =
          run (next (b.answer q s).1) b.journaled
            ((b.answer q s).2, past ++ q.entry (b.answer q s).1) := by
        intro past
        show run (next (b.journaled.answer q (s, past)).1) b.journaled
          (b.journaled.answer q (s, past)).2 = _
        rw [Bench.answer_journaled]
      have hplain : run (.ask q next) b s = run (next (b.answer q s).1) b (b.answer q s).2 := rfl
      rw [deeds, hstep, hstep, hplain, ih, ih _ _ ([] ++ _)]
      simp only [List.nil_append, List.append_assoc]

theorem deeds_ask (q : Inquiry) (next : q.Answer → Procedure α) (b : Bench σ) (s : σ) :
    deeds (.ask q next) b s =
      q.entry (b.answer q s).1 ++ (next (b.answer q s).1).deeds b (b.answer q s).2 := by
  rw [deeds]
  show (run (next (b.journaled.answer q (s, [])).1) b.journaled
    (b.journaled.answer q (s, [])).2).2.2 = _
  rw [Bench.answer_journaled, run_journaled, List.nil_append]

@[simp] theorem deeds_pure (a : α) (b : Bench σ) (s : σ) :
    (pure a : Procedure α).deeds b s = [] := rfl

@[simp] theorem deeds_note (level : Level) (message : String) (b : Bench σ) (s : σ) :
    (note level message).deeds b s = [] := rfl

@[simp] theorem deeds_clock (b : Bench σ) (s : σ) : clock.deeds b s = [] := rfl

@[simp] theorem deeds_request (q : Request) (b : Bench σ) (s : σ) :
    (request q).deeds b s = [⟨q, (b.target q s).1⟩] := rfl

@[simp] theorem deeds_bind (p : Procedure α) (f : α → Procedure β) (b : Bench σ) (s : σ) :
    deeds (p >>= f) b s = p.deeds b s ++ (f (p.run b s).1).deeds b (p.run b s).2 := by
  rw [deeds, run_bind, run_journaled p, List.nil_append, run_journaled]

/-- What a procedure can come to ask is all that it does. -/
theorem of_mem_deeds {P : Inquiry → Prop} {p : Procedure α} (h : Dialogue.Asks P p)
    {b : Bench σ} {s : σ} {d : Deed} (hd : d ∈ p.deeds b s) : P (.request d.request) := by
  induction p generalizing s with
  | done a => exact absurd hd List.not_mem_nil
  | ask q next ih =>
      rw [deeds_ask, List.mem_append] at hd
      rcases hd with hd | hd
      · cases q with
        | request q =>
            rw [List.mem_singleton.mp hd]
            exact h.1
        | note n => exact absurd hd List.not_mem_nil
        | clock => exact absurd hd List.not_mem_nil
      · exact ih _ (h.2 _) hd

end Procedure

namespace Drive

/-- What a procedure that may fail does to the target of a bench. -/
def deeds (d : Drive α) (b : Bench σ) (s : σ) : List Deed := Procedure.deeds (ExceptT.run d) b s

theorem conduct_journaled (d : Drive α) (b : Bench σ) (s : σ) (past : List Deed) :
    d.conduct b.journaled (s, past) =
      ((d.conduct b s).1, (d.conduct b s).2, past ++ d.deeds b s) :=
  Procedure.run_journaled (ExceptT.run d) b s past

@[simp] theorem deeds_pure (a : α) (b : Bench σ) (s : σ) :
    (pure a : Drive α).deeds b s = [] := rfl

/-- A failure keeps what would come next from the target. -/
theorem deeds_bind (d : Drive α) (f : α → Drive β) (b : Bench σ) (s : σ) :
    (d >>= f).deeds b s =
      d.deeds b s ++
        match d.conduct b s with
        | (.ok a, s) => (f a).deeds b s
        | (.error _, _) => [] := by
  have hrun : (d >>= f).deeds b s = ((d >>= f).conduct b.journaled (s, [])).2.2 := rfl
  rw [hrun, conduct_bind, conduct_journaled, List.nil_append]
  rcases d.conduct b s with ⟨_ | a, s⟩
  · simp
  · simp only [conduct_journaled]

end Drive

/-! ## Scripts -/

/-- How a procedure with a script comes off: all of it is carried out and no deed is a
failure, or the last deed is the first failure. -/
inductive Follows (script : List Request) (told : α → List Deed → Prop) :
    Except DriveError α → List Deed → Prop
  | through {a : α} {deeds : List Deed} (asked : deeds.map Deed.request = script)
      (went : ∀ d ∈ deeds, d.failure? = none) (tells : told a deeds) :
      Follows script told (.ok a) deeds
  | broken {done : List Deed} {last : Deed} {cause : DriveError}
      (asked : (done ++ [last]).map Deed.request <+: script)
      (went : ∀ d ∈ done, d.failure? = none) (failed : last.failure? = some cause) :
      Follows script told (.error cause) (done ++ [last])

namespace Drive

/-- On every bench, the procedure follows the script, and what its result has to do
with its deeds is told. -/
def Scripted (d : Drive α) (script : List Request) (told : α → List Deed → Prop) : Prop :=
  ∀ (σ : Type) (b : Bench σ) (s : σ), Follows script told (d.conduct b s).1 (d.deeds b s)

theorem Scripted.mono {d : Drive α} {script : List Request} {told tells : α → List Deed → Prop}
    (h : d.Scripted script told) (htells : ∀ a deeds, told a deeds → tells a deeds) :
    d.Scripted script tells := by
  intro σ b s
  have hfollows := h σ b s
  generalize (d.conduct b s).1 = result at hfollows ⊢
  generalize d.deeds b s = deeds at hfollows ⊢
  cases hfollows with
  | through asked went told => exact .through asked went (htells _ _ told)
  | broken asked went failed => exact .broken asked went failed

theorem scripted_pure (a : α) :
    (pure a : Drive α).Scripted [] fun result deeds => result = a ∧ deeds = [] := by
  intro σ b s
  exact .through rfl (fun d hd => absurd hd List.not_mem_nil) ⟨rfl, rfl⟩

theorem scripted_bind {d : Drive α} {f : α → Drive β} {script more : List Request}
    {told : α → List Deed → Prop} {tells : α → β → List Deed → Prop}
    {tale : β → List Deed → Prop} (hd : d.Scripted script told)
    (hf : ∀ a, (f a).Scripted more (tells a))
    (htale : ∀ {a b deeds others}, told a deeds → tells a b others → tale b (deeds ++ others)) :
    (d >>= f).Scripted (script ++ more) tale := by
  intro σ b s
  rw [conduct_bind, deeds_bind]
  have hfirst := hd σ b s
  generalize d.deeds b s = deeds at hfirst ⊢
  generalize d.conduct b s = conducted at hfirst ⊢
  obtain ⟨result, s₁⟩ := conducted
  dsimp only at hfirst
  cases hfirst with
  | @through a _ asked went tells₁ =>
      have hrest := hf a σ b s₁
      dsimp only
      generalize ((f a).conduct b s₁).1 = result at hrest ⊢
      generalize (f a).deeds b s₁ = others at hrest ⊢
      cases hrest with
      | through asked' went' tells' =>
          refine .through ?_ ?_ (htale tells₁ tells')
          · rw [List.map_append, asked, asked']
          · intro x hx
            exact (List.mem_append.mp hx).elim (went x) (went' x)
      | broken asked' went' failed =>
          rw [← List.append_assoc]
          refine .broken ?_ ?_ failed
          · rw [List.append_assoc, List.map_append, asked]
            exact (List.prefix_append_right_inj script).mpr asked'
          · intro x hx
            exact (List.mem_append.mp hx).elim (went x) (went' x)
  | broken asked went failed =>
      -- what failed in the first part is the end of it all
      dsimp only
      rw [List.append_nil]
      exact .broken (asked.trans (List.prefix_append _ _)) went failed

end Drive

/-! ## Campaigns -/

/-- A campaign does what its first run does, and unless that is aborted, what the campaign
over the other opcodes does. -/
theorem Campaign.deeds_cons (settings : RunSettings) (o : Opcode) (rest : List Opcode) (b : Bench σ)
    (s : σ) :
    Procedure.deeds (run settings (o :: rest)) b s =
      Procedure.deeds (o.run settings) b s ++
        (let first := (o.run settings).run b s
        if (ofRun first.1).aborted then []
        else Procedure.deeds (run settings rest) b (noteSkipped o b first.2 first.1)) := by
  have hskipped : ∀ (result : Except RunError Report) (s : σ) (past : List Deed),
      noteSkipped o b.journaled (s, past) result = (noteSkipped o b s result, past) := by
    intro result s past
    rcases result with (_ | e) | report <;> rfl
  rw [Procedure.deeds, run_campaign_cons, Procedure.run_journaled, List.nil_append]
  dsimp only
  split
  · rw [List.append_nil]
  · rw [hskipped, Procedure.run_journaled]

end AvrConformance
