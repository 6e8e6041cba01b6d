import AvrConformance.Proofs.Campaign

/-!
# What a campaign inquires

A campaign keeps to the kinds of inquiry that its cases keep to, whatever it is answered
(`Campaign.asks_proceed`), and these are few (`Campaign.asks_run`). Between them, the
moments it is told have no part but in the reports that tell them
(`Campaign.run_of_clock`).
-/

namespace AvrConformance

variable {σ : Type}

/-- What the cases of a campaign may inquire: they load a few bytes of code at a time,
move registers, and run the target. They neither read memory nor take leave. -/
def Inquiry.OfCase : Inquiry → Prop
  | .request (.writeMemory _ data) => 0 < data.length ∧ data.length ≤ 4
  | .request .readRegisters => True
  | .request (.writeRegisters _) => True
  | .request (.resume _) => True
  | .request .step => True
  | .request (.readMemory _ _) => False
  | .request .close => False
  | .note _ => True
  | .clock => False

/-- A campaign reads the clock besides. -/
def Inquiry.OfCampaign (q : Inquiry) : Prop := q.OfCase ∨ q = .clock

namespace Drive

variable {P : Inquiry → Prop} {α β : Type}

/-- Every inquiry that a procedure that may fail can come to is of a certain kind. -/
def Asks (P : Inquiry → Prop) (d : Drive α) : Prop := Dialogue.Asks P (ExceptT.run d)

theorem asks_bind {d : Drive α} {f : α → Drive β} (hd : d.Asks P) (hf : ∀ a, (f a).Asks P) :
    (d >>= f).Asks P := by
  refine Dialogue.asks_bind hd fun result => ?_
  cases result with
  | ok a => exact hf a
  | error e => trivial

theorem asks_request {action : String} {q : Request} (hq : P (.request q)) :
    (request action q).Asks P :=
  Dialogue.asks_bind ((Dialogue.asks_question _).mpr hq) fun _ => trivial

theorem asks_note {level : Level} {message : String} (hn : P (.note ⟨level, message⟩)) :
    (note level message).Asks P :=
  Dialogue.asks_bind ((Dialogue.asks_question _).mpr hn) fun _ => trivial

theorem asks_requireStopped (action : String) (stop : Stop) :
    (requireStopped action stop).Asks P := by
  unfold requireStopped
  split <;> trivial

theorem asks_resume {signal : Option UInt8} (hq : P (.request (.resume signal))) :
    (resume signal).Asks P :=
  asks_bind (asks_request hq) (asks_requireStopped _)

theorem asks_step (hq : P (.request .step)) : step.Asks P :=
  asks_bind (asks_request hq) (asks_requireStopped _)

end Drive

/-- A note, or a request of a script. -/
def Inquiry.Among (script : List Request) : Inquiry → Prop
  | .request q => q ∈ script
  | .note _ => True
  | .clock => False

namespace Trial

/-- A trial makes no requests but those of its script. -/
theorem asks_execute (t : Trial) (settings : RunSettings) :
    (t.execute settings).Asks (Inquiry.Among (t.script settings)) := by
  rw [execute_eq]
  refine Drive.asks_bind ?_ fun _ => Drive.asks_bind ?_ fun _ => Drive.asks_bind ?_ fun _ => ?_
  · rw [prepare]
    split
    · rename_i hreset
      refine Drive.asks_bind (Drive.asks_resume ?_) fun _ => trivial
      simp [Inquiry.Among, script, hreset]
    · trivial
  · refine Drive.asks_bind ?_ fun _ => Drive.asks_request (by simp [Inquiry.Among, script])
    refine Drive.asks_bind (Drive.asks_note trivial) fun _ => Drive.asks_request ?_
    simp [Inquiry.Among, script]
  · cases hstrategy : settings.strategy with
    | step => exact Drive.asks_step (by simp [Inquiry.Among, script, hstrategy, Strategy.request])
    | breakAfter =>
        exact Drive.asks_resume (by simp [Inquiry.Among, script, hstrategy, Strategy.request])
  · exact Drive.asks_bind (Drive.asks_request (by simp [Inquiry.Among, script])) fun _ => trivial

/-- The script holds none but the requests of a case. -/
theorem ofCase_of_among {t : Trial} {settings : RunSettings} {q : Inquiry}
    (h : q.Among (t.script settings)) : q.OfCase := by
  cases q with
  | note n => trivial
  | clock => exact absurd h id
  | request q =>
      have hrun : (Inquiry.request settings.strategy.request).OfCase := by
        cases settings.strategy <;> trivial
      simp only [Inquiry.Among, script, List.mem_append, List.mem_cons, List.not_mem_nil,
        or_false] at h
      rcases h with h | (rfl | rfl) | (rfl | rfl)
      · split at h
        · rw [List.mem_singleton.mp h]
          trivial
        · exact absurd h List.not_mem_nil
      · exact t.length_image settings.strategy
      · trivial
      · exact hrun
      · trivial

end Trial

/-! ## From cases to campaigns

What is asked beyond what the cases ask are notes, and once in a run the clock. So a kind
of inquiry that has room for both is kept to by a campaign if each of its cases does. -/

section Kind

variable {P : Inquiry → Prop} {settings : RunSettings} (hnote : ∀ n, P (.note n))

include hnote

theorem Opcode.asks_verify (o : Opcode) {c : Case} (h : (c.execute settings).Asks P) :
    (o.verify c settings).Asks P :=
  Drive.asks_bind h fun _ => Drive.asks_bind (Drive.asks_note (hnote _)) fun _ => trivial

theorem Opcode.asks_verifyFrom (o : Opcode) {cases : List Case}
    (h : ∀ c ∈ cases, (c.execute settings).Asks P) (soFar : Array Verdict) :
    Dialogue.Asks P (o.verifyFrom settings soFar cases) := by
  induction cases generalizing soFar with
  | nil => trivial
  | cons c rest ih =>
      have hfirst := o.asks_verify hnote (h c List.mem_cons_self)
      have hrest := ih fun c hc => h c (List.mem_cons_of_mem _ hc)
      refine Dialogue.asks_bind hfirst fun result => ?_
      cases result with
      | error cause => trivial
      | ok verdict =>
          dsimp only
          split
          · exact hrest _
          · exact Dialogue.asks_bind ((Dialogue.asks_question _).mpr (hnote _)) fun _ => hrest _

theorem Opcode.asks_verifyAll (o : Opcode) {cases : List Case}
    (h : ∀ c ∈ cases, (c.execute settings).Asks P) :
    Dialogue.Asks P (o.verifyAll settings cases) :=
  Dialogue.asks_bind (o.asks_verifyFrom hnote h _) fun _ => trivial

variable (hclock : P .clock)

include hclock

theorem Opcode.asks_run (o : Opcode)
    (h : ∀ cases, o.cases settings.baseline = .ok cases →
      ∀ c ∈ cases, (c.execute settings).Asks P) :
    Dialogue.Asks P (o.run settings) := by
  have hsaid : ∀ level message, Dialogue.Asks P (Procedure.note level message) := by
    intro level message
    exact (Dialogue.asks_question (Inquiry.note _)).mpr (hnote _)
  unfold run
  split
  · trivial
  · rename_i cases hcases
    refine Dialogue.asks_bind (hsaid _ _) fun _ => Dialogue.asks_bind ?_ fun _ =>
      Dialogue.asks_bind ?_ fun result => ?_
    · exact (Dialogue.asks_question Inquiry.clock).mpr hclock
    · exact o.asks_verifyAll hnote (h cases hcases)
    · obtain ⟨verdicts, _ | ⟨c, cause⟩⟩ := result
      · exact Dialogue.asks_bind (hsaid _ _) fun _ => trivial
      · exact Dialogue.asks_bind (hsaid _ _) fun _ => trivial

theorem Campaign.asks_proceed {opcodes : List Opcode}
    (h : ∀ o ∈ opcodes, ∀ cases, o.cases settings.baseline = .ok cases →
      ∀ c ∈ cases, (c.execute settings).Asks P) (soFar : Campaign) :
    Dialogue.Asks P (proceed settings soFar opcodes) := by
  induction opcodes generalizing soFar with
  | nil => trivial
  | cons o rest ih =>
      have hfirst := o.asks_run hnote hclock (h o List.mem_cons_self)
      have hrest := ih fun o ho => h o (List.mem_cons_of_mem _ ho)
      refine Dialogue.asks_bind hfirst fun result => ?_
      rcases result with (⟨_, _, report⟩ | e) | report
      · trivial
      · refine Dialogue.asks_bind ?_ fun _ => hrest _
        exact (Dialogue.asks_question (Inquiry.note _)).mpr (hnote _)
      · exact hrest _

end Kind

/-- A campaign makes no other inquiries, whatever it is answered. -/
theorem Campaign.asks_run (settings : RunSettings) (opcodes : List Opcode) :
    Dialogue.Asks Inquiry.OfCampaign (run settings opcodes) := by
  have hcase : ∀ c : Case, (c.execute settings).Asks Inquiry.OfCampaign := by
    intro c
    refine Dialogue.Asks.mono (fun q hq => ?_) (c.asks_execute settings)
    exact .inl (Trial.ofCase_of_among hq)
  exact asks_proceed (fun _ => .inl trivial) (.inr rfl) (fun _ _ _ _ c _ => hcase c) empty

/-! ## The clock -/

section Clock

variable {b b' : Bench σ} (htarget : b.target = b'.target) (hnote : b.note = b'.note)

include htarget hnote

/-- The clock has no part in verdicts. -/
theorem Opcode.run_verifyAll_of_clock (o : Opcode) (settings : RunSettings) (cases : List Case)
    (s : σ) : (o.verifyAll settings cases).run b s = (o.verifyAll settings cases).run b' s := by
  have hcase : ∀ c : Case, (c.execute settings).Asks Inquiry.OfCase := by
    intro c
    exact Dialogue.Asks.mono (fun _ => Trial.ofCase_of_among) (c.asks_execute settings)
  -- the clock is all that the two benches differ in, and no case asks for it
  have hstep : ∀ (q : Inquiry) (s t : σ), q.OfCase → s = t →
      (b.answer q s).1 = (b'.answer q t).1 ∧ (b.answer q s).2 = (b'.answer q t).2 := by
    rintro q s _ hq rfl
    cases q with
    | request q => simp only [Bench.answer, htarget, and_self]
    | note n => simp only [Bench.answer, hnote, and_self]
    | clock => exact absurd hq id
  obtain ⟨hresult, hleft⟩ :=
    Dialogue.run_lockstep hstep
      (o.asks_verifyAll (fun _ => trivial) fun c _ => hcase c) (rfl : s = s)
  exact Prod.ext hresult hleft

/-- Nor has it in a run, up to the moment that the report tells. -/
theorem Opcode.run_run_of_clock (o : Opcode) (settings : RunSettings) (moment : Timestamp)
    (s : σ) :
    (Campaign.ofRun ((o.run settings).run b s).1).dated moment =
        (Campaign.ofRun ((o.run settings).run b' s).1).dated moment ∧
      Campaign.noteSkipped o b ((o.run settings).run b s).2 ((o.run settings).run b s).1 =
        Campaign.noteSkipped o b' ((o.run settings).run b' s).2 ((o.run settings).run b' s).1 ∧
      ((o.run settings).run b s).2 = ((o.run settings).run b' s).2 := by
  cases hcases : o.cases settings.baseline with
  | error e =>
      rw [run_run_of_error hcases, run_run_of_error hcases]
      exact ⟨rfl, by rw [Campaign.noteSkipped, Campaign.noteSkipped, hnote], rfl⟩
  | ok cases =>
      rw [run_run_of_ok hcases, run_run_of_ok hcases]
      dsimp only
      rw [o.run_verifyAll_of_clock htarget hnote, hnote]
      rcases (o.verifyAll settings cases).run b' (b'.note (o.openingNote cases) s) with
        ⟨⟨verdicts, _ | ⟨c, cause⟩⟩, s'⟩
      · exact ⟨rfl, rfl, rfl⟩
      · exact ⟨rfl, rfl, rfl⟩

/-- What the clock shows decides nothing in a campaign but the moments that its
reports tell. -/
theorem Campaign.run_of_clock (settings : RunSettings) (opcodes : List Opcode)
    (moment : Timestamp) (s : σ) :
    ((run settings opcodes).run b s).1.dated moment =
        ((run settings opcodes).run b' s).1.dated moment ∧
      ((run settings opcodes).run b s).2 = ((run settings opcodes).run b' s).2 := by
  induction opcodes generalizing s with
  | nil => exact ⟨rfl, rfl⟩
  | cons o rest ih =>
      obtain ⟨hfirst, hskipped, hleft⟩ := o.run_run_of_clock htarget hnote settings moment s
      have haborted : (ofRun ((o.run settings).run b s).1).aborted =
          (ofRun ((o.run settings).run b' s).1).aborted := by
        have hdated := congrArg Campaign.aborted hfirst
        exact hdated
      rw [run_campaign_cons, run_campaign_cons]
      dsimp only
      rw [haborted, hskipped]
      split
      · exact ⟨hfirst, hleft⟩
      · obtain ⟨hrest, hend⟩ := ih (noteSkipped o b' ((o.run settings).run b' s).2
          ((o.run settings).run b' s).1)
        rw [dated_append, dated_append, hfirst, hrest]
        exact ⟨rfl, hend⟩

end Clock

end AvrConformance
