import AvrConformance.Proofs.Journal
import AvrConformance.Target.Scripted

/-!
# Partial reports

A target may fail by any request of any case. Each case has a script of four requests,
or five with a reset, which it follows up to the first deed by which the driver fails
(`Opcode.scripted_verify`). Hence a run holds a verdict for every case whose script went
through, on the registers and the stop that the deeds of that very case tell, and
nothing is asked of the target behind the first failure (`Opcode.run_exact`).
-/

namespace AvrConformance

variable {σ : Type} {settings : RunSettings}

/-! ## Single requests -/

namespace Drive

/-- A procedure that makes one request, and comes to what the driver makes of the answer. -/
theorem scripted_of_settle {q : Request} {d : Drive q.Reply}
    (h : ∀ {σ : Type} (b : Bench σ) (s : σ), ∃ answer,
      (d.conduct b s).1 = q.settle answer ∧ d.deeds b s = [⟨q, answer⟩]) :
    d.Scripted [q] fun reply deeds =>
      ∃ answer, q.settle answer = .ok reply ∧ deeds = [⟨q, answer⟩] := by
  intro σ b s
  obtain ⟨answer, hresult, hdeeds⟩ := h b s
  rw [hresult, hdeeds]
  cases hsettle : q.settle answer with
  | ok reply =>
      refine .through rfl ?_ ⟨answer, hsettle, rfl⟩
      intro d hd
      rw [List.mem_singleton.mp hd]
      exact Deed.failure?_of_ok hsettle
  | error e =>
      show Follows _ _ _ ([] ++ [_])
      refine .broken List.prefix_rfl ?_ (Deed.failure?_of_error hsettle)
      intro d hd
      exact absurd hd List.not_mem_nil

theorem scripted_writeBlock (region : Region) (address : UInt32) (data : List UInt8) :
    (writeBlock region address data).Scripted [.writeMemory (region.locate address) data]
      fun _ _ => True :=
  (scripted_of_settle (q := .writeMemory (region.locate address) data)
    (d := writeBlock region address data) fun _ _ => ⟨_, rfl, rfl⟩).mono fun _ _ _ => trivial

theorem scripted_writeRegisters (registers : Snapshot) :
    (writeRegisters registers).Scripted [.writeRegisters registers] fun _ _ => True :=
  (scripted_of_settle (q := .writeRegisters registers) (d := writeRegisters registers)
    fun _ _ => ⟨_, rfl, rfl⟩).mono fun _ _ _ => trivial

theorem scripted_readRegisters :
    readRegisters.Scripted [.readRegisters] fun registers deeds =>
      deeds = [⟨.readRegisters, .ok registers⟩] := by
  refine (scripted_of_settle (q := .readRegisters) (d := readRegisters)
    fun _ _ => ⟨_, rfl, rfl⟩).mono ?_
  rintro registers deeds ⟨answer, hsettle, rfl⟩
  cases answer with
  | ok read =>
      injection hsettle with hread
      rw [hread]
  | error e => cases hsettle

/-- A stop that the driver takes is one that the target told, and after which it can go on. -/
theorem ofStop_eq_ok {action : String} {answer : Except LinkError Stop} {stop : Stop}
    (h : ofStop action answer = .ok stop) : answer = .ok stop ∧ stop.isStopped = true := by
  cases answer with
  | error e => cases h
  | ok told =>
      simp only [ofStop] at h
      split at h
      · rename_i hstopped
        injection h with htold
        subst htold
        exact ⟨rfl, hstopped⟩
      · cases h

theorem scripted_resume (signal : Option UInt8) :
    (resume signal).Scripted [.resume signal] fun stop deeds =>
      stop.isStopped = true ∧ deeds = [⟨.resume signal, .ok stop⟩] := by
  refine (scripted_of_settle (q := .resume signal) (d := resume signal) fun b s => ?_).mono ?_
  · refine ⟨(b.target (.resume signal) s).1, ?_, ?_⟩
    · rw [conduct_resume]
      rfl
    · show ((resume signal).conduct b.journaled (s, [])).2.2 = _
      rw [conduct_resume]
      rfl
  · rintro stop deeds ⟨answer, hsettle, rfl⟩
    obtain ⟨rfl, hstopped⟩ := ofStop_eq_ok hsettle
    exact ⟨hstopped, rfl⟩

theorem scripted_step :
    step.Scripted [.step] fun stop deeds =>
      stop.isStopped = true ∧ deeds = [⟨.step, .ok stop⟩] := by
  refine (scripted_of_settle (q := .step) (d := step) fun b s => ?_).mono ?_
  · refine ⟨(b.target .step s).1, ?_, ?_⟩
    · rw [conduct_step]
      rfl
    · show (step.conduct b.journaled (s, [])).2.2 = _
      rw [conduct_step]
      rfl
  · rintro stop deeds ⟨answer, hsettle, rfl⟩
    obtain ⟨rfl, hstopped⟩ := ofStop_eq_ok hsettle
    exact ⟨hstopped, rfl⟩

end Drive

/-! ## The script of a case -/

/-- The deed by which the instruction ran and the target stopped. -/
def Strategy.deed : Strategy → Stop → Deed
  | step, stop => ⟨.step, .ok stop⟩
  | breakAfter, stop => ⟨.resume none, .ok stop⟩

namespace Trial

/-- The deeds carry out the whole script, none of them is a failure, and the last two
tell how the target stopped and what its registers held then. -/
structure CapturedBy (t : Trial) (settings : RunSettings) (deeds : List Deed)
    (registers : Snapshot) (stop : Stop) : Prop where
  asked : deeds.map Deed.request = t.script settings
  went : ∀ d ∈ deeds, d.failure? = none
  told : [settings.strategy.deed stop, ⟨.readRegisters, .ok registers⟩] <:+ deeds

/-- The deeds begin the script and end with the first failure. -/
structure BrokenBy (t : Trial) (settings : RunSettings) (deeds : List Deed)
    (cause : DriveError) : Prop where
  asked : deeds.map Deed.request <+: t.script settings
  failed : ∃ done last, deeds = done ++ [last] ∧ (∀ d ∈ done, d.failure? = none) ∧
    last.failure? = some cause

theorem BrokenBy.exists_failed {t : Trial} {deeds : List Deed} {cause : DriveError}
    (h : t.BrokenBy settings deeds cause) : ∃ d ∈ deeds, d.failure? ≠ none := by
  obtain ⟨done, last, rfl, -, hlast⟩ := h.failed
  refine ⟨last, List.mem_append_right done List.mem_cons_self, ?_⟩
  rw [hlast]
  exact Option.some_ne_none cause

theorem scripted_prepare (settings : RunSettings) :
    (prepare settings).Scripted
      (if settings.resetBetweenCases then [.resume (some Stop.hangup)] else [])
      fun _ _ => True := by
  unfold prepare
  cases settings.resetBetweenCases with
  | true =>
      show Drive.Scripted _ ([.resume (some Stop.hangup)] ++ []) _
      refine Drive.scripted_bind (Drive.scripted_resume (some Stop.hangup))
        (fun _ => Drive.scripted_pure ()) ?_
      intro stop u deeds others _ _
      trivial
  | false => exact (Drive.scripted_pure ()).mono fun _ _ _ => trivial

theorem scripted_place (t : Trial) (strategy : Strategy) :
    (t.place strategy).Scripted
      [.writeMemory (Region.code.locate t.initial.pc) (t.image strategy),
        .writeRegisters t.initial]
      fun _ _ => True :=
  Drive.scripted_bind (Drive.scripted_writeBlock _ _ _)
    (fun _ => Drive.scripted_writeRegisters _) fun _ _ => trivial

theorem scripted_launch (strategy : Strategy) :
    strategy.launch.Scripted [strategy.request] fun stop deeds =>
      deeds = [strategy.deed stop] := by
  cases strategy with
  | step => exact Drive.scripted_step.mono fun _ _ h => h.2
  | breakAfter => exact (Drive.scripted_resume none).mono fun _ _ h => h.2

theorem scripted_capture (strategy : Strategy) :
    (capture strategy).Scripted [strategy.request, .readRegisters] fun captured deeds =>
      deeds = [strategy.deed captured.2, ⟨.readRegisters, .ok captured.1⟩] := by
  have hread : ∀ stop : Stop,
      Drive.Scripted (do let registers ← Drive.readRegisters; return (registers, stop))
        ([.readRegisters] ++ []) fun captured deeds =>
          captured.2 = stop ∧ deeds = [⟨.readRegisters, .ok captured.1⟩] := by
    intro stop
    refine Drive.scripted_bind Drive.scripted_readRegisters
      (fun registers => Drive.scripted_pure (registers, stop)) ?_
    rintro registers captured deeds others rfl ⟨rfl, rfl⟩
    exact ⟨rfl, rfl⟩
  show Drive.Scripted _ ([strategy.request] ++ [.readRegisters]) _
  refine Drive.scripted_bind (scripted_launch strategy) hread ?_
  rintro stop captured deeds others rfl ⟨rfl, rfl⟩
  rfl

theorem scripted_execute (t : Trial) (settings : RunSettings) :
    (t.execute settings).Scripted (t.script settings) fun captured deeds =>
      [settings.strategy.deed captured.2, ⟨.readRegisters, .ok captured.1⟩] <:+ deeds := by
  have hplaced : Drive.Scripted
      (t.place settings.strategy >>= fun _ => capture settings.strategy)
      ([.writeMemory (Region.code.locate t.initial.pc) (t.image settings.strategy),
          .writeRegisters t.initial] ++ [settings.strategy.request, .readRegisters])
      fun captured deeds =>
        [settings.strategy.deed captured.2, ⟨.readRegisters, .ok captured.1⟩] <:+ deeds := by
    refine Drive.scripted_bind (scripted_place t settings.strategy)
      (fun _ => scripted_capture settings.strategy) ?_
    rintro _ captured deeds others - rfl
    exact List.suffix_append _ _
  rw [execute_eq]
  refine Drive.scripted_bind (scripted_prepare settings) (fun _ => hplaced) ?_
  intro _ captured deeds others _ htold
  exact htold.trans (List.suffix_append _ _)

/-- The stop that the deeds tell is the work of a signal. -/
theorem CapturedBy.stop_eq {t : Trial} {deeds : List Deed} {registers : Snapshot} {stop : Stop}
    (h : t.CapturedBy settings deeds registers stop) : ∃ number, stop = .signal number := by
  have hmem : settings.strategy.deed stop ∈ deeds := h.told.subset List.mem_cons_self
  have hwent := h.went _ hmem
  cases stop with
  | signal number => exact ⟨number, rfl⟩
  | exited status => cases hs : settings.strategy <;> rw [hs] at hwent <;> cases hwent
  | terminated number => cases hs : settings.strategy <;> rw [hs] at hwent <;> cases hwent

end Trial

namespace Opcode

/-! ## The verdicts of a run -/

theorem deeds_verify (o : Opcode) (c : Case) (settings : RunSettings) (b : Bench σ) (s : σ) :
    (o.verify c settings).deeds b s = (c.execute settings).deeds b s := by
  show ((o.verify c settings).conduct b.journaled (s, [])).2.2 = _
  rw [conduct_verify, Drive.conduct_journaled]
  rcases (c.execute settings).conduct b s with ⟨_ | captured, s⟩
  · rfl
  · rfl

/-- A case is verified on what its own deeds tell, or breaks off with the first failure. -/
theorem verify_cases (o : Opcode) (c : Case) (settings : RunSettings) (b : Bench σ) (s : σ) :
    (∃ registers stop, c.CapturedBy settings ((o.verify c settings).deeds b s) registers stop ∧
        ((o.verify c settings).conduct b s).1 = .ok (o.judge c registers stop)) ∨
      ∃ cause, c.BrokenBy settings ((o.verify c settings).deeds b s) cause ∧
        ((o.verify c settings).conduct b s).1 = .error cause := by
  have hfollows := c.scripted_execute settings σ b s
  rw [o.deeds_verify, o.conduct_verify]
  generalize (c.execute settings).deeds b s = deeds at hfollows ⊢
  generalize (c.execute settings).conduct b s = conducted at hfollows ⊢
  obtain ⟨result, s₁⟩ := conducted
  dsimp only at hfollows
  cases hfollows with
  | @through captured _ asked went told => exact .inl ⟨_, _, ⟨asked, went, told⟩, rfl⟩
  | broken asked went failed => exact .inr ⟨_, ⟨asked, _, _, rfl, went, failed⟩, rfl⟩

theorem deeds_verifyAll_cons (o : Opcode) (settings : RunSettings) (c : Case) (rest : List Case)
    (b : Bench σ) (s : σ) :
    Procedure.deeds (o.verifyAll settings (c :: rest)) b s =
      (o.verify c settings).deeds b s ++
        match (o.verify c settings).conduct b s with
        | (.error _, _) => []
        | (.ok v, s) => Procedure.deeds (o.verifyAll settings rest) b (noteFailure b v s) := by
  have hnote : ∀ (v : Verdict) (s : σ) (past : List Deed),
      noteFailure b.journaled v (s, past) = (noteFailure b v s, past) := by
    intro v s past
    unfold noteFailure
    split <;> rfl
  rw [Procedure.deeds, run_verifyAll_cons, Drive.conduct_journaled]
  rcases (o.verify c settings).conduct b s with ⟨_ | v, s⟩
  · simp
  · simp only [hnote, Procedure.run_journaled, List.nil_append]

/-- The verdicts are those on the cases, one for each and in order, and each of them is
on what the deeds of its own case tell. -/
inductive Judges (o : Opcode) (settings : RunSettings) :
    List Case → List Deed → List Verdict → Prop
  | nil : Judges o settings [] [] []
  | cons {c : Case} {cases : List Case} {deeds others : List Deed} {registers : Snapshot}
      {stop : Stop} {verdicts : List Verdict}
      (first : c.CapturedBy settings deeds registers stop)
      (rest : Judges o settings cases others verdicts) :
      Judges o settings (c :: cases) (deeds ++ others) (o.judge c registers stop :: verdicts)

namespace Judges

variable {o : Opcode} {cases : List Case} {deeds : List Deed} {verdicts : List Verdict}

theorem went (h : o.Judges settings cases deeds verdicts) : ∀ d ∈ deeds, d.failure? = none := by
  induction h with
  | nil => exact fun d hd => absurd hd List.not_mem_nil
  | cons first _ ih =>
      intro d hd
      exact (List.mem_append.mp hd).elim (first.went d) (ih d)

theorem stop_eq (h : o.Judges settings cases deeds verdicts) :
    ∀ v ∈ verdicts, ∃ number, v.stop = .signal number := by
  induction h with
  | nil => exact fun v hv => absurd hv List.not_mem_nil
  | cons first _ ih =>
      intro v hv
      rcases List.mem_cons.mp hv with rfl | hv
      · exact first.stop_eq
      · exact ih v hv

end Judges

/-- The cases are all verified, or those before one that the driver failed during. -/
theorem verifyAll_cases (o : Opcode) (settings : RunSettings) (cases : List Case) (b : Bench σ)
    (s : σ) :
    (∃ verdicts,
        ((o.verifyAll settings cases).run b s).1 = (verdicts, none) ∧
        o.Judges settings cases (Procedure.deeds (o.verifyAll settings cases) b s) verdicts) ∨
      ∃ verdicts before c after earlier broken cause,
        ((o.verifyAll settings cases).run b s).1 = (verdicts, some (c, cause)) ∧
        cases = before ++ c :: after ∧
        Procedure.deeds (o.verifyAll settings cases) b s = earlier ++ broken ∧
        o.Judges settings before earlier verdicts ∧ c.BrokenBy settings broken cause := by
  induction cases generalizing s with
  | nil => exact .inl ⟨[], rfl, .nil⟩
  | cons c rest ih =>
      have hfirst := o.verify_cases c settings b s
      rw [deeds_verifyAll_cons, run_verifyAll_cons]
      generalize (o.verify c settings).deeds b s = deeds at hfirst ⊢
      generalize (o.verify c settings).conduct b s = conducted at hfirst ⊢
      obtain ⟨result, s₁⟩ := conducted
      rcases hfirst with ⟨registers, stop, hcaptured, rfl⟩ | ⟨cause, hbroken, rfl⟩
      · dsimp only
        rcases ih (noteFailure b (o.judge c registers stop) s₁) with
          ⟨verdicts, hrun, hjudges⟩ |
          ⟨verdicts, before, last, after, earlier, broken, cause, hrun, rfl, hdeeds, hjudges, hlast⟩
        · exact .inl ⟨_, by rw [hrun], .cons hcaptured hjudges⟩
        · refine .inr ⟨_, c :: before, last, after, deeds ++ earlier, broken, cause, by rw [hrun],
            rfl, ?_, .cons hcaptured hjudges, hlast⟩
          rw [hdeeds, List.append_assoc]
      · exact .inr ⟨[], [], c, rest, [], deeds, cause, rfl, rfl, by simp, .nil, hbroken⟩

/-! ## The report of a run -/

/-- Between its notes, a run does what verifying its cases does. -/
theorem deeds_run_of_ok {o : Opcode} {settings : RunSettings} {cases : List Case}
    (h : o.cases settings.baseline = .ok cases) (b : Bench σ) (s : σ) :
    Procedure.deeds (o.run settings) b s =
      Procedure.deeds (o.verifyAll settings cases) b (b.note (o.openingNote cases) s) := by
  rw [Procedure.deeds, run_run_of_ok h]
  show ((o.verifyAll settings cases).run b.journaled
    (b.note (o.openingNote cases) s, [])).2.2 = _
  rfl

theorem run_of_error {o : Opcode} {settings : RunSettings} {e : EncodeError}
    (h : o.cases settings.baseline = .error e) (b : Bench σ) (s : σ) :
    (o.run settings).run b s = (.error (.encode e), s) ∧
      Procedure.deeds (o.run settings) b s = [] := by
  refine ⟨run_run_of_error h b s, ?_⟩
  rw [Procedure.deeds, run_run_of_error h]

/-- A run whose cases can be built has verdicts on all of them, or is aborted at one. -/
theorem run_of_ok (o : Opcode) (settings : RunSettings) {cases : List Case}
    (h : o.cases settings.baseline = .ok cases) (b : Bench σ) (s : σ) :
    (∃ moment verdicts,
        o.Judges settings cases (Procedure.deeds (o.run settings) b s) verdicts ∧
        ((o.run settings).run b s).1 = .ok ⟨o.mnemonic, moment, verdicts, none⟩) ∨
      ∃ before c after earlier broken cause moment verdicts,
        cases = before ++ c :: after ∧
        Procedure.deeds (o.run settings) b s = earlier ++ broken ∧
        o.Judges settings before earlier verdicts ∧ c.BrokenBy settings broken cause ∧
        ((o.run settings).run b s).1 = .error (.aborted c.label cause
          ⟨o.mnemonic, moment, verdicts, some (abortReason c cause)⟩) := by
  let opened := b.note (o.openingNote cases) s
  have hresult : ((o.run settings).run b s).1 =
      o.conclude (b.clock opened) ((o.verifyAll settings cases).run b opened).1 := by
    rw [run_run_of_ok h]
  rw [deeds_run_of_ok h, hresult]
  rcases o.verifyAll_cases settings cases b opened with ⟨verdicts, hverdicts, hjudges⟩ |
    ⟨verdicts, before, c, after, earlier, broken, cause, hverdicts, hcases, hdeeds, hjudges,
      hbroken⟩
  · rw [hverdicts]
    exact .inl ⟨b.clock opened, verdicts, hjudges, rfl⟩
  · rw [hverdicts]
    exact .inr ⟨before, c, after, earlier, broken, cause, b.clock opened, verdicts, hcases,
      hdeeds, hjudges, hbroken, rfl⟩

/-- **A run is reported exactly**, whatever the target does. If the cases cannot be built,
nothing is done. If none of the deeds is a failure, there is a verdict for each case in
order, on what its own deeds tell. Otherwise the run is aborted at the case during which
the first failure happened: the report is marked, it holds the verdicts on the cases
before that one, and the failure is the last deed. Whatever is reported, only signals
stopped the target. -/
theorem run_exact (o : Opcode) (settings : RunSettings) (b : Bench σ) (s : σ) :
    let result := ((o.run settings).run b s).1
    let deeds := Procedure.deeds (o.run settings) b s
    (∀ e, o.cases settings.baseline = .error e →
      (o.run settings).run b s = (.error (.encode e), s) ∧ deeds = []) ∧
    (∀ cases, o.cases settings.baseline = .ok cases →
      ((∀ d ∈ deeds, d.failure? = none) →
        ∃ moment verdicts, o.Judges settings cases deeds verdicts ∧
          result = .ok ⟨o.mnemonic, moment, verdicts, none⟩) ∧
      ((∃ d ∈ deeds, d.failure? ≠ none) →
        ∃ before c after earlier broken cause moment verdicts,
          cases = before ++ c :: after ∧ deeds = earlier ++ broken ∧
          o.Judges settings before earlier verdicts ∧ c.BrokenBy settings broken cause ∧
          result = .error (.aborted c.label cause
            ⟨o.mnemonic, moment, verdicts, some (abortReason c cause)⟩))) ∧
    (∀ r ∈ (Campaign.ofRun result).reports, ∀ v ∈ r.verdicts,
      ∃ number, v.stop = .signal number) := by
  intro result deeds
  cases hcases : o.cases settings.baseline with
  | error e =>
      obtain ⟨hrun, hidle⟩ := run_of_error hcases b s
      refine ⟨?_, ?_, ?_⟩
      · rintro _ ⟨⟩
        exact ⟨hrun, hidle⟩
      · intro _ hbuilt
        cases hbuilt
      · intro r hr
        simp [result, hrun, Campaign.ofRun] at hr
  | ok cases =>
      refine ⟨?_, ?_⟩
      · intro _ hdefect
        cases hdefect
      rcases o.run_of_ok settings hcases b s with ⟨moment, verdicts, hjudges, hresult⟩ |
        ⟨before, c, after, earlier, broken, cause, moment, verdicts, rfl, hdeeds, hjudges, hbroken,
          hresult⟩
      · refine ⟨?_, ?_⟩
        · rintro _ ⟨⟩
          refine ⟨fun _ => ⟨moment, verdicts, hjudges, hresult⟩, ?_⟩
          rintro ⟨d, hd, hfailed⟩
          exact absurd (hjudges.went d hd) hfailed
        · intro r hr
          rw [show result = _ from hresult] at hr
          rw [List.mem_singleton.mp hr]
          exact hjudges.stop_eq
      · refine ⟨?_, ?_⟩
        · rintro _ ⟨⟩
          refine ⟨?_, fun _ => ⟨before, c, after, earlier, broken, cause, moment, verdicts, rfl,
            hdeeds, hjudges, hbroken, hresult⟩⟩
          intro hwent
          obtain ⟨d, hd, hfailed⟩ := hbroken.exists_failed
          have hmem : d ∈ deeds := by
            rw [show deeds = _ from hdeeds]
            exact List.mem_append_right earlier hd
          exact absurd (hwent d hmem) hfailed
        · intro r hr
          rw [show result = _ from hresult] at hr
          rw [List.mem_singleton.mp hr]
          exact hjudges.stop_eq

/-- A target that steps through the first of two cases and exits during the second: the
report holds the one verdict, and the exit is the last of the deeds. -/
theorem run_exact_of_exit :
    let o : Opcode :=
      { singleRegister "COM" .com 0x9400 [0x00, 0xFF] [.overflow] with first := 3, last := 3 }
    let settings : RunSettings := { resetBetweenCases := false }
    let s : Script := ⟨[{ done := true }, { done := true }, { stop := some (.signal Stop.trap) },
      { registers := some .zero }, { done := true }, { done := true },
      { stop := some (.exited 0) }], #[]⟩
    let b := Script.target.bench Timestamp.epoch
    let deeds := Procedure.deeds (o.run settings) b s
    ∃ cases, o.cases settings.baseline = .ok cases ∧ (∃ d ∈ deeds, d.failure? ≠ none) ∧
      ∃ before c after earlier broken cause moment verdicts,
        cases = before ++ c :: after ∧ deeds = earlier ++ broken ∧
        o.Judges settings before earlier verdicts ∧ c.BrokenBy settings broken cause ∧
        ((o.run settings).run b s).1 = .error (.aborted c.label cause
          ⟨o.mnemonic, moment, verdicts, some (abortReason c cause)⟩) := by
  intro o settings s b deeds
  have hfailures : deeds.map Deed.failure? = [none, none, none, none, none, none,
      some (.request "stepping" (.unexpectedStop (.exited 0)))] := rfl
  have hfailed : ∃ d ∈ deeds, d.failure? ≠ none := by
    have hmem : some (.request "stepping" (.unexpectedStop (.exited 0))) ∈
        deeds.map Deed.failure? := by
      rw [hfailures]
      simp
    obtain ⟨d, hd, hcause⟩ := List.mem_map.mp hmem
    refine ⟨d, hd, ?_⟩
    rw [hcause]
    exact Option.some_ne_none _
  exact ⟨_, rfl, hfailed, ((o.run_exact settings b s).2.1 _ rfl).2 hfailed⟩

end Opcode

end AvrConformance
