import AvrConformance.Proofs.Generation
import AvrConformance.Proofs.Isolation

/-!
# Both strategies

A step executes the one instruction at the program counter, and a resumed target goes on
up to a breakpoint. The breakpoint that `Strategy.breakAfter` puts behind the instruction
is therefore where the target stops if the instruction falls through: `next` may be right
or wrong, and the target may have held anything before, but both launches leave the same
registers (`conduct_launch_of_resumes`). So a case has one verdict under either strategy,
and a campaign, which sees nothing of a target but the verdicts (`run_campaign_alike`),
has one outcome (`strategies_agree`). It has if resets come to the same whatever the memory
holds, or none are wanted: a reset that goes by the breakpoint left in memory tells the
strategies apart (`campaigns_differ_of_resets`).
-/

namespace AvrConformance

variable {σ : Type} {b : Bench σ} {core : Core σ} {next : UInt16 → Snapshot → Snapshot}
  {settings : RunSettings}

/-! ## Campaigns over cases with the same verdicts -/

section Alike

variable {one other : RunSettings}

/-- Verifying a case comes to the same under two settings, in whatever state. -/
def Opcode.VerifiesAlike (o : Opcode) (one other : RunSettings) (b : Bench σ) (c : Case) : Prop :=
  ∀ s t, ((o.verify c one).conduct b s).1 = ((o.verify c other).conduct b t).1

/-- So does verifying many. -/
theorem Opcode.run_verifyAll_alike {o : Opcode} {cases : List Case}
    (h : ∀ c ∈ cases, o.VerifiesAlike one other b c) (s t : σ) :
    ((o.verifyAll one cases).run b s).1 = ((o.verifyAll other cases).run b t).1 := by
  induction cases generalizing s t with
  | nil => rfl
  | cons c rest ih =>
      have hfirst := h c List.mem_cons_self s t
      rw [run_verifyAll_cons, run_verifyAll_cons]
      generalize (o.verify c one).conduct b s = left at hfirst ⊢
      generalize (o.verify c other).conduct b t = right at hfirst ⊢
      obtain ⟨answer, s'⟩ := left
      obtain ⟨_, t'⟩ := right
      cases hfirst
      cases answer with
      | error cause => rfl
      | ok v =>
          have hrest := ih (fun c hc => h c (List.mem_cons_of_mem _ hc))
            (noteFailure b v s') (noteFailure b v t')
          simp only [hrest]

/-- A run adds the same to a campaign, up to the moment it began. -/
theorem Campaign.dated_ofRun_alike (hbaseline : one.baseline = other.baseline) {o : Opcode}
    (h : ∀ cases, o.cases one.baseline = .ok cases →
      ∀ c ∈ cases, o.VerifiesAlike one other b c) (moment : Timestamp) (s t : σ) :
    (ofRun ((o.run one).run b s).1).dated moment =
      (ofRun ((o.run other).run b t).1).dated moment := by
  cases hcases : o.cases one.baseline with
  | error e =>
      have hother : o.cases other.baseline = .error e := by rw [← hbaseline, hcases]
      rw [Opcode.run_run_of_error hcases, Opcode.run_run_of_error hother]
  | ok cases =>
      have hother : o.cases other.baseline = .ok cases := by rw [← hbaseline, hcases]
      have hverdicts := Opcode.run_verifyAll_alike (h cases hcases)
        (b.note (o.openingNote cases) s) (b.note (o.openingNote cases) t)
      rw [Opcode.run_run_of_ok hcases, Opcode.run_run_of_ok hother]
      simp only [hverdicts]
      obtain ⟨verdicts, _ | ⟨c, cause⟩⟩ := (Procedure.run (o.verifyAll other cases) b _).1 <;>
        simp [Opcode.conclude, ofRun, dated, Report.dated, Report.tally]

/-- Campaigns have the same outcome, up to the moments they met. -/
theorem Campaign.run_campaign_alike (hbaseline : one.baseline = other.baseline)
    {opcodes : List Opcode}
    (h : ∀ o ∈ opcodes, ∀ cases, o.cases one.baseline = .ok cases →
      ∀ c ∈ cases, o.VerifiesAlike one other b c) (moment : Timestamp) (s t : σ) :
    ((run one opcodes).run b s).1.dated moment = ((run other opcodes).run b t).1.dated moment := by
  induction opcodes generalizing s t with
  | nil => rfl
  | cons o rest ih =>
      have hfirst := dated_ofRun_alike hbaseline (h o List.mem_cons_self) moment s t
      have haborted : (ofRun ((o.run one).run b s).1).aborted =
          (ofRun ((o.run other).run b t).1).aborted := by
        have := congrArg aborted hfirst
        exact this
      rw [run_campaign_cons, run_campaign_cons]
      simp only [haborted]
      split
      · exact hfirst
      · rw [dated_append, dated_append, hfirst,
          ih (fun o ho => h o (List.mem_cons_of_mem _ ho))]

end Alike

/-! ## One instruction, launched in two ways -/

/-- The instruction is no breakpoint, and passes on to what lies behind it. -/
def Trial.FallsThrough (t : Trial) (next : UInt16 → Snapshot → Snapshot) : Prop :=
  t.opcode ≠ Opcode.breakWord ∧ (next t.opcode t.initial).pc = t.initial.pc + 2

/-- An instruction with a breakpoint behind it runs once, and up to that. -/
theorem Trial.FallsThrough.runsToBreak {t : Trial} (h : t.FallsThrough next) (before : Memory) :
    RunsToBreak next (before.write t.initial.pc (t.image .breakAfter)) t.initial
      (next t.opcode t.initial) := by
  have hword : (before.write t.initial.pc (t.image .breakAfter)).word t.initial.pc = t.opcode :=
    before.word_write t.initial.pc t.opcode _
  have hbehind : (before.write t.initial.pc (t.image .breakAfter)).word (t.initial.pc + 2) =
      Opcode.breakWord := by
    have hfits : (t.image .breakAfter).length ≤ UInt32.size :=
      Nat.le_trans (t.length_image .breakAfter).2 (by decide)
    rw [image, Memory.write_append _ _ _ _ hfits]
    exact Memory.word_write _ _ Opcode.breakWord []
  refine .go (by rw [hword]; exact h.1) ?_
  rw [hword]
  refine .stop ?_
  rw [h.2]
  exact hbehind

/-- Launched by a resume, a trial that falls through leaves what a step would leave. -/
theorem conduct_launch_of_resumes (h : b.target.ResumesBy core next) {t : Trial}
    (ht : t.FallsThrough next) {s : σ} (hplaced : t.Placed .breakAfter core s) :
    ∃ s', Strategy.breakAfter.launch.conduct b s = (.ok (.signal Stop.trap), s') ∧
      core.registers s' = next t.opcode t.initial := by
  obtain ⟨hregisters, before, hmemory⟩ := hplaced
  have hrun : RunsToBreak next (core.memory s) (core.registers s) (next t.opcode t.initial) := by
    rw [hmemory, hregisters]
    exact ht.runsToBreak before
  obtain ⟨hstop, hleft⟩ := h s _ hrun
  refine ⟨(b.target (.resume none) s).2, ?_, hleft⟩
  rw [Strategy.launch, Drive.conduct_resume, hstop]
  rfl

/-- Once a trial can be prepared, it leaves the same under either strategy. -/
theorem conduct_execute_of_fallsThrough (hstores : b.target.Stores core)
    (hsteps : b.target.StepsBy core next fun _ _ => Stop.trap)
    (hresumes : b.target.ResumesBy core next) {t : Trial} (ht : t.FallsThrough next) {s s₁ : σ}
    (hprepare : (Trial.prepare settings).conduct b s = (.ok (), s₁)) :
    ∃ s', (t.execute settings).conduct b s =
      (.ok (next t.opcode t.initial, .signal Stop.trap), s') := by
  refine conduct_execute_of_launch hstores t ?_ hprepare
  intro s₂ hplaced
  cases hstrategy : settings.strategy with
  | step =>
      rw [hstrategy] at hplaced
      exact conduct_launch_of_steps hsteps t hplaced
  | breakAfter =>
      rw [hstrategy] at hplaced
      exact conduct_launch_of_resumes hresumes ht hplaced

/-- What verifying a case comes to that falls through: its verdict, unless its reset fails. -/
theorem conduct_verify_of_fallsThrough (hstores : b.target.Stores core)
    (hsteps : b.target.StepsBy core next fun _ _ => Stop.trap)
    (hresumes : b.target.ResumesBy core next) (o : Opcode) {c : Case} (hc : c.FallsThrough next)
    (s : σ) :
    ((o.verify c settings).conduct b s).1 =
      ((Trial.prepare settings).conduct b s).1.map fun _ =>
        o.verdictBy next (fun _ _ => Stop.trap) c := by
  rw [Opcode.conduct_verify]
  rcases hprepare : (Trial.prepare settings).conduct b s with ⟨e | _, s₁⟩
  · have hexecute : (c.execute settings).conduct b s = (.error e, s₁) := by
      rw [Trial.execute_eq, Drive.conduct_bind_error b hprepare]
    rw [hexecute]
    rfl
  · obtain ⟨s₂, hexecute⟩ :=
      conduct_execute_of_fallsThrough hstores hsteps hresumes hc hprepare
    rw [hexecute]
    rfl

/-- Resets come to the same in whatever state: they all succeed, or all fail in one way. -/
def Bench.ResetsEvenly (b : Bench σ) : Prop :=
  ∀ s t, (Drive.reset.conduct b s).1 = (Drive.reset.conduct b t).1

theorem Bench.resetsEvenly_of_resets (h : b.target.Resets) : b.ResetsEvenly := by
  -- with a reset wanted, to prepare is to reset
  let wanted : RunSettings := { resetBetweenCases := true }
  have hreset : ∀ s, (Drive.reset.conduct b s).1 = .ok () := by
    intro s
    obtain ⟨s', hprepare⟩ := conduct_prepare_of_resets wanted (fun _ => h) s
    exact congrArg Prod.fst hprepare
  intro s t
  rw [hreset s, hreset t]

/-- If resets are even, or none are wanted, the states before do not tell. -/
theorem conduct_prepare_of_even (settings : RunSettings)
    (heven : settings.resetBetweenCases = true → b.ResetsEvenly) (s t : σ) :
    ((Trial.prepare settings).conduct b s).1 = ((Trial.prepare settings).conduct b t).1 := by
  rw [Trial.prepare, Drive.conduct_ite, Drive.conduct_ite]
  split
  next hwanted => exact heven hwanted s t
  next => rfl

/-- **Both strategies agree.** On a machine that steps by a rule, right or wrong, and that,
let run, steps by it up to a breakpoint: a case that falls through has the same result
under either strategy, from every state and whatever a reset comes to; this is the verdict
on what the rule makes of it, if no reset is wanted or all resets succeed. Campaigns over
opcodes whose cases fall through have the same outcome, from any two states and up to the
moments at which their reports began, unless resets are wanted and come to different things. -/
theorem strategies_agree (hstores : b.target.Stores core)
    (hsteps : b.target.StepsBy core next fun _ _ => Stop.trap)
    (hresumes : b.target.ResumesBy core next) (settings : RunSettings) :
    let stepping := { settings with strategy := .step }
    let breaking := { settings with strategy := .breakAfter }
    (∀ (o : Opcode) (c : Case) (s : σ), c.FallsThrough next →
      ((o.verify c breaking).conduct b s).1 = ((o.verify c stepping).conduct b s).1 ∧
      ((settings.resetBetweenCases = true → b.target.Resets) →
        ((o.verify c breaking).conduct b s).1 =
          .ok (o.judge c (next c.opcode c.initial) (.signal Stop.trap)))) ∧
    (∀ opcodes : List Opcode,
      (∀ o ∈ opcodes, ∀ cases, o.cases settings.baseline = .ok cases →
        ∀ c ∈ cases, c.FallsThrough next) →
      (settings.resetBetweenCases = true → b.ResetsEvenly) →
      ∀ (s t : σ) (moment : Timestamp),
        ((Campaign.run breaking opcodes).run b s).1.dated moment =
          ((Campaign.run stepping opcodes).run b t).1.dated moment) := by
  intro stepping breaking
  have hverify : ∀ (one : RunSettings) (o : Opcode) (c : Case) (s : σ), c.FallsThrough next →
      ((o.verify c one).conduct b s).1 = ((Trial.prepare one).conduct b s).1.map fun _ =>
        o.verdictBy next (fun _ _ => Stop.trap) c := by
    intro one o c s hc
    exact conduct_verify_of_fallsThrough hstores hsteps hresumes o hc s
  refine ⟨?_, ?_⟩
  · intro o c s hc
    refine ⟨?_, ?_⟩
    · rw [hverify breaking o c s hc, hverify stepping o c s hc]
      rfl
    · intro hreset
      obtain ⟨s₁, hprepare⟩ := conduct_prepare_of_resets breaking hreset s
      rw [hverify breaking o c s hc, hprepare]
      rfl
  · intro opcodes hall heven s t moment
    have hbaseline : breaking.baseline = stepping.baseline := rfl
    refine Campaign.run_campaign_alike hbaseline ?_ moment s t
    intro o ho cases hcases c hc s t
    have hfalls := hall o ho cases hcases c hc
    have hprepare : ((Trial.prepare breaking).conduct b s).1 =
        ((Trial.prepare stepping).conduct b t).1 :=
      conduct_prepare_of_even settings heven s t
    rw [hverify breaking o c s hfalls, hverify stepping o c t hfalls, hprepare]

/-- A machine that executes nothing, but passes on to the next word, agrees with itself on
the whole table, wherever its memory held breakpoints before. -/
theorem strategies_agree_of_idle :
    let idle : UInt16 → Snapshot → Snapshot := fun _ r => { r with pc := r.pc + 2 }
    let trap : UInt16 → Snapshot → UInt8 := fun _ _ => Stop.trap
    let b := (Bare.target idle trap (Bare.runToBreak idle)).bench Timestamp.epoch
    b.target.Stores Bare.core ∧ b.target.StepsBy Bare.core idle trap ∧
      b.target.ResumesBy Bare.core idle ∧ b.target.Resets ∧
      (∀ o ∈ Opcode.table, ∀ cases, o.cases ({} : RunSettings).baseline = .ok cases →
        ∀ c ∈ cases, c.FallsThrough idle) ∧
      ((Campaign.run { strategy := .breakAfter } Opcode.table).run b
          ⟨fun _ => 0x95, .zero⟩).1.dated Timestamp.epoch =
        ((Campaign.run { strategy := .step } Opcode.table).run b
          ⟨fun _ => 0x98, .zero⟩).1.dated Timestamp.epoch := by
  intro idle trap b
  have hstores : b.target.Stores Bare.core := Bare.target_stores idle trap _
  have hsteps : b.target.StepsBy Bare.core idle trap := Bare.target_stepsBy idle trap _
  have hresumes : b.target.ResumesBy Bare.core idle := Bare.target_resumesBy idle trap
  have hresets : b.target.Resets := Bare.target_resets idle trap _
  have hfalls : ∀ o ∈ Opcode.table, ∀ cases, o.cases ({} : RunSettings).baseline = .ok cases →
      ∀ c ∈ cases, c.FallsThrough idle := by
    intro o ho cases hcases c hc
    exact ⟨Opcode.opcode_ne_breakWord_of_mem_table ho hcases hc, rfl⟩
  obtain ⟨-, hcampaigns⟩ := strategies_agree hstores hsteps hresumes {}
  exact ⟨hstores, hsteps, hresumes, hresets, hfalls,
    hcampaigns Opcode.table hfalls (fun _ => Bench.resetsEvenly_of_resets hresets) _ _ _⟩

/-! ## Resets that are not even -/

/-- A rule by which the instruction at address zero passes on to the next word, and every
other one to itself. -/
def passOnce (_ : UInt16) (r : Snapshot) : Snapshot := if r.pc = 0 then { r with pc := 2 } else r

theorem passOnce_passOnce (v w : UInt16) (r : Snapshot) :
    passOnce v (passOnce w r) = passOnce w r := by
  by_cases hpc : r.pc = 0
  · simp [passOnce, hpc]
  · simp [passOnce, hpc]

/-- A run that is going nowhere has come to its end. -/
theorem RunsToBreak.eq_of_fixed {m : Memory} {r s : Snapshot} (h : RunsToBreak next m r s)
    (hfixed : next (m.word r.pc) r = r) : s = r := by
  induction h with
  | stop => rfl
  | go _ _ ih =>
      rw [hfixed] at ih
      exact ih hfixed

/-- By this rule, a run to a breakpoint takes a step at most. -/
theorem RunsToBreak.eq_of_passOnce {m : Memory} {r s : Snapshot}
    (h : RunsToBreak passOnce m r s) :
    s = if m.word r.pc = Opcode.breakWord then r else passOnce (m.word r.pc) r := by
  cases h with
  | stop hstops => rw [if_pos hstops]
  | go hgoes hrest =>
      rw [if_neg hgoes]
      exact hrest.eq_of_fixed (passOnce_passOnce _ _ r)

/-- A machine that steps and runs by this rule, and that does not survive a reset while a
breakpoint stands in its second word. A run that comes to no breakpoint is cut short. -/
def Bare.wary : Target Bare
  | .resume (some _), s =>
    (.ok (if s.memory.word 2 = Opcode.breakWord then .exited 0 else .signal Stop.trap), s)
  | .resume none, s =>
    let word := s.memory.word s.registers.pc
    (.ok (.signal Stop.trap),
      if word = Opcode.breakWord then s else { s with registers := passOnce word s.registers })
  | q, s => Bare.target passOnce (fun _ _ => Stop.trap) id q s

theorem Bare.wary_stores : wary.Stores Bare.core where
  write_memory _ _ _ _ := ⟨rfl, rfl, rfl⟩
  write_registers _ _ := ⟨rfl, rfl, rfl⟩
  read_registers _ := rfl

theorem Bare.wary_resumesBy : wary.ResumesBy Bare.core passOnce := by
  intro s registers hrun
  refine ⟨rfl, ?_⟩
  rw [hrun.eq_of_passOnce]
  show (if _ then s else _ : Bare).registers = _
  split
  · rename_i hstops
    exact (if_pos hstops).symm
  · rename_i hgoes
    exact (if_neg hgoes).symm

/-- The cases of `COM` on the first register fall through on this machine, and if it steps, all
five of them are executed. If it runs, the breakpoint behind the first one is still there when
the second one is to begin, and the reset in between ends the campaign. -/
theorem campaigns_differ_of_resets :
    let b := Bare.wary.bench Timestamp.epoch
    let s : Bare := ⟨fun _ => 0xFF, .zero⟩
    let com := Opcode.singleRegister "COM" .com 0x9400 [0x00, 0xFF, 0xAA, 0xF0, 0x01] [.overflow]
    let o : Opcode := { com with last := 0 }
    b.target.Stores Bare.core ∧ b.target.StepsBy Bare.core passOnce (fun _ _ => Stop.trap) ∧
      b.target.ResumesBy Bare.core passOnce ∧ o.words = 1 ∧
      (∀ cases, o.cases ({} : RunSettings).baseline = .ok cases →
        ∀ c ∈ cases, c.FallsThrough passOnce) ∧
      ((Campaign.run { strategy := .step } [o]).run b s).1.total.executed = 5 ∧
      ((Campaign.run { strategy := .breakAfter } [o]).run b s).1.total.executed = 1 := by
  intro b s com o
  refine ⟨Bare.wary_stores, fun _ => ⟨rfl, rfl⟩, Bare.wary_resumesBy, rfl, ?_,
    by decide +kernel, by decide +kernel⟩
  intro cases hcases c hc
  have hwords : ∀ register : Fin 32,
      com.destination.insert com.template (UInt8.ofNat register) ≠ Opcode.breakWord := by decide
  obtain ⟨register, hword⟩ := Opcode.exists_opcode_of_mem_cases hcases hc
  have hpc : c.initial.pc = 0 := Opcode.pc_of_mem_cases hcases hc
  refine ⟨?_, ?_⟩
  · rw [hword]
    exact hwords register
  · rw [passOnce, if_pos hpc, hpc]
    rfl

end AvrConformance
