import AvrConformance.Proofs.Campaign
import AvrConformance.Proofs.Machine

/-!
# Isolation of cases

A case is put on the target in full before it runs: code, then registers. On a
machine that steps by some rule, right or wrong, its verdict is therefore a
function of the case and the rule alone, whatever the machine held before
(`conduct_verify_of_machine`). What follows for runs and campaigns is that they
are the images of their cases and opcodes, that nothing left over on the machine
shows in them, and that the order of the opcodes is only an order of reports
(`campaign_isolated`).
-/

namespace AvrConformance

variable {σ : Type}

/-- The target is a machine that steps by a rule, and that a reset leaves in
whatever state. -/
structure Target.IsMachine (t : Target σ) (core : Core σ)
    (next : UInt16 → Snapshot → Snapshot) (signal : UInt16 → Snapshot → UInt8) : Prop where
  stores : t.Stores core
  resets : t.Resets
  steps : t.StepsBy core next signal

/-- The bare machine is one. -/
theorem Bare.isMachine (next : UInt16 → Snapshot → Snapshot)
    (signal : UInt16 → Snapshot → UInt8) (upset : Bare → Bare) :
    (Bare.target next signal upset).IsMachine Bare.core next signal where
  stores := Bare.target_stores next signal upset
  resets := Bare.target_resets next signal upset
  steps := Bare.target_stepsBy next signal upset

section Machine

variable {b : Bench σ} {core : Core σ} {next : UInt16 → Snapshot → Snapshot}
  {signal : UInt16 → Snapshot → UInt8} {settings : RunSettings}

/-- Whatever a reset does to the machine, it comes to its end, if one is wanted. -/
theorem conduct_prepare_of_resets (settings : RunSettings)
    (h : settings.resetBetweenCases = true → b.target.Resets) (s : σ) :
    ∃ s', (Trial.prepare settings).conduct b s = (.ok (), s') := by
  rw [Trial.prepare, Drive.conduct_ite]
  split
  next hwanted =>
    obtain ⟨number, hnumber⟩ := h hwanted s
    have hresume : (Drive.resume (some Stop.hangup)).conduct b s =
        (.ok (.signal number), (b.target (.resume (some Stop.hangup)) s).2) := by
      rw [Drive.conduct_resume, hnumber]
      rfl
    exact ⟨_, Drive.conduct_bind_ok b hresume⟩
  next => exact ⟨s, rfl⟩

/-- A trial is on the target: the registers are its own, and so is the code. -/
def Trial.Placed (t : Trial) (strategy : Strategy) (core : Core σ) (s : σ) : Prop :=
  core.registers s = t.initial ∧
    ∃ before, core.memory s = Memory.write before t.initial.pc (t.image strategy)

/-- A trial that is put on the target is found there, since nothing touches its code after
it was written. -/
theorem conduct_place_of_stores (h : b.target.Stores core) (t : Trial) (strategy : Strategy)
    (s : σ) :
    ∃ s', (t.place strategy).conduct b s = (.ok (), s') ∧ t.Placed strategy core s' := by
  -- code memory begins at the start of the target's address space
  have hplace : Region.code.locate t.initial.pc = t.initial.pc := UInt32.zero_add _
  have hshort : (t.image strategy).length ≤ UInt32.size :=
    Nat.le_trans (t.length_image strategy).2 (by decide)
  let s₁ := b.note (Drive.writeNote .code t.initial.pc (t.image strategy)) s
  obtain ⟨hwrite, hmemory, -⟩ := h.write_memory t.initial.pc (t.image strategy) s₁ hshort
  let s₂ := (b.target (.writeMemory t.initial.pc (t.image strategy)) s₁).2
  obtain ⟨hload, hkept, hregisters⟩ := h.write_registers t.initial s₂
  refine ⟨(b.target (.writeRegisters t.initial) s₂).2, ?_, hregisters, core.memory s₁, ?_⟩
  · have hcode : (Drive.writeBlock .code t.initial.pc (t.image strategy)).conduct b s =
        (.ok (), s₂) := by
      rw [Drive.conduct_writeBlock, hplace]
      exact Prod.ext (congrArg (Except.mapError _) hwrite) rfl
    rw [Trial.place, Drive.conduct_bind_ok b hcode, Drive.conduct_writeRegisters]
    exact Prod.ext (congrArg (Except.mapError _) hload) rfl
  · rw [hkept, hmemory]

/-- Executing a trial that can be prepared captures what its launch leaves. What the reset
left behind is overwritten, as far as the launch can see it. -/
theorem conduct_execute_of_launch (h : b.target.Stores core) (t : Trial) {left : Snapshot}
    {stop : Stop}
    (hlaunch : ∀ s, t.Placed settings.strategy core s →
      ∃ s', settings.strategy.launch.conduct b s = (.ok stop, s') ∧ core.registers s' = left)
    {s s₁ : σ} (hprepare : (Trial.prepare settings).conduct b s = (.ok (), s₁)) :
    ∃ s', (t.execute settings).conduct b s = (.ok (left, stop), s') := by
  obtain ⟨s₂, hplace, hplaced⟩ := conduct_place_of_stores h t settings.strategy s₁
  obtain ⟨s₃, hrun, hleft⟩ := hlaunch s₂ hplaced
  have hread : Drive.readRegisters.conduct b s₃ = (.ok left, (b.target .readRegisters s₃).2) := by
    rw [Drive.conduct_readRegisters, h.read_registers, hleft]
    rfl
  rw [Trial.execute_eq, Drive.conduct_bind_ok b hprepare, Drive.conduct_bind_ok b hplace,
    Trial.capture, Drive.conduct_bind_ok b hrun, Drive.conduct_bind_ok b hread]
  exact ⟨_, rfl⟩

/-- Launched by a step, a trial leaves what the rule makes of its word and its registers. -/
theorem conduct_launch_of_steps (h : b.target.StepsBy core next signal) (t : Trial) {s : σ}
    (hplaced : t.Placed .step core s) :
    ∃ s', Strategy.step.launch.conduct b s = (.ok (.signal (signal t.opcode t.initial)), s') ∧
      core.registers s' = next t.opcode t.initial := by
  obtain ⟨hregisters, before, hmemory⟩ := hplaced
  have hword : (core.memory s).word t.initial.pc = t.opcode := by
    rw [hmemory]
    exact Memory.word_write before t.initial.pc t.opcode []
  obtain ⟨hstop, hleft⟩ := h s
  rw [hregisters, hword] at hstop hleft
  refine ⟨(b.target .step s).2, ?_, hleft⟩
  rw [Strategy.launch, Drive.conduct_step, hstop]
  rfl

/-- Executing a trial applies the rule to its word and its registers. -/
theorem conduct_execute_of_machine (h : b.target.IsMachine core next signal)
    (hs : settings.strategy = .step) (t : Trial) (s : σ) :
    ∃ s', (t.execute settings).conduct b s =
      (.ok (next t.opcode t.initial, .signal (signal t.opcode t.initial)), s') := by
  obtain ⟨s₁, hprepare⟩ := conduct_prepare_of_resets settings (fun _ => h.resets) s
  refine conduct_execute_of_launch h.stores t ?_ hprepare
  intro s₂ hplaced
  rw [hs] at hplaced ⊢
  exact conduct_launch_of_steps h.steps t hplaced

/-- The verdict on a case that is executed by a rule. -/
def Opcode.verdictBy (next : UInt16 → Snapshot → Snapshot) (signal : UInt16 → Snapshot → UInt8)
    (o : Opcode) (c : Case) : Verdict :=
  o.judge c (next c.opcode c.initial) (.signal (signal c.opcode c.initial))

/-- The verdict on a case depends on the case and the rule alone. -/
theorem conduct_verify_of_machine (h : b.target.IsMachine core next signal)
    (hs : settings.strategy = .step) (o : Opcode) (c : Case) (s : σ) :
    ∃ s', (o.verify c settings).conduct b s = (.ok (o.verdictBy next signal c), s') := by
  obtain ⟨s₁, hexecute⟩ := conduct_execute_of_machine h hs c.toTrial s
  rw [Opcode.conduct_verify, hexecute]
  exact ⟨_, rfl⟩

/-- So do the verdicts on many cases, whatever was executed before each of them. -/
theorem run_verifyAll_of_machine (h : b.target.IsMachine core next signal)
    (hs : settings.strategy = .step) (o : Opcode) (cases : List Case) (s : σ) :
    ∃ s', (o.verifyAll settings cases).run b s =
      ((cases.map (o.verdictBy next signal), none), s') := by
  induction cases generalizing s with
  | nil => exact ⟨s, rfl⟩
  | cons c rest ih =>
      obtain ⟨s₁, hverify⟩ := conduct_verify_of_machine h hs o c s
      obtain ⟨s₂, hrest⟩ := ih (Opcode.noteFailure b (o.verdictBy next signal c) s₁)
      refine ⟨s₂, ?_⟩
      rw [Opcode.run_verifyAll_cons, hverify]
      simp only [hrest]
      rfl

/-- The run of an opcode is the image of its cases. -/
theorem run_run_of_machine (h : b.target.IsMachine core next signal)
    (hs : settings.strategy = .step) {o : Opcode} {cases : List Case}
    (hcases : o.cases settings.baseline = .ok cases) (s : σ) :
    ∃ moment s', (o.run settings).run b s =
      (.ok ⟨o.mnemonic, moment, cases.map (o.verdictBy next signal), none⟩, s') := by
  obtain ⟨s₁, hverdicts⟩ :=
    run_verifyAll_of_machine h hs o cases (b.note (o.openingNote cases) s)
  refine ⟨b.clock (b.note (o.openingNote cases) s), ?_⟩
  rw [Opcode.run_run_of_ok hcases]
  simp only [hverdicts]
  exact ⟨_, rfl⟩

/-- What a run adds to a campaign, up to the moment it began. -/
theorem dated_ofRun_of_machine (h : b.target.IsMachine core next signal)
    (hs : settings.strategy = .step) (o : Opcode) (moment : Timestamp) (s : σ) :
    (Campaign.ofRun ((o.run settings).run b s).1).dated moment =
      Campaign.complete (Opcode.verdictBy next signal) settings moment [o] := by
  cases hcases : o.cases settings.baseline with
  | error e =>
      rw [Opcode.run_run_of_error hcases]
      simp [Campaign.ofRun, Campaign.dated, Campaign.complete, Opcode.fullReport?,
        Opcode.defect?, hcases, Tally.sum]
  | ok cases =>
      obtain ⟨began, s₁, hrun⟩ := run_run_of_machine h hs hcases s
      rw [hrun]
      simp [Campaign.ofRun, Campaign.dated, Campaign.complete, Opcode.fullReport?,
        Opcode.defect?, hcases, Tally.sum, Tally.add_empty, Report.dated, Report.tally]

/-- A campaign is the image of its opcodes, up to the moments it met. -/
theorem run_campaign_of_machine (h : b.target.IsMachine core next signal)
    (hs : settings.strategy = .step) (opcodes : List Opcode) (moment : Timestamp) (s : σ) :
    ((Campaign.run settings opcodes).run b s).1.dated moment =
      Campaign.complete (Opcode.verdictBy next signal) settings moment opcodes := by
  induction opcodes generalizing s with
  | nil => rfl
  | cons o rest ih =>
      have hfirst := dated_ofRun_of_machine h hs o moment s
      have hgoes : (Campaign.ofRun ((o.run settings).run b s).1).aborted = false := by
        have := congrArg Campaign.aborted hfirst
        exact this
      rw [Campaign.run_campaign_cons, Campaign.complete_cons]
      simp only [hgoes, Bool.false_eq_true, if_false]
      rw [Campaign.dated_append, hfirst, ih]

/-- **Isolation.** On a machine that steps by a rule, from every state it may be in
beforehand: a case has the verdict on what the rule makes of it; the run of an
opcode is the image of its cases; a campaign is the image of its opcodes, up to
the moments at which its reports began; and the order of the opcodes decides
nothing but the order of what is reported. -/
theorem campaign_isolated (h : b.target.IsMachine core next signal)
    (hs : settings.strategy = .step) :
    (∀ (o : Opcode) (c : Case) (s : σ),
      ((o.verify c settings).conduct b s).1 =
        .ok (o.judge c (next c.opcode c.initial) (.signal (signal c.opcode c.initial)))) ∧
    (∀ (o : Opcode) (cases : List Case) (s : σ), o.cases settings.baseline = .ok cases →
      ∃ moment, ((o.run settings).run b s).1 =
        .ok ⟨o.mnemonic, moment, cases.map (o.verdictBy next signal), none⟩) ∧
    (∀ (opcodes : List Opcode) (s : σ) (moment : Timestamp),
      ((Campaign.run settings opcodes).run b s).1.dated moment =
        Campaign.complete (Opcode.verdictBy next signal) settings moment opcodes) ∧
    (∀ (opcodes others : List Opcode) (s t : σ) (moment : Timestamp), opcodes.Perm others →
      let one := ((Campaign.run settings opcodes).run b s).1.dated moment
      let other := ((Campaign.run settings others).run b t).1.dated moment
      one.reports.Perm other.reports ∧ one.rejected.Perm other.rejected ∧
        one.total = other.total ∧ one.aborted = other.aborted) := by
  refine ⟨?_, ?_, fun opcodes s moment => run_campaign_of_machine h hs opcodes moment s, ?_⟩
  · intro o c s
    obtain ⟨s', hverify⟩ := conduct_verify_of_machine h hs o c s
    rw [hverify]
    rfl
  · intro o cases s hcases
    obtain ⟨moment, s', hrun⟩ := run_run_of_machine h hs hcases s
    exact ⟨moment, by rw [hrun]⟩
  · intro opcodes others s t moment hperm
    simp only [run_campaign_of_machine h hs]
    exact ⟨hperm.filterMap _, hperm.filterMap _,
      Tally.sum_perm ((hperm.filterMap _).map _), rfl⟩

/-- A machine that executes nothing, but passes on to the next word: whatever its
memory and registers were, no case of `COM` has a verdict but the one on its own
registers, moved on by a word. -/
theorem campaign_isolated_of_idle :
    let idle : UInt16 → Snapshot → Snapshot := fun _ r => { r with pc := r.pc + 2 }
    let trap : UInt16 → Snapshot → UInt8 := fun _ _ => Stop.trap
    let b := (Bare.target idle trap fun _ => ⟨fun _ => 0xFF, .zero⟩).bench Timestamp.epoch
    let com := Opcode.singleRegister "COM" .com 0x9400 [0x00, 0xFF, 0xAA, 0xF0, 0x01] [.overflow]
    let c := com.case .zero 3 0x9430 0xAA
    b.target.IsMachine Bare.core idle trap ∧
      ({} : RunSettings).strategy = .step ∧
      ((com.verify c {}).conduct b ⟨fun _ => 0x94, .zero⟩).1 =
        .ok (com.judge c { c.initial with pc := c.initial.pc + 2 } (.signal Stop.trap)) := by
  intro idle trap b com c
  have h : b.target.IsMachine Bare.core idle trap := Bare.isMachine idle trap _
  have hs : ({} : RunSettings).strategy = .step := rfl
  exact ⟨h, hs, (campaign_isolated h hs).1 com c _⟩

end Machine

end AvrConformance
