import AvrConformance.Proofs.Journal
import AvrConformance.Proofs.Outcome

/-!
# The account of a campaign

A campaign keeps a report or an error of each opcode that it comes to (`Keeps`), up to
the first whose run is aborted: a campaign over some opcodes and then others is one
campaign after the other, unless the first is aborted (`run_append`). The total is
that of the reports however it is counted, and what it says of passing is what the
verdicts say (`campaign_accounts`).
-/

namespace AvrConformance

variable {σ : Type} {settings : RunSettings} {b : Bench σ}

namespace Tally

theorem ofVerdicts_append (verdicts others : List Verdict) (aborted : Bool) :
    ofVerdicts (verdicts ++ others) aborted =
      ofVerdicts verdicts false + ofVerdicts others aborted := by
  simp [ofVerdicts, add_def, add, List.countP_append]

end Tally

namespace Campaign

/-! ## Runs in turn -/

/-- What a run can come to: its cases cannot be built, or it is whole, or it is aborted. -/
theorem run_cases (o : Opcode) (settings : RunSettings) (b : Bench σ) (s : σ) :
    (∃ e, o.defect? settings = some e ∧ (o.run settings).run b s = (.error (.encode e), s)) ∨
      (∃ r s₁, o.defect? settings = none ∧ r.mnemonic = o.mnemonic ∧ r.aborted = none ∧
        (o.run settings).run b s = (.ok r, s₁)) ∨
      ∃ label cause r s₁, o.defect? settings = none ∧ r.mnemonic = o.mnemonic ∧
        r.aborted ≠ none ∧ (o.run settings).run b s = (.error (.aborted label cause r), s₁) := by
  cases hcases : o.cases settings.baseline with
  | error e =>
      refine .inl ⟨e, ?_, Opcode.run_run_of_error hcases b s⟩
      simp only [Opcode.defect?, hcases]
  | ok cases =>
      have hsound : o.defect? settings = none := by simp only [Opcode.defect?, hcases]
      rw [Opcode.run_run_of_ok hcases]
      dsimp only
      generalize ((o.verifyAll settings cases).run b _).1 = verified
      obtain ⟨verdicts, _ | ⟨c, cause⟩⟩ := verified
      · exact .inr (.inl ⟨_, _, hsound, rfl, rfl, rfl⟩)
      · exact .inr (.inr ⟨_, _, _, _, hsound, rfl, Option.some_ne_none _, rfl⟩)

/-- A campaign over some opcodes and then others is one campaign after the other, unless
the first is aborted. -/
theorem run_append (settings : RunSettings) (front later : List Opcode) (b : Bench σ) (s : σ) :
    (run settings (front ++ later)).run b s =
      (let first := (run settings front).run b s
      if first.1.aborted then first
      else
        let others := (run settings later).run b first.2
        (first.1.append others.1, others.2)) := by
  induction front generalizing s with
  | nil =>
      show _ = ((empty.append _ : Campaign), _)
      rw [empty_append]
      rfl
  | cons o rest ih =>
      rw [List.cons_append, run_campaign_cons, run_campaign_cons]
      dsimp only
      by_cases hended : (ofRun ((o.run settings).run b s).1).aborted = true
      · simp only [if_pos hended]
      · simp only [if_neg hended, ih]
        -- the whole front is aborted if its rest is
        have hgoes : (ofRun ((o.run settings).run b s).1).aborted = false :=
          Bool.eq_false_iff.mpr hended
        simp only [append, hgoes, Bool.false_or]
        split
        · rfl
        · simp only [List.append_assoc, Tally.add_assoc]

/-- Behind an aborted campaign no opcode is run, and nothing is done to the target. -/
theorem run_append_of_aborted {front : List Opcode} {s : σ}
    (h : ((run settings front).run b s).1.aborted = true) (later : List Opcode) :
    (run settings (front ++ later)).run b s = (run settings front).run b s ∧
      Procedure.deeds (run settings (front ++ later)) b s =
        Procedure.deeds (run settings front) b s := by
  have hjournaled : ((run settings front).run b.journaled (s, [])).1.aborted = true := by
    rw [Procedure.run_journaled]
    exact h
  refine ⟨?_, ?_⟩
  · rw [run_append]
    exact if_pos h
  · rw [Procedure.deeds, run_append]
    dsimp only
    rw [if_pos hjournaled]
    rfl

/-- The opcodes are run in turn from a state of the bench, and these reports and errors
are kept of them. Only the last run may be aborted. -/
inductive Keeps (b : Bench σ) (settings : RunSettings) :
    List Opcode → σ → List Report → List EncodeError → Prop
  | nil (s : σ) : Keeps b settings [] s [] []
  | rejected {o : Opcode} {e : EncodeError} {rest : List Opcode} {s : σ} {reports : List Report}
      {errors : List EncodeError} (defect : o.defect? settings = some e)
      (others : Keeps b settings rest (noteSkipped o b s (.error (.encode e))) reports errors) :
      Keeps b settings (o :: rest) s reports (e :: errors)
  | reported {o : Opcode} {r : Report} {rest : List Opcode} {s s₁ : σ} {reports : List Report}
      {errors : List EncodeError} (sound : o.defect? settings = none)
      (ran : (o.run settings).run b s = (.ok r, s₁)) (named : r.mnemonic = o.mnemonic)
      (whole : r.aborted = none) (others : Keeps b settings rest s₁ reports errors) :
      Keeps b settings (o :: rest) s (r :: reports) errors
  | aborted {o : Opcode} {label : Label} {cause : DriveError} {r : Report} {s s₁ : σ}
      (sound : o.defect? settings = none)
      (ran : (o.run settings).run b s = (.error (.aborted label cause r), s₁))
      (named : r.mnemonic = o.mnemonic) (partway : r.aborted ≠ none) :
      Keeps b settings [o] s [r] []

namespace Keeps

variable {processed : List Opcode} {s : σ} {reports : List Report} {errors : List EncodeError}

theorem mnemonics_eq (h : Keeps b settings processed s reports errors) :
    reports.map Report.mnemonic =
      (processed.filter fun o => (o.defect? settings).isNone).map Opcode.mnemonic := by
  induction h with
  | nil s => rfl
  | rejected defect _ ih => simp [defect, ih]
  | reported sound _ named _ _ ih => simp [sound, named, ih]
  | aborted sound _ named _ => simp [sound, named]

theorem errors_eq (h : Keeps b settings processed s reports errors) :
    errors = processed.filterMap (Opcode.defect? settings) := by
  induction h with
  | nil s => rfl
  | rejected defect _ ih => simp [defect, ih]
  | reported sound _ _ _ _ ih => simp [sound, ih]
  | aborted sound _ _ _ => simp [sound]

theorem length_eq (h : Keeps b settings processed s reports errors) :
    processed.length = reports.length + errors.length := by
  induction h with
  | nil s => rfl
  | rejected _ _ ih =>
      simp only [List.length_cons]
      omega
  | reported _ _ _ _ _ ih =>
      simp only [List.length_cons]
      omega
  | aborted _ _ _ _ => rfl

/-- An aborted run is the last one, and so is its report. -/
theorem ends (h : Keeps b settings processed s reports errors) :
    (∀ r ∈ reports, r.aborted = none) ∨
      ∃ earlier last front o, reports = earlier ++ [last] ∧ last.aborted ≠ none ∧
        (∀ r ∈ earlier, r.aborted = none) ∧ processed = front ++ [o] ∧
        last.mnemonic = o.mnemonic := by
  induction h with
  | nil s => exact .inl fun r hr => absurd hr List.not_mem_nil
  | @rejected o _ _ _ _ _ _ _ ih =>
      rcases ih with hwhole | ⟨earlier, last, front, o', hreports, hlast, hearlier, rfl, hnamed⟩
      · exact .inl hwhole
      · exact .inr ⟨earlier, last, o :: front, o', hreports, hlast, hearlier, rfl, hnamed⟩
  | @reported o r _ _ _ _ _ _ _ _ whole _ ih =>
      rcases ih with hwhole | ⟨earlier, last, front, o', rfl, hlast, hearlier, rfl, hnamed⟩
      · exact .inl (List.forall_mem_cons.mpr ⟨whole, hwhole⟩)
      · exact .inr ⟨r :: earlier, last, o :: front, o', rfl, hlast,
          List.forall_mem_cons.mpr ⟨whole, hearlier⟩, rfl, hnamed⟩
  | @aborted o _ _ r _ _ _ _ named partway =>
      exact .inr ⟨[], r, [], o, rfl, partway, fun r hr => absurd hr List.not_mem_nil, rfl, named⟩

end Keeps

/-! ## The account -/

/-- The campaign that keeps some reports and errors. -/
def account (reports : List Report) (errors : List EncodeError) : Campaign where
  reports
  total := .sum (reports.map Report.tally)
  rejected := errors
  aborted := reports.any (·.aborted.isSome)

theorem account_append (reports others : List Report) (errors more : List EncodeError) :
    (account reports errors).append (account others more) =
      account (reports ++ others) (errors ++ more) := by
  simp only [account, append, List.map_append, Tally.sum_append, List.any_append]

/-- A run that is not aborted adds its report or its error. -/
theorem ofRun_ok {r : Report} (h : r.aborted = none) : ofRun (.ok r) = account [r] [] := by
  simp [ofRun, account, Tally.sum, Tally.add_empty, h]

theorem ofRun_aborted {label : Label} {cause : DriveError} {r : Report} (h : r.aborted ≠ none) :
    ofRun (.error (.aborted label cause r)) = account [r] [] := by
  have hsome : r.aborted.isSome = true := Option.isSome_iff_ne_none.mpr h
  simp [ofRun, account, Tally.sum, Tally.add_empty, hsome]

/-- A campaign is the account of the opcodes that it comes to, and as if there were no others. -/
theorem exists_processed (settings : RunSettings) (opcodes : List Opcode) (b : Bench σ) (s : σ) :
    ∃ processed unprocessed reports errors, opcodes = processed ++ unprocessed ∧
      Keeps b settings processed s reports errors ∧
      ((run settings opcodes).run b s).1 = account reports errors ∧
      (run settings processed).run b s = (run settings opcodes).run b s ∧
      ((account reports errors).aborted = false → unprocessed = []) := by
  induction opcodes generalizing s with
  | nil => exact ⟨[], [], [], [], rfl, .nil s, rfl, rfl, fun _ => rfl⟩
  | cons o rest ih =>
      rcases run_cases o settings b s with ⟨e, hdefect, hrun⟩ |
        ⟨r, s₁, hsound, hnamed, hwhole, hrun⟩ |
        ⟨label, cause, r, s₁, hsound, hnamed, hpartway, hrun⟩
      · obtain ⟨processed, unprocessed, reports, errors, rfl, hkeeps, hcampaign, hsame, hall⟩ :=
          ih (noteSkipped o b s (.error (.encode e)))
        refine ⟨o :: processed, unprocessed, reports, e :: errors, rfl, .rejected hdefect hkeeps,
          ?_, ?_, hall⟩
        · rw [run_campaign_cons, hrun]
          show (account [] [e]).append _ = _
          rw [hcampaign, account_append]
          rfl
        · rw [run_campaign_cons, run_campaign_cons, hrun]
          simp only [hsame]
      · obtain ⟨processed, unprocessed, reports, errors, rfl, hkeeps, hcampaign, hsame, hall⟩ :=
          ih s₁
        have hgoes : (account [r] []).aborted = false := by simp [account, hwhole]
        refine ⟨o :: processed, unprocessed, r :: reports, errors, rfl,
          .reported hsound hrun hnamed hwhole hkeeps, ?_, ?_, ?_⟩
        · rw [run_campaign_cons, hrun]
          simp only [ofRun_ok hwhole, hgoes, Bool.false_eq_true, if_false, noteSkipped]
          rw [hcampaign, account_append]
          rfl
        · rw [run_campaign_cons, run_campaign_cons, hrun]
          simp only [noteSkipped, hsame]
        · intro hnone
          exact hall (by simpa [account, hwhole] using hnone)
      · have hends : (account [r] []).aborted = true := by
          simp [account, Option.isSome_iff_ne_none.mpr hpartway]
        refine ⟨[o], rest, [r], [], rfl, .aborted hsound hrun hnamed hpartway, ?_, ?_, ?_⟩
        · rw [run_campaign_cons, hrun]
          simp only [ofRun_aborted hpartway, hends, if_true]
        · rw [run_campaign_cons, run_campaign_cons, hrun]
          simp only [ofRun_aborted hpartway, hends, if_true]
        · intro hnone
          rw [hends] at hnone
          cases hnone

/-- The account, field by field, is the count over all the verdicts. -/
theorem total_eq_ofVerdicts {processed : List Opcode} {s : σ} {reports : List Report}
    {errors : List EncodeError} (h : Keeps b settings processed s reports errors) :
    (account reports errors).total =
      .ofVerdicts (reports.flatMap Report.verdicts) (account reports errors).aborted := by
  induction h with
  | nil s => rfl
  | rejected _ _ ih => exact ih
  | @reported o r _ _ _ reports errors _ _ _ whole _ ih =>
      have htally : r.tally = .ofVerdicts r.verdicts false := by simp [Report.tally, whole]
      show r.tally + (account reports errors).total = _
      rw [ih, htally, ← Tally.ofVerdicts_append]
      simp [account, whole]
  | @aborted o _ _ r _ _ _ _ _ partway =>
      show r.tally + .empty = _
      rw [Tally.add_empty]
      simp [account, Report.tally]

theorem aborted_account_iff {reports : List Report} {errors : List EncodeError} :
    (account reports errors).aborted = true ↔ ∃ r ∈ reports, r.aborted ≠ none := by
  simp only [account, List.any_eq_true, Option.isSome_iff_ne_none]

theorem allPassed_account_iff {processed : List Opcode} {s : σ} {reports : List Report}
    {errors : List EncodeError} (h : Keeps b settings processed s reports errors) :
    (account reports errors).allPassed = true ↔
      errors = [] ∧ (account reports errors).aborted = false ∧
        ∀ r ∈ reports, ∀ v ∈ r.verdicts, v.passed = true := by
  have hverdicts : (∀ v ∈ reports.flatMap Report.verdicts, v.passed = true) ↔
      ∀ r ∈ reports, ∀ v ∈ r.verdicts, v.passed = true := by
    simp only [List.mem_flatMap, forall_exists_index, and_imp]
    exact ⟨fun h r hr v hv => h v r hr hv, fun h v r hr hv => h r hr v hv⟩
  rw [allPassed, total_eq_ofVerdicts h, Bool.and_eq_true, Tally.allPassed_ofVerdicts_iff,
    hverdicts, List.isEmpty_iff]
  exact and_comm

/-- **The account of a campaign** over any opcodes, on any bench. The campaign comes to
some of the opcodes in turn, all of them unless it is aborted. Of each it keeps a report,
or if its cases cannot be built, the error. It is aborted exactly if a report is; that
report is the last, the only one, and of the last opcode that the campaign came to, behind
which nothing is run and nothing is asked of the target, whatever opcodes are left. The
total adds up the reports, and counts their verdicts. All has passed exactly if no opcode
was rejected, the campaign was not aborted, and every verdict passed. -/
theorem campaign_accounts (settings : RunSettings) (opcodes : List Opcode) (b : Bench σ) (s : σ) :
    let c := ((run settings opcodes).run b s).1
    (∃ processed unprocessed, opcodes = processed ++ unprocessed ∧
      Keeps b settings processed s c.reports c.rejected ∧
      c.reports.map Report.mnemonic =
        (processed.filter fun o => (o.defect? settings).isNone).map Opcode.mnemonic ∧
      c.rejected = processed.filterMap (Opcode.defect? settings) ∧
      processed.length = c.reports.length + c.rejected.length ∧
      (c.aborted = false → unprocessed = []) ∧
      (c.aborted = true →
        (∃ earlier last front o, c.reports = earlier ++ [last] ∧ last.aborted ≠ none ∧
          (∀ r ∈ earlier, r.aborted = none) ∧ processed = front ++ [o] ∧
          last.mnemonic = o.mnemonic) ∧
        ∀ later, (run settings (processed ++ later)).run b s = (run settings opcodes).run b s ∧
          Procedure.deeds (run settings (processed ++ later)) b s =
            Procedure.deeds (run settings opcodes) b s)) ∧
    (c.aborted = true ↔ ∃ r ∈ c.reports, r.aborted ≠ none) ∧
    c.total = .sum (c.reports.map Report.tally) ∧
    c.total = .ofVerdicts (c.reports.flatMap Report.verdicts) c.aborted ∧
    (c.allPassed = true ↔
      c.rejected = [] ∧ c.aborted = false ∧
        ∀ r ∈ c.reports, ∀ v ∈ r.verdicts, v.passed = true) := by
  intro c
  obtain ⟨processed, unprocessed, reports, errors, rfl, hkeeps, hcampaign, hsame, hall⟩ :=
    exists_processed settings opcodes b s
  have hc : c = account reports errors := hcampaign
  clear_value c
  subst hc
  refine ⟨⟨processed, unprocessed, rfl, hkeeps, hkeeps.mnemonics_eq, hkeeps.errors_eq,
    hkeeps.length_eq, hall, ?_⟩, aborted_account_iff, rfl, total_eq_ofVerdicts hkeeps,
    allPassed_account_iff hkeeps⟩
  intro hended
  have hfront : ((run settings processed).run b s).1.aborted = true := by
    rw [hsame, hcampaign]
    exact hended
  refine ⟨?_, fun later => ?_⟩
  · obtain ⟨r, hr, hpartway⟩ := aborted_account_iff.mp hended
    rcases hkeeps.ends with hwhole | hlast
    · exact absurd (hwhole r hr) hpartway
    · exact hlast
  · obtain ⟨hrun, hdeeds⟩ := run_append_of_aborted hfront later
    obtain ⟨hrun', hdeeds'⟩ := run_append_of_aborted hfront unprocessed
    exact ⟨hrun.trans hrun'.symm, hdeeds.trans hdeeds'.symm⟩

end Campaign

end AvrConformance
