import AvrConformance.Proofs.Campaign
import AvrConformance.Proofs.Generation
import AvrConformance.Proofs.Verdict

/-!
# What a passing campaign has done

A campaign passes by its counts: as many verdicts passed as were executed, no run
was aborted and no opcode skipped. Counting cannot tell that nothing was left out,
so what stands behind a pass is stated apart from it:

* `Captures`: cases executed one after another, each capturing the expected
  registers at the trap;
* `Covers`: so for every opcode in turn, with all of its cases.

A campaign passes exactly if it covers its opcodes (`covers_of_run`,
`run_of_covers`). What a bench notes in the course of it is beside the point as
long as its target and its clock take no notice (`Bench.Unheeded`).
-/

namespace AvrConformance

variable {σ : Type} {b : Bench σ} {R : σ → σ → Prop} {settings : RunSettings}

/-! ## Notes -/

/-- Related states of a bench are alike to its target and its clock, and notes on
either side leave them related. -/
structure Bench.Unheeded (b : Bench σ) (R : σ → σ → Prop) : Prop where
  target : ∀ {s t}, R s t → ∀ q,
    (b.target q s).1 = (b.target q t).1 ∧ R (b.target q s).2 (b.target q t).2
  clock : ∀ {s t}, R s t → b.clock s = b.clock t
  note_left : ∀ {s t}, R s t → ∀ n, R (b.note n s) t
  note_right : ∀ {s t}, R s t → ∀ n, R s (b.note n t)

/-- A procedure does not see what was noted before. -/
theorem Bench.Unheeded.run (h : b.Unheeded R) {α : Type} (p : Procedure α) {s t : σ}
    (hR : R s t) : (p.run b s).1 = (p.run b t).1 ∧ R (p.run b s).2 (p.run b t).2 := by
  refine Dialogue.run_lockstep (P := fun _ => True) ?_ (Dialogue.asks_true p) hR
  intro q s t _ hR
  cases q with
  | request q => exact h.target hR q
  | note n => exact ⟨rfl, h.note_left (h.note_right hR n) n⟩
  | clock => exact ⟨h.clock hR, hR⟩

theorem Bench.Unheeded.conduct (h : b.Unheeded R) {α : Type} (d : Drive α) {s t : σ}
    (hR : R s t) :
    (d.conduct b s).1 = (d.conduct b t).1 ∧ R (d.conduct b s).2 (d.conduct b t).2 :=
  h.run (ExceptT.run d) hR

/-! ## Counts -/

namespace Tally

/-- No more passed than was executed. -/
def Sound (t : Tally) : Prop := t.passed ≤ t.executed

theorem Sound.add {s t : Tally} (hs : s.Sound) (ht : t.Sound) : (s + t).Sound :=
  Nat.add_le_add hs ht

/-- A sum passes if both parts do: a surplus in one cannot make up for the other. -/
theorem allPassed_add {s t : Tally} (hs : s.Sound) (ht : t.Sound) :
    (s + t).allPassed = true ↔ s.allPassed = true ∧ t.allPassed = true := by
  unfold Sound at hs ht
  simp only [allPassed, add_def, add, Bool.and_eq_true, beq_iff_eq]
  omega

/-- Counts pass if no run was aborted and every verdict counted passes. -/
theorem allPassed_ofVerdicts_iff (verdicts : List Verdict) (aborted : Bool) :
    (ofVerdicts verdicts aborted).allPassed = true ↔
      aborted = false ∧ ∀ v ∈ verdicts, v.passed = true := by
  have hcount : verdicts.countP Verdict.passed = verdicts.length ↔
      ∀ v ∈ verdicts, v.passed = true := List.countP_eq_length
  cases aborted <;> simp [allPassed, ofVerdicts, hcount]

end Tally

/-- A report counts no more passes than verdicts. -/
theorem Report.tally_sound (r : Report) : r.tally.Sound := List.countP_le_length

/-- A report passes if it is whole and all its verdicts pass. -/
theorem Report.allPassed_tally_iff (r : Report) :
    r.tally.allPassed = true ↔ r.aborted = none ∧ ∀ v ∈ r.verdicts, v.passed = true := by
  rw [tally, Tally.allPassed_ofVerdicts_iff, Option.isSome_eq_false_iff, Option.isNone_iff_eq_none]

namespace Campaign

theorem ofRun_sound (result : Except RunError Report) : (ofRun result).total.Sound := by
  cases result with
  | ok report => exact report.tally_sound
  | error e =>
      cases e with
      | aborted label cause report => exact report.tally_sound
      | encode error => exact Nat.le_refl 0

theorem run_sound (settings : RunSettings) (opcodes : List Opcode) (b : Bench σ) (s : σ) :
    ((run settings opcodes).run b s).1.total.Sound := by
  induction opcodes generalizing s with
  | nil => exact Nat.le_refl 0
  | cons o rest ih =>
      rw [run_campaign_cons]
      dsimp only
      split
      · exact ofRun_sound _
      · exact (ofRun_sound _).add (ih _)

/-- Two campaigns in one account pass if both do. -/
theorem allPassed_append {c d : Campaign} (hc : c.total.Sound) (hd : d.total.Sound) :
    (c.append d).allPassed = true ↔ c.allPassed = true ∧ d.allPassed = true := by
  simp only [allPassed, append, Bool.and_eq_true, Tally.allPassed_add hc hd, List.isEmpty_iff,
    List.append_eq_nil_iff]
  constructor
  · rintro ⟨⟨h₁, h₂⟩, h₃, h₄⟩
    exact ⟨⟨h₁, h₃⟩, h₂, h₄⟩
  · rintro ⟨⟨h₁, h₃⟩, h₂, h₄⟩
    exact ⟨⟨h₁, h₂⟩, h₃, h₄⟩

end Campaign

/-! ## Cases -/

/-- Between two states of a bench, the cases are executed in order, and each of them
captures the registers that the opcode expects when the trap has stopped the target. -/
inductive Captures (b : Bench σ) (settings : RunSettings) (o : Opcode) :
    List Case → σ → σ → Prop
  | nil (s : σ) : Captures b settings o [] s s
  | cons {c : Case} {rest : List Case} {s s₁ s₂ : σ}
      (first : (c.execute settings).conduct b s =
        (.ok (o.expected c, .signal Stop.trap), s₁))
      (others : Captures b settings o rest s₁ s₂) : Captures b settings o (c :: rest) s s₂

/-- Verdicts that all pass tell of cases that were captured as expected. -/
theorem captures_of_verifyAll (h : b.Unheeded R) {o : Opcode} {cases : List Case}
    {verdicts : List Verdict} {s s' t : σ} (hR : R s t)
    (hrun : (o.verifyAll settings cases).run b s = ((verdicts, none), s'))
    (hpass : ∀ v ∈ verdicts, v.passed = true) :
    ∃ t', Captures b settings o cases t t' ∧ R s' t' := by
  induction cases generalizing verdicts s t with
  | nil =>
      rw [Opcode.run_verifyAll_nil] at hrun
      injection hrun with _ hs
      exact ⟨t, .nil t, hs ▸ hR⟩
  | cons c rest ih =>
      obtain ⟨hsame, hleft⟩ := h.conduct (c.execute settings) hR
      rw [Opcode.run_verifyAll_cons, Opcode.conduct_verify] at hrun
      rcases hexecute : (c.execute settings).conduct b s with ⟨cause | ⟨actual, stop⟩, s₁⟩
      · rw [hexecute] at hrun
        simp at hrun
      · rw [hexecute] at hrun hsame hleft
        dsimp only at hrun hsame hleft
        -- the verdict passes, so the case has captured what is expected of it
        let v := o.judge c actual stop
        let s₂ := Opcode.noteFailure b v (b.note (Opcode.verdictNote c v) s₁)
        rcases hothers : (o.verifyAll settings rest).run b s₂ with ⟨⟨others, failure⟩, s₃⟩
        rw [hothers] at hrun
        dsimp only at hrun
        obtain ⟨⟨rfl, rfl⟩, rfl⟩ : (v :: others = verdicts ∧ failure = none) ∧ s₃ = s' := by
          simpa using hrun
        obtain ⟨rfl, rfl⟩ := (o.judge_passed_iff c actual stop).mp (hpass v List.mem_cons_self)
        have hR₂ : R s₂ ((c.execute settings).conduct b t).2 := by
          unfold s₂ Opcode.noteFailure
          split
          · exact h.note_left hleft _
          · exact h.note_left (h.note_left hleft _) _
        obtain ⟨t', hrest, hend⟩ :=
          ih hR₂ hothers fun w hw => hpass w (List.mem_cons_of_mem _ hw)
        exact ⟨t', .cons (Prod.ext hsame.symm rfl) hrest, hend⟩

/-- Cases that are captured as expected have verdicts, one each, that all pass. -/
theorem verifyAll_of_captures (h : b.Unheeded R) {o : Opcode} {cases : List Case} {s t t' : σ}
    (hR : R s t) (hc : Captures b settings o cases t t') :
    ∃ verdicts s', (o.verifyAll settings cases).run b s = ((verdicts, none), s') ∧
      verdicts.length = cases.length ∧ (∀ v ∈ verdicts, v.passed = true) ∧ R s' t' := by
  induction hc generalizing s with
  | nil t => exact ⟨[], s, rfl, rfl, fun _ hv => absurd hv List.not_mem_nil, hR⟩
  | @cons c rest t t₁ t₂ first others ih =>
      obtain ⟨hsame, hleft⟩ := h.conduct (c.execute settings) hR
      rw [first] at hsame hleft
      let v := o.judge c (o.expected c) (.signal Stop.trap)
      have hv : v.passed = true := (o.judge_passed_iff c _ _).mpr ⟨rfl, rfl⟩
      let s₁ := ((c.execute settings).conduct b s).2
      have hR₁ : R (Opcode.noteFailure b v (b.note (Opcode.verdictNote c v) s₁)) t₁ := by
        rw [Opcode.noteFailure, if_pos hv]
        exact h.note_left hleft _
      obtain ⟨verdicts, s', hrest, hlength, hpass, hend⟩ := ih hR₁
      have hexecute : (c.execute settings).conduct b s =
          (.ok (o.expected c, .signal Stop.trap), s₁) := Prod.ext hsame rfl
      refine ⟨v :: verdicts, s', ?_, congrArg (· + 1) hlength, ?_, hend⟩
      · rw [Opcode.run_verifyAll_cons, Opcode.conduct_verify, hexecute]
        dsimp only
        rw [hrest]
      · intro w hw
        rcases List.mem_cons.mp hw with rfl | hw
        · exact hv
        · exact hpass w hw

/-! ## Opcodes -/

/-- Between two states of a bench, all cases of the opcodes are captured as expected,
one opcode after another. -/
inductive Covers (b : Bench σ) (settings : RunSettings) : List Opcode → σ → σ → Prop
  | nil (s : σ) : Covers b settings [] s s
  | cons {o : Opcode} {cases : List Case} {rest : List Opcode} {s s₁ s₂ : σ}
      (all : o.cases settings.baseline = .ok cases)
      (first : Captures b settings o cases s s₁)
      (others : Covers b settings rest s₁ s₂) : Covers b settings (o :: rest) s s₂

/-- The number of cases of some rows of the table. -/
def caseCount : List Opcode → Nat
  | [] => 0
  | o :: rest => 32 * o.values.length + caseCount rest

/-- A run over the cases of an opcode that passes has captured all of them. -/
theorem captures_of_run (h : b.Unheeded R) {o : Opcode} {cases : List Case} {s t : σ}
    (hcases : o.cases settings.baseline = .ok cases) (hR : R s t)
    (hpass : (Campaign.ofRun ((o.run settings).run b s).1).allPassed = true) :
    (Campaign.ofRun ((o.run settings).run b s).1).aborted = false ∧
      ∃ t', Captures b settings o cases t t' ∧
        R (Campaign.noteSkipped o b ((o.run settings).run b s).2 ((o.run settings).run b s).1)
          t' := by
  rw [Opcode.run_run_of_ok hcases] at hpass ⊢
  let s₁ := b.note (o.openingNote cases) s
  rcases hverdicts : (o.verifyAll settings cases).run b s₁ with ⟨⟨verdicts, _ | ⟨c, cause⟩⟩, s₂⟩
  · dsimp only at hpass ⊢
    rw [hverdicts] at hpass ⊢
    have hall : ∀ v ∈ verdicts, v.passed = true := by
      simp only [Opcode.conclude, Campaign.ofRun, Campaign.allPassed, Bool.and_eq_true,
        Report.allPassed_tally_iff] at hpass
      exact hpass.1.2
    obtain ⟨t', hcaptures, hend⟩ :=
      captures_of_verifyAll h (h.note_left hR _) hverdicts hall
    exact ⟨rfl, t', hcaptures, h.note_left hend _⟩
  · -- a run that the target cut short counts as aborted, and never passes
    dsimp only at hpass
    rw [hverdicts] at hpass
    simp only [Opcode.conclude, Campaign.ofRun, Campaign.allPassed, Bool.and_eq_true,
      Report.allPassed_tally_iff] at hpass
    exact absurd hpass.1.1 (Option.some_ne_none _)

/-- A campaign over rows of the table that passes has covered them. -/
theorem covers_of_run (h : b.Unheeded R) {opcodes : List Opcode}
    (htable : ∀ o ∈ opcodes, o ∈ Opcode.table) {s t : σ} (hR : R s t)
    (hpass : ((Campaign.run settings opcodes).run b s).1.allPassed = true) :
    ∃ t', Covers b settings opcodes t t' := by
  induction opcodes generalizing s t with
  | nil => exact ⟨t, .nil t⟩
  | cons o rest ih =>
      obtain ⟨cases, hcases, -, -⟩ :=
        Opcode.cases_of_mem_table (htable o List.mem_cons_self) settings.baseline
      rw [Campaign.run_campaign_cons] at hpass
      dsimp only at hpass
      split at hpass
      · -- a campaign that its first opcode ends does not pass
        rename_i haborted
        obtain ⟨hgoes, -⟩ := captures_of_run h hcases hR hpass
        exact absurd (haborted.symm.trans hgoes) (by decide)
      · rw [Campaign.allPassed_append (Campaign.ofRun_sound _) (Campaign.run_sound _ _ _ _)]
          at hpass
        obtain ⟨-, t₁, hfirst, hR₁⟩ := captures_of_run h hcases hR hpass.1
        obtain ⟨t₂, hrest⟩ := ih (fun x hx => htable x (List.mem_cons_of_mem o hx)) hR₁ hpass.2
        exact ⟨t₂, .cons hcases hfirst hrest⟩

/-- A campaign that covers rows of the table passes: it executes all of their cases,
skips no opcode and is not aborted. -/
theorem run_of_covers (h : b.Unheeded R) {opcodes : List Opcode}
    (htable : ∀ o ∈ opcodes, o ∈ Opcode.table) {s t t' : σ} (hR : R s t)
    (hc : Covers b settings opcodes t t') :
    let c := ((Campaign.run settings opcodes).run b s).1
    c.allPassed = true ∧ c.aborted = false ∧ c.rejected = [] ∧
      c.total.executed = caseCount opcodes := by
  induction hc generalizing s with
  | nil t => exact ⟨rfl, rfl, rfl, rfl⟩
  | @cons o cases rest t t₁ t₂ all first others ih =>
      obtain ⟨verdicts, s₂, hverdicts, hlength, hpass, hR₂⟩ :=
        verifyAll_of_captures h (h.note_left hR (o.openingNote cases)) first
      have hcount : cases.length = 32 * o.values.length := by
        obtain ⟨others, hothers, hothersLength, -⟩ :=
          Opcode.cases_of_mem_table (htable o List.mem_cons_self) settings.baseline
        rw [all] at hothers
        injection hothers with hothers
        rw [hothers, hothersLength]
      let report : Report :=
        ⟨o.mnemonic, b.clock (b.note (o.openingNote cases) s), verdicts, none⟩
      have hreport : report.tally.allPassed = true := report.allPassed_tally_iff.mpr ⟨rfl, hpass⟩
      obtain ⟨s₃, hrun, hR₃⟩ : ∃ s₃, (o.run settings).run b s = (.ok report, s₃) ∧ R s₃ t₁ := by
        rw [Opcode.run_run_of_ok all]
        dsimp only
        rw [hverdicts]
        exact ⟨_, rfl, h.note_left hR₂ _⟩
      obtain ⟨hpassed, haborted, hrejected, hexecuted⟩ :=
        ih (fun x hx => htable x (List.mem_cons_of_mem o hx)) hR₃
      rw [Campaign.run_campaign_cons, hrun]
      simp only [Campaign.ofRun, Bool.false_eq_true, if_false, Campaign.noteSkipped]
      refine ⟨?_, ?_, ?_, ?_⟩
      · rw [Campaign.allPassed_append report.tally_sound (Campaign.run_sound _ _ _ _)]
        exact ⟨by simp [Campaign.allPassed, hreport], hpassed⟩
      · exact haborted
      · exact hrejected
      · have hfirst : report.tally.executed = verdicts.length := rfl
        simp only [Campaign.append, Tally.add_def, Tally.add, hfirst, hexecuted, caseCount]
        omega

/-- What rows of the table have in cases is something. -/
theorem caseCount_pos {opcodes : List Opcode} (htable : ∀ o ∈ opcodes, o ∈ Opcode.table)
    (hsome : opcodes ≠ []) : 0 < caseCount opcodes := by
  obtain ⟨o, rest, rfl⟩ := List.exists_cons_of_ne_nil hsome
  have hvalues : 0 < o.values.length :=
    List.length_pos_iff.mpr (Opcode.layout_of_mem_table (htable o List.mem_cons_self)).2.2.2
  rw [caseCount]
  omega

end AvrConformance
