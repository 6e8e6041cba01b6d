import AvrConformance.Proofs.Accounting

/-!
# What a tally tells

A tally counts the passes and each kind of failure on their own, and a verdict may be counted
under several kinds. Still the counts fit together (`Tally.Tells`): the passes are no more
than what was executed, so that the failures are a difference that never falls short; they are
as many as the reports list; and the three kinds of failure between them make up all of them.

Tallies are merged two at a time, in any order and grouping (`Merging`). The empty tally and
that of a report fit (`Tally.tells_empty`, `Report.tells`), a sum of two that fit does again
(`Tally.Tells.add`), and so by induction does every tally that is merged. How the reports were
merged leaves no trace in it (`Merging.tally_eq_sum`).
-/

namespace AvrConformance

/-! ## Verdicts -/

theorem countP_or_le {α : Type} (p q : α → Bool) (l : List α) :
    l.countP (fun a => p a || q a) ≤ l.countP p + l.countP q := by
  induction l with
  | nil => exact Nat.zero_le _
  | cons a rest ih =>
      simp only [List.countP_cons]
      cases p a <;> cases q a <;> simp <;> omega

namespace Verdict

/-- There is no third kind of mismatch. -/
theorem mismatches_isEmpty (v : Verdict) :
    v.mismatches.isEmpty = !(v.has .semantic || v.has .sideEffect) := by
  unfold has
  induction v.mismatches with
  | nil => rfl
  | cons m rest ih => cases hkind : m.kind <;> simp [hkind]

/-- A verdict does not pass if it is counted as a failure of some kind. -/
theorem not_passed (v : Verdict) :
    (!v.passed) = (v.has .semantic || v.has .sideEffect || v.unexpectedStop) := by
  rw [passed, mismatches_isEmpty]
  simp

end Verdict

theorem Report.length_failures (r : Report) :
    r.failures.length = r.verdicts.countP fun v => !v.passed := List.countP_eq_length_filter.symm

/-! ## Tallies -/

namespace Tally

/-- What a tally tells of the reports whose verdicts it counts. -/
structure Tells (t : Tally) (reports : List Report) : Prop where
  sound : t.Sound
  failed : t.failed = (reports.flatMap Report.failures).length
  semantic : t.semanticFailures ≤ t.failed
  sideEffect : t.sideEffectFailures ≤ t.failed
  unexpected : t.unexpectedStops ≤ t.failed
  covered : t.failed ≤ t.semanticFailures + t.sideEffectFailures + t.unexpectedStops
  allPassed : t.allPassed = true ↔
    ∀ r ∈ reports, r.aborted = none ∧ ∀ v ∈ r.verdicts, v.passed = true

theorem tells_empty : empty.Tells [] where
  sound := Nat.le_refl 0
  failed := rfl
  semantic := Nat.le_refl 0
  sideEffect := Nat.le_refl 0
  unexpected := Nat.le_refl 0
  covered := Nat.le_refl 0
  allPassed := by simp [allPassed, empty]

/-- Differences add up where neither falls short. -/
theorem failed_add {s t : Tally} (hs : s.Sound) (ht : t.Sound) :
    (s + t).failed = s.failed + t.failed := by
  unfold Sound at hs ht
  simp only [failed, add_def, add]
  omega

theorem Tells.add {s t : Tally} {reports others : List Report} (hs : s.Tells reports)
    (ht : t.Tells others) : (s + t).Tells (reports ++ others) where
  sound := hs.sound.add ht.sound
  failed := by
    rw [failed_add hs.sound ht.sound, hs.failed, ht.failed, List.flatMap_append,
      List.length_append]
  semantic := by
    rw [failed_add hs.sound ht.sound]
    exact Nat.add_le_add hs.semantic ht.semantic
  sideEffect := by
    rw [failed_add hs.sound ht.sound]
    exact Nat.add_le_add hs.sideEffect ht.sideEffect
  unexpected := by
    rw [failed_add hs.sound ht.sound]
    exact Nat.add_le_add hs.unexpected ht.unexpected
  covered := by
    have h := Nat.add_le_add hs.covered ht.covered
    rw [failed_add hs.sound ht.sound]
    simp only [add_def, Tally.add]
    omega
  allPassed := by
    rw [allPassed_add hs.sound ht.sound, hs.allPassed, ht.allPassed, List.forall_mem_append]

/-- The order of the verdicts does not matter. -/
theorem ofVerdicts_perm {verdicts others : List Verdict} (h : verdicts.Perm others)
    (aborted : Bool) : ofVerdicts verdicts aborted = ofVerdicts others aborted := by
  simp only [ofVerdicts, h.length_eq, h.countP_eq]

end Tally

theorem Report.failed_tally (r : Report) :
    r.tally.failed = r.verdicts.countP fun v => !v.passed := by
  have hsplit := List.length_eq_countP_add_countP Verdict.passed (l := r.verdicts)
  simp only [decide_not, Bool.decide_eq_true] at hsplit
  show r.verdicts.length - r.verdicts.countP Verdict.passed = _
  omega

/-- The failures of one kind are among all of them. -/
theorem Report.countP_le_failed (r : Report) {p : Verdict → Bool}
    (h : ∀ v : Verdict, p v = true → (!v.passed) = true) :
    r.verdicts.countP p ≤ r.tally.failed := by
  rw [failed_tally]
  exact List.countP_mono_left fun v _ => h v

theorem Report.tells (r : Report) : r.tally.Tells [r] where
  sound := r.tally_sound
  failed := by rw [failed_tally, List.flatMap_singleton, length_failures]
  semantic := r.countP_le_failed fun v hv => by simp [v.not_passed, hv]
  sideEffect := r.countP_le_failed fun v hv => by simp [v.not_passed, hv]
  unexpected := r.countP_le_failed fun v hv => by simp [v.not_passed, hv]
  covered := by
    rw [failed_tally]
    simp only [Verdict.not_passed]
    calc
      r.verdicts.countP (fun v => v.has .semantic || v.has .sideEffect || v.unexpectedStop)
        ≤ r.verdicts.countP (fun v => v.has .semantic || v.has .sideEffect) +
            r.verdicts.countP Verdict.unexpectedStop := countP_or_le _ _ _
      _ ≤ r.tally.semanticFailures + r.tally.sideEffectFailures + r.tally.unexpectedStops :=
          Nat.add_le_add_right (countP_or_le _ _ _) _
  allPassed := by rw [r.allPassed_tally_iff, List.forall_mem_singleton]

/-! ## Merging -/

/-- How a tally was merged: it begins empty, and reports' tallies and tallies merged before are
merged into it. -/
inductive Merging where
  | empty
  | report (r : Report)
  | merge (into other : Merging)

namespace Merging

def reports : Merging → List Report
  | empty => []
  | report r => [r]
  | merge into other => into.reports ++ other.reports

def tally : Merging → Tally
  | empty => .empty
  | report r => r.tally
  | merge into other => into.tally + other.tally

theorem tally_tells (m : Merging) : m.tally.Tells m.reports := by
  induction m with
  | empty => exact Tally.tells_empty
  | report r => exact r.tells
  | merge into other hinto hother => exact hinto.add hother

/-- However it was merged, a tally is the sum of those of its reports. -/
theorem tally_eq_sum (m : Merging) : m.tally = .sum (m.reports.map Report.tally) := by
  induction m with
  | empty => rfl
  | report r => exact (Tally.add_empty _).symm
  | merge into other hinto hother =>
      rw [tally, reports, List.map_append, Tally.sum_append, hinto, hother]

/-- The tally of whole reports is the tally of their verdicts. -/
theorem tally_eq_ofVerdicts {m : Merging} (h : ∀ r ∈ m.reports, r.aborted = none) :
    m.tally = .ofVerdicts (m.reports.flatMap Report.verdicts) false := by
  induction m with
  | empty => rfl
  | report r =>
      have hwhole : r.aborted = none := h r (List.mem_singleton.mpr rfl)
      rw [tally, reports, List.flatMap_singleton, Report.tally, hwhole]
      rfl
  | merge into other hinto hother =>
      obtain ⟨hfirst, hothers⟩ := List.forall_mem_append.mp h
      rw [tally, reports, List.flatMap_append, Tally.ofVerdicts_append, hinto hfirst,
        hother hothers]

/-- **A summary is sound** however it was merged, and whatever reports, whole or aborted, it
was merged from. It counts no more passes than verdicts. The failures that it counts are as
many as the reports list, no kind of failure is counted more often than that, and the three
kinds together are not counted less. It says that all has passed exactly if no report was
aborted and every verdict passed. It depends on the reports alone, not on their order or their
grouping; and where none of them was aborted, it is the tally of one report that holds all
their verdicts. -/
theorem summary_sound (m : Merging) :
    m.tally.Tells m.reports ∧
    (∀ n : Merging, n.reports.Perm m.reports → n.tally = m.tally) ∧
    ((∀ r ∈ m.reports, r.aborted = none) → ∀ whole : Report, whole.aborted = none →
      whole.verdicts.Perm (m.reports.flatMap Report.verdicts) → m.tally = whole.tally) := by
  refine ⟨m.tally_tells, ?_, ?_⟩
  · intro n hperm
    rw [tally_eq_sum, tally_eq_sum, Tally.sum_perm (hperm.map _)]
  · intro hreports whole hwhole hperm
    rw [tally_eq_ofVerdicts hreports, Report.tally, hwhole]
    exact Tally.ofVerdicts_perm hperm.symm false

end Merging

end AvrConformance
