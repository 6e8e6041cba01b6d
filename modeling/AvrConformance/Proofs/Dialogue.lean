import AvrConformance.Target

/-!
# Laws of dialogues

Dialogues form a monad that obeys the laws, so that lists of them may be run in
any bracketing. Two answerers of one dialogue go in **lockstep** when they keep
two states related: if every question of the dialogue gets the same answer from
related states and leaves them related, the whole dialogue does
(`run_lockstep`). The questions that matter are only those that the dialogue can
ask, whatever it is answered (`Asks`).
-/

namespace AvrConformance

namespace Dialogue

variable {Q : Type} {A : Q → Type} {α β σ τ : Type}

/-- A dialogue with nothing after it. -/
theorem andThen_done (d : Dialogue Q A α) : d.andThen done = d := by
  induction d with
  | done a => rfl
  | ask q next ih => exact congrArg (ask q) (funext ih)

/-- Dialogues one after another, in either bracketing. -/
theorem andThen_assoc {γ : Type} (d : Dialogue Q A α) (f : α → Dialogue Q A β)
    (g : β → Dialogue Q A γ) :
    (d.andThen f).andThen g = d.andThen fun a => (f a).andThen g := by
  induction d with
  | done a => rfl
  | ask q next ih => exact congrArg (ask q) (funext ih)

instance : LawfulMonad (Dialogue Q A) :=
  LawfulMonad.mk' _ andThen_done (fun _ _ => rfl) andThen_assoc

/-- Every question that the dialogue can come to is of a certain kind. -/
def Asks (P : Q → Prop) : Dialogue Q A α → Prop
  | done _ => True
  | ask q next => P q ∧ ∀ answer, (next answer).Asks P

variable {P : Q → Prop}

@[simp] theorem asks_pure (a : α) : (pure a : Dialogue Q A α).Asks P := trivial

@[simp] theorem asks_question (q : Q) : (question q : Dialogue Q A (A q)).Asks P ↔ P q :=
  ⟨fun h => h.1, fun h => ⟨h, fun _ => trivial⟩⟩

/-- A dialogue after another asks what both ask. -/
theorem asks_bind {d : Dialogue Q A α} {f : α → Dialogue Q A β} (hd : d.Asks P)
    (hf : ∀ a, (f a).Asks P) : (d >>= f).Asks P := by
  show (d.andThen f).Asks P
  induction d with
  | done a => exact hf a
  | ask q next ih => exact ⟨hd.1, fun answer => ih answer (hd.2 answer)⟩

/-- Asking questions of a narrower kind is asking questions of a wider one. -/
theorem Asks.mono {P' : Q → Prop} (hP : ∀ q, P q → P' q) {d : Dialogue Q A α}
    (hd : d.Asks P) : d.Asks P' := by
  induction d with
  | done a => trivial
  | ask q next ih => exact ⟨hP q hd.1, fun answer => ih answer (hd.2 answer)⟩

/-- Every question is a question. -/
theorem asks_true (d : Dialogue Q A α) : d.Asks fun _ => True := by
  induction d with
  | done a => trivial
  | ask q next ih => exact ⟨trivial, ih⟩

/-- **Lockstep.** Answerers that keep their states related, and answer alike from
related states, give a dialogue the same result. -/
theorem run_lockstep {R : σ → τ → Prop} {f : (q : Q) → σ → A q × σ}
    {g : (q : Q) → τ → A q × τ}
    (hstep : ∀ q s t, P q → R s t → (f q s).1 = (g q t).1 ∧ R (f q s).2 (g q t).2)
    {d : Dialogue Q A α} (hd : d.Asks P) {s : σ} {t : τ} (hR : R s t) :
    (run f d s).1 = (run g d t).1 ∧ R (run f d s).2 (run g d t).2 := by
  induction d generalizing s t with
  | done a => exact ⟨rfl, hR⟩
  | ask q next ih =>
      obtain ⟨hanswer, hleft⟩ := hstep q s t hd.1 hR
      have hrest := ih (f q s).1 (hd.2 _) hleft
      simp only [run]
      rw [← hanswer]
      exact hrest

end Dialogue

end AvrConformance
