/-!
# Dialogues

A dialogue is a computation that asks questions and goes on with the answers.
It says nothing of who answers: a recorded session, a simulated machine or the
outside world may. Whatever holds of all dialogues therefore holds of every
answerer, and two answerers that agree on each question agree on every dialogue.
-/

namespace AvrConformance

/-- A computation over the questions `Q`, where a question `q` is answered in `A q`. -/
inductive Dialogue (Q : Type) (A : Q → Type) (α : Type) : Type where
  /-- The dialogue is over. -/
  | done (result : α)
  /-- A question, and how to go on with each answer. -/
  | ask (q : Q) (next : A q → Dialogue Q A α)

namespace Dialogue

variable {Q P : Type} {A : Q → Type} {B : P → Type} {α β σ : Type}

/-- One dialogue after another. -/
def andThen : Dialogue Q A α → (α → Dialogue Q A β) → Dialogue Q A β
  | done a, f => f a
  | ask q next, f => ask q fun answer => (next answer).andThen f

instance : Monad (Dialogue Q A) where
  pure := done
  bind := andThen

def question (q : Q) : Dialogue Q A (A q) := ask q done

/-- The dialogue with an answerer that keeps a state. -/
def run (answer : (q : Q) → σ → A q × σ) : Dialogue Q A α → σ → α × σ
  | done a, s => (a, s)
  | ask q next, s =>
    let (reply, s) := answer q s
    run answer (next reply) s

/-- The same dialogue in a wider vocabulary: each question is put in other
words, whose answers answer it. -/
def rephrase (phrase : Q → P) (understand : (q : Q) → B (phrase q) → A q) :
    Dialogue Q A α → Dialogue P B α
  | done a => done a
  | ask q next =>
    ask (phrase q) fun answer => (next (understand q answer)).rephrase phrase understand

@[simp] theorem run_pure (answer : (q : Q) → σ → A q × σ) (a : α) (s : σ) :
    run answer (pure a) s = (a, s) := rfl

@[simp] theorem run_question (answer : (q : Q) → σ → A q × σ) (q : Q) (s : σ) :
    run answer (question q) s = answer q s := rfl

/-- A dialogue after another goes on in the state that the first one leaves. -/
@[simp] theorem run_bind (answer : (q : Q) → σ → A q × σ) (d : Dialogue Q A α)
    (f : α → Dialogue Q A β) (s : σ) :
    run answer (d >>= f) s = run answer (f (run answer d s).1) (run answer d s).2 := by
  change run answer (d.andThen f) s = _
  induction d generalizing s with
  | done a => rfl
  | ask q next ih => exact ih (answer q s).1 (answer q s).2

@[simp] theorem run_ite (answer : (q : Q) → σ → A q × σ) (c : Prop) [Decidable c]
    (d e : Dialogue Q A α) (s : σ) :
    run answer (if c then d else e) s = if c then run answer d s else run answer e s := by
  split <;> rfl

/-- Answering a rephrased dialogue is answering its questions through the new words. -/
theorem run_rephrase (answer : (p : P) → σ → B p × σ) (phrase : Q → P)
    (understand : (q : Q) → B (phrase q) → A q) (d : Dialogue Q A α) (s : σ) :
    run answer (d.rephrase phrase understand) s =
      run (fun q s => ((understand q (answer (phrase q) s).1), (answer (phrase q) s).2)) d s := by
  induction d generalizing s with
  | done a => rfl
  | ask q next ih => exact ih _ _

end Dialogue

end AvrConformance
