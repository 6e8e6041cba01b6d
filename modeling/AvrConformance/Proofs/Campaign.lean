import AvrConformance.Campaign
import AvrConformance.Proofs.Dialogue

/-!
# Equations of a campaign

What running cases, opcodes and campaigns comes to on a bench, one step at a
time. The running functions collect their results in an accumulator; here each
of them is a recursion on what is left to do:

* executing a case has three parts (`execute_eq`), and verifying it is executing and
  judging it (`conduct_verify`);
* the verdicts on a list of cases are the verdict on the first and those on the
  rest, unless the target fails (`run_verifyAll_cons`);
* a campaign is the run of its first opcode and the campaign of the others,
  unless the run was aborted (`run_campaign_cons`).
-/

namespace AvrConformance

variable {σ : Type}

namespace Drive

/-- What is made of a stop during an action. -/
def ofStop (action : String) : Except LinkError Stop → Except DriveError Stop
  | .ok stop =>
    if stop.isStopped then .ok stop else .error (.request action (.unexpectedStop stop))
  | .error e => .error (.request action e)

/-- The note that precedes a write to a region. -/
def writeNote (region : Region) (address : UInt32) (data : List UInt8) : Note :=
  ⟨.debug, s!"write {region.name}[{Text.hex 1 address.toNat}] ({data.length} bytes) at "
    ++ Text.hex 6 (region.locate address).toNat⟩

variable (b : Bench σ) (s : σ)

theorem conduct_writeBlock (region : Region) (address : UInt32) (data : List UInt8) :
    (writeBlock region address data).conduct b s =
      (let r := b.target (.writeMemory (region.locate address) data)
        (b.note (writeNote region address data) s)
      (r.1.mapError (.request "writing memory"), r.2)) := rfl

theorem conduct_readRegisters :
    readRegisters.conduct b s =
      ((b.target .readRegisters s).1.mapError (.request "reading registers"),
        (b.target .readRegisters s).2) := rfl

theorem conduct_writeRegisters (registers : Snapshot) :
    (writeRegisters registers).conduct b s =
      ((b.target (.writeRegisters registers) s).1.mapError (.request "writing registers"),
        (b.target (.writeRegisters registers) s).2) := rfl

theorem conduct_request_ok (action : String) {q : Request} {a : q.Reply} {s s' : σ}
    (h : b.target q s = (.ok a, s')) : (request action q).conduct b s = (.ok a, s') := by
  rw [conduct_request, h]
  rfl

/-- A part that succeeds hands over its result. -/
theorem conduct_bind_ok {α β : Type} {d : Drive α} {f : α → Drive β} {a : α} {s s' : σ}
    (h : d.conduct b s = (.ok a, s')) : (d >>= f).conduct b s = (f a).conduct b s' := by
  rw [conduct_bind, h]

theorem conduct_bind_error {α β : Type} {d : Drive α} {f : α → Drive β} {e : DriveError}
    {s s' : σ} (h : d.conduct b s = (.error e, s')) :
    (d >>= f).conduct b s = (.error e, s') := by
  rw [conduct_bind, h]

/-- Demanding of a stop that the target can go on. -/
theorem conduct_bind_requireStopped (action : String) {d : Drive Stop}
    {answer : Except LinkError Stop} {s s' : σ}
    (h : d.conduct b s = (answer.mapError (.request action), s')) :
    (d >>= requireStopped action).conduct b s = (ofStop action answer, s') := by
  cases answer with
  | error e => exact conduct_bind_error b h
  | ok stop =>
      rw [conduct_bind_ok b h]
      simp only [requireStopped, conduct_ite, conduct_pure, conduct_fail, ofStop]
      split <;> rfl

theorem conduct_resume (signal : Option UInt8) :
    (resume signal).conduct b s =
      (ofStop "resuming" (b.target (.resume signal) s).1, (b.target (.resume signal) s).2) :=
  conduct_bind_requireStopped b "resuming" rfl

theorem conduct_step :
    step.conduct b s = (ofStop "stepping" (b.target .step s).1, (b.target .step s).2) :=
  conduct_bind_requireStopped b "stepping" rfl

end Drive

/-- The request by which a strategy lets the instruction run. -/
def Strategy.request : Strategy → Request
  | step => .step
  | breakAfter => .resume none

namespace Trial

/-- The reset before a case, if one is wanted. -/
def prepare (settings : RunSettings) : Drive Unit :=
  if settings.resetBetweenCases then Drive.reset else pure ()

/-- A trial's code is a word or two. -/
theorem length_image (t : Trial) (strategy : Strategy) :
    0 < (t.image strategy).length ∧ (t.image strategy).length ≤ 4 := by
  cases strategy <;> simp [image, code, LittleEndian.ofWord]

/-- Putting a trial on the target. -/
def place (t : Trial) (strategy : Strategy) : Drive Unit := do
  Drive.writeBlock .code t.initial.pc (t.image strategy)
  Drive.writeRegisters t.initial

/-- Letting the instruction run, and capturing what it leaves. -/
def capture (strategy : Strategy) : Drive (Snapshot × Stop) := do
  let stop ← strategy.launch
  let registers ← Drive.readRegisters
  return (registers, stop)

/-- Executing a trial in three parts. -/
theorem execute_eq (t : Trial) (settings : RunSettings) :
    t.execute settings =
      prepare settings >>= fun _ => t.place settings.strategy >>= fun _ =>
        capture settings.strategy := by
  simp only [execute, prepare, place, capture, bind_assoc]
  split <;> rfl

/-- The requests of a trial: the reset if one is wanted, the code, the registers, the run
and the capture. -/
def script (t : Trial) (settings : RunSettings) : List Request :=
  (if settings.resetBetweenCases then [.resume (some Stop.hangup)] else []) ++
    ([.writeMemory (Region.code.locate t.initial.pc) (t.image settings.strategy),
      .writeRegisters t.initial] ++
    [settings.strategy.request, .readRegisters])

end Trial

namespace Opcode

/-- What verifying a case notes, once it is judged. -/
def verdictNote (c : Case) (v : Verdict) : Note :=
  ⟨.debug, c.label.text ++ if v.passed then ": pass" else ": FAIL"⟩

/-- Verifying a case is executing and judging it. -/
theorem conduct_verify (o : Opcode) (c : Case) (settings : RunSettings) (b : Bench σ) (s : σ) :
    (o.verify c settings).conduct b s =
      match (c.execute settings).conduct b s with
      | (.ok captured, s) =>
        (.ok (o.judge c captured.1 captured.2),
          b.note (verdictNote c (o.judge c captured.1 captured.2)) s)
      | (.error e, s) => (.error e, s) := by
  simp only [verify, Drive.conduct_bind]
  rcases (c.execute settings).conduct b s with ⟨_ | captured, s⟩ <;> rfl

def noteFailure (b : Bench σ) (v : Verdict) (s : σ) : σ :=
  if v.passed then s else b.note ⟨.warn, v.text⟩ s

theorem run_verifyFrom_cons (o : Opcode) (settings : RunSettings) (soFar : Array Verdict)
    (c : Case) (rest : List Case) (b : Bench σ) (s : σ) :
    (o.verifyFrom settings soFar (c :: rest)).run b s =
      match (o.verify c settings).conduct b s with
      | (.error cause, s) => ((soFar, some (c, cause)), s)
      | (.ok v, s) =>
        (o.verifyFrom settings (soFar.push v) rest).run b (noteFailure b v s) := by
  simp only [verifyFrom, Procedure.run_bind, Drive.conduct]
  rcases Procedure.run (ExceptT.run (o.verify c settings)) b s with ⟨_ | v, s⟩
  · rfl
  · simp only [Procedure.run_bind, Procedure.run_ite, noteFailure]
    split <;> rfl

/-- Verdicts reached before do not influence those that follow. -/
theorem run_verifyFrom (o : Opcode) (settings : RunSettings) (soFar : Array Verdict)
    (cases : List Case) (b : Bench σ) (s : σ) :
    (o.verifyFrom settings soFar cases).run b s =
      (let r := (o.verifyAll settings cases).run b s
      ((soFar ++ r.1.1.toArray, r.1.2), r.2)) := by
  induction cases generalizing soFar s with
  | nil => simp [verifyAll, verifyFrom]
  | cons c rest ih =>
      simp only [verifyAll, Procedure.run_bind, Procedure.run_pure, run_verifyFrom_cons]
      rcases (o.verify c settings).conduct b s with ⟨_ | v, s⟩
      · simp
      · simp only [ih (soFar.push v), ih (#[].push v)]
        simp

@[simp] theorem run_verifyAll_nil (o : Opcode) (settings : RunSettings) (b : Bench σ) (s : σ) :
    (o.verifyAll settings []).run b s = (([], none), s) := rfl

theorem run_verifyAll_cons (o : Opcode) (settings : RunSettings) (c : Case) (rest : List Case)
    (b : Bench σ) (s : σ) :
    (o.verifyAll settings (c :: rest)).run b s =
      match (o.verify c settings).conduct b s with
      | (.error cause, s) => (([], some (c, cause)), s)
      | (.ok v, s) =>
        (let r := (o.verifyAll settings rest).run b (noteFailure b v s)
        ((v :: r.1.1, r.1.2), r.2)) := by
  rw [verifyAll, Procedure.run_bind, run_verifyFrom_cons]
  rcases (o.verify c settings).conduct b s with ⟨_ | v, s⟩
  · rfl
  · simp only [Procedure.run_pure, run_verifyFrom o settings (#[].push v)]
    simp

/-- What a run notes before its first case. -/
def openingNote (o : Opcode) (cases : List Case) : Note :=
  ⟨.info, s!"{o.mnemonic}: {cases.length} cases "
    ++ s!"({o.registers.length} registers x {o.values.length} values)"⟩

/-- The words for a run that a failing target ended. -/
def abortReason (c : Case) (cause : DriveError) : String :=
  s!"at {c.label.text}: {chainText cause.chain}"

/-- What a run over some cases yields, given what verifying them came to. -/
def conclude (o : Opcode) (startedAt : Timestamp) :
    List Verdict × Option (Case × DriveError) → Except RunError Report
  | (verdicts, none) => .ok ⟨o.mnemonic, startedAt, verdicts, none⟩
  | (verdicts, some (c, cause)) =>
    .error (.aborted c.label cause
      ⟨o.mnemonic, startedAt, verdicts, some (abortReason c cause)⟩)

/-- What a run notes after its last case. -/
def closingNote (o : Opcode) (startedAt : Timestamp) :
    List Verdict × Option (Case × DriveError) → Note
  | (verdicts, none) =>
    ⟨.info, s!"{o.mnemonic}: {(Report.mk o.mnemonic startedAt verdicts none).tally.text}"⟩
  | (_, some (c, cause)) => ⟨.error, s!"{o.mnemonic} aborted {abortReason c cause}"⟩

/-- An opcode whose cases cannot be built is not run. -/
theorem run_run_of_error {o : Opcode} {settings : RunSettings} {e : EncodeError}
    (h : o.cases settings.baseline = .error e) (b : Bench σ) (s : σ) :
    (o.run settings).run b s = (.error (.encode e), s) := by
  simp only [run, h]
  rfl

/-- Running an opcode is verifying its cases, between two notes. -/
theorem run_run_of_ok {o : Opcode} {settings : RunSettings} {cases : List Case}
    (h : o.cases settings.baseline = .ok cases) (b : Bench σ) (s : σ) :
    (o.run settings).run b s =
      (let opened := b.note (o.openingNote cases) s
      let r := (o.verifyAll settings cases).run b opened
      (o.conclude (b.clock opened) r.1, b.note (o.closingNote (b.clock opened) r.1) r.2)) := by
  simp only [run, h, Procedure.run_bind, Procedure.run_note, Procedure.run_clock]
  simp only [openingNote]
  generalize Procedure.run (o.verifyAll settings cases) b _ = r
  obtain ⟨⟨verdicts, _ | ⟨c, cause⟩⟩, s⟩ := r <;> rfl

/-- The report on all cases of an opcode, unless they cannot be built. -/
def fullReport? (judged : Opcode → Case → Verdict) (settings : RunSettings)
    (moment : Timestamp) (o : Opcode) : Option Report :=
  match o.cases settings.baseline with
  | .ok cases => some ⟨o.mnemonic, moment, cases.map (judged o), none⟩
  | .error _ => none

/-- Why the cases of an opcode cannot be built, unless they can. -/
def defect? (settings : RunSettings) (o : Opcode) : Option EncodeError :=
  match o.cases settings.baseline with
  | .ok _ => none
  | .error e => some e

end Opcode

namespace Tally

theorem add_def (s t : Tally) : s + t = s.add t := rfl

theorem empty_add (t : Tally) : empty + t = t := by
  simp only [add_def, add, empty, Nat.zero_add]

theorem add_empty (t : Tally) : t + empty = t := by
  simp only [add_def, add, empty, Nat.add_zero]

theorem add_assoc (r s t : Tally) : r + s + t = r + (s + t) := by
  simp only [add_def, add, Nat.add_assoc]

theorem add_comm (s t : Tally) : s + t = t + s := by
  simp only [add_def, add, Nat.add_comm]

def sum (tallies : List Tally) : Tally := tallies.foldr (· + ·) empty

theorem sum_append (tallies others : List Tally) :
    sum (tallies ++ others) = sum tallies + sum others := by
  induction tallies with
  | nil => exact (empty_add _).symm
  | cons t rest ih =>
      show t + sum (rest ++ others) = t + sum rest + sum others
      rw [ih, add_assoc]

/-- The order of adding does not matter. -/
theorem sum_perm {tallies others : List Tally} (h : tallies.Perm others) :
    sum tallies = sum others := by
  induction h with
  | nil => rfl
  | cons t _ ih => exact congrArg (t + ·) ih
  | swap s t rest =>
      show t + (s + sum rest) = s + (t + sum rest)
      rw [← add_assoc, ← add_assoc, add_comm t s]
  | trans _ _ ih₁ ih₂ => exact ih₁.trans ih₂

end Tally

/-- A report as if it had been begun at another moment. -/
def Report.dated (moment : Timestamp) (r : Report) : Report := { r with startedAt := moment }

namespace Campaign

/-- A campaign as if all its reports had been begun at one moment. -/
def dated (moment : Timestamp) (c : Campaign) : Campaign :=
  { c with reports := c.reports.map (Report.dated moment) }

/-- One campaign before another, in one account. -/
def append (c d : Campaign) : Campaign where
  reports := c.reports ++ d.reports
  total := c.total + d.total
  rejected := c.rejected ++ d.rejected
  aborted := c.aborted || d.aborted

/-- What the run of one opcode adds to a campaign. -/
def ofRun : Except RunError Report → Campaign
  | .ok report => ⟨[report], report.tally, [], false⟩
  | .error (.encode e) => ⟨[], .empty, [e], false⟩
  | .error (.aborted _ _ report) => ⟨[report], report.tally, [], true⟩

def noteSkipped (o : Opcode) (b : Bench σ) (s : σ) : Except RunError Report → σ
  | .error (.encode e) => b.note ⟨.error, s!"skipping {o.mnemonic}: {e.message}"⟩ s
  | _ => s

theorem dated_append (moment : Timestamp) (c d : Campaign) :
    (c.append d).dated moment = (c.dated moment).append (d.dated moment) := by
  simp [dated, append]

theorem empty_append (c : Campaign) : empty.append c = c := by
  simp [append, empty, Tally.empty_add]

theorem append_empty (c : Campaign) : c.append empty = c := by
  simp [append, empty, Tally.add_empty]

theorem append_assoc (c d e : Campaign) : (c.append d).append e = c.append (d.append e) := by
  simp [append, Tally.add_assoc, Bool.or_assoc]

theorem run_proceed_cons (settings : RunSettings) (soFar : Campaign) (o : Opcode)
    (rest : List Opcode) (b : Bench σ) (s : σ) :
    (proceed settings soFar (o :: rest)).run b s =
      (let r := (o.run settings).run b s
      if (ofRun r.1).aborted then (soFar.append (ofRun r.1), r.2)
      else
        (proceed settings (soFar.append (ofRun r.1)) rest).run b (noteSkipped o b r.2 r.1)) := by
  simp only [proceed, Procedure.run_bind]
  generalize Procedure.run (o.run settings) b s = r
  obtain ⟨(_ | e) | report, s⟩ := r
  · simp [ofRun, append, withReport]
  · simp [ofRun, append, withRejected, Tally.add_empty, noteSkipped]
  · simp [ofRun, append, withReport, noteSkipped]

/-- What was done before does not influence how a campaign goes on. -/
theorem run_proceed (settings : RunSettings) (soFar : Campaign) (opcodes : List Opcode)
    (b : Bench σ) (s : σ) :
    (proceed settings soFar opcodes).run b s =
      (let r := (run settings opcodes).run b s
      (soFar.append r.1, r.2)) := by
  induction opcodes generalizing soFar s with
  | nil => simp [run, proceed, append_empty]
  | cons o rest ih =>
      simp only [run, run_proceed_cons, empty_append]
      split
      · rfl
      · rw [ih, ih (ofRun _)]
        simp only [append_assoc]

theorem run_campaign_cons (settings : RunSettings) (o : Opcode) (rest : List Opcode)
    (b : Bench σ) (s : σ) :
    (run settings (o :: rest)).run b s =
      (let first := (o.run settings).run b s
      if (ofRun first.1).aborted then (ofRun first.1, first.2)
      else
        let others := (run settings rest).run b (noteSkipped o b first.2 first.1)
        ((ofRun first.1).append others.1, others.2)) := by
  rw [run, run_proceed_cons]
  simp only [empty_append]
  split
  · rfl
  · rw [run_proceed]

/-- The campaign over some opcodes on a target that never fails, given what it
makes of their cases. -/
def complete (judged : Opcode → Case → Verdict) (settings : RunSettings) (moment : Timestamp)
    (opcodes : List Opcode) : Campaign where
  reports := opcodes.filterMap (Opcode.fullReport? judged settings moment)
  total := .sum ((opcodes.filterMap (Opcode.fullReport? judged settings moment)).map Report.tally)
  rejected := opcodes.filterMap (Opcode.defect? settings)
  aborted := false

theorem complete_cons (judged : Opcode → Case → Verdict) (settings : RunSettings)
    (moment : Timestamp) (o : Opcode) (rest : List Opcode) :
    complete judged settings moment (o :: rest) =
      (complete judged settings moment [o]).append (complete judged settings moment rest) := by
  have hsplit : o :: rest = [o] ++ rest := rfl
  simp only [complete, append, hsplit, List.filterMap_append, List.map_append, Tally.sum_append,
    Bool.or_false]

end Campaign

end AvrConformance
