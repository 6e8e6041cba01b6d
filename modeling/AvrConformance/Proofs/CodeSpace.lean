import AvrConformance.Proofs.ExitStatus
import AvrConformance.Proofs.Isolation
import AvrConformance.Proofs.PartialReport

/-!
# Where code is put

Code memory ends where data memory begins. All that a case writes is its code, and that
begins at the code origin, so it stays in code memory exactly if the origin leaves room
for it (`Trial.inCode_image_iff`). Of usable settings no more is known than that their
origin is even, which leaves all of data memory open to it (`code_reaches_data`); with an
origin in front of the strategy's limit no byte of a whole campaign gets there
(`code_stays_iff`).
-/

namespace AvrConformance

variable {σ : Type} {settings : RunSettings}

/-- Every byte that the request writes lies in front of data memory, where addresses count
on from the first byte and do not wrap. -/
def Request.InCode : Request → Prop
  | .writeMemory address data => ∀ i < data.length, address.toNat + i < Region.data.base.toNat
  | _ => True

/-- Nothing is written that lies outside code memory. -/
def KeepsToCode (deeds : List Deed) : Prop := ∀ d ∈ deeds, d.request.InCode

/-- The origin that is too far up for code with an even origin: a breakpoint takes the
last word in front of data memory. -/
def Strategy.limit : Strategy → UInt32
  | step => Region.data.base
  | breakAfter => Region.data.base - 2

namespace Trial

/-- The code of a trial, as a request. -/
theorem inCode_image_iff (t : Trial) (strategy : Strategy) (heven : t.initial.pc.toNat % 2 = 0) :
    (Request.writeMemory (Region.code.locate t.initial.pc) (t.image strategy)).InCode ↔
      t.initial.pc < strategy.limit := by
  have hplace : Region.code.locate t.initial.pc = t.initial.pc := UInt32.zero_add _
  have hbase : Region.data.base.toNat = 8388608 := rfl
  have hlast : (Region.data.base - 2).toNat = 8388606 := rfl
  rw [hplace, Request.InCode, hbase, UInt32.lt_iff_toNat_lt]
  -- an even origin below the limit is two bytes below it at least
  cases strategy with
  | step =>
      have hlength : (t.image .step).length = 2 := rfl
      rw [hlength, Strategy.limit, hbase]
      constructor
      · intro h
        exact h 0 (by omega)
      · intro h i hi
        omega
  | breakAfter =>
      have hlength : (t.image .breakAfter).length = 4 := rfl
      rw [hlength, Strategy.limit, hlast]
      constructor
      · intro h
        have hword := h 2 (by omega)
        omega
      · intro h i hi
        omega

/-- The code is all that a trial writes. -/
theorem inCode_of_among {t : Trial}
    (h : (Request.writeMemory (Region.code.locate t.initial.pc)
      (t.image settings.strategy)).InCode)
    {q : Request} (hq : (Inquiry.request q).Among (t.script settings)) : q.InCode := by
  cases q with
  | writeMemory address data =>
      have hcode : Request.writeMemory address data =
          .writeMemory (Region.code.locate t.initial.pc) (t.image settings.strategy) := by
        simp only [Inquiry.Among, script, List.mem_append, List.mem_cons, List.not_mem_nil,
          or_false] at hq
        rcases hq with hq | (hq | hq) | (hq | hq)
        · split at hq
          · cases List.mem_singleton.mp hq
          · cases hq
        · exact hq
        · cases hq
        · cases hs : settings.strategy <;> rw [hs] at hq <;> cases hq
        · cases hq
      rw [hcode]
      exact h
  | _ => trivial

/-- And unless its reset fails, a trial writes it. -/
theorem exists_write (t : Trial) {b : Bench σ} {s s' : σ}
    (h : (prepare settings).conduct b s = (.ok (), s')) :
    ∃ d ∈ (t.execute settings).deeds b s, d.request =
      .writeMemory (Region.code.locate t.initial.pc) (t.image settings.strategy) := by
  obtain ⟨answer, hwrite⟩ : ∃ answer,
      (Drive.writeBlock .code t.initial.pc (t.image settings.strategy)).deeds b s' =
        [⟨.writeMemory (Region.code.locate t.initial.pc) (t.image settings.strategy), answer⟩] :=
    ⟨_, rfl⟩
  refine ⟨⟨_, answer⟩, ?_, rfl⟩
  rw [execute_eq, Drive.deeds_bind, h]
  dsimp only
  rw [Drive.deeds_bind, place, Drive.deeds_bind, hwrite, List.append_assoc]
  exact List.mem_append_right _ (List.mem_append_left _ List.mem_cons_self)

end Trial

/-- Below the strategy's limit, a trial keeps to code memory whatever it is answered. -/
theorem Trial.asks_inCode (t : Trial) (heven : t.initial.pc.toNat % 2 = 0)
    (hbelow : t.initial.pc < settings.strategy.limit) :
    (t.execute settings).Asks fun q => ∀ r, q = .request r → r.InCode := by
  have himage := (t.inCode_image_iff settings.strategy heven).mpr hbelow
  refine Dialogue.Asks.mono ?_ (t.asks_execute settings)
  rintro q hq r rfl
  exact Trial.inCode_of_among himage hq

/-- A trial that keeps to code memory is below the limit, unless its reset fails. -/
theorem Trial.lt_limit_of_keepsToCode (t : Trial) (heven : t.initial.pc.toNat % 2 = 0)
    {b : Bench σ} (hreset : b.target.Resets) {s : σ}
    (hkeeps : KeepsToCode ((t.execute settings).deeds b s)) :
    t.initial.pc < settings.strategy.limit := by
  obtain ⟨s', hprepare⟩ := conduct_prepare_of_resets settings (fun _ => hreset) s
  obtain ⟨d, hd, hwrite⟩ := t.exists_write hprepare
  have hcode := hkeeps d hd
  rw [hwrite] at hcode
  exact (t.inCode_image_iff settings.strategy heven).mp hcode

/-- What the first case of a campaign does is done in the campaign. -/
theorem Campaign.mem_deeds {o : Opcode} {c : Case} {cases : List Case}
    (h : o.cases settings.baseline = .ok (c :: cases)) (rest : List Opcode) {b : Bench σ} {s : σ}
    {d : Deed}
    (hd : d ∈ (c.execute settings).deeds b (b.note (o.openingNote (c :: cases)) s)) :
    d ∈ Procedure.deeds (run settings (o :: rest)) b s := by
  rw [deeds_cons, Opcode.deeds_run_of_ok h, Opcode.deeds_verifyAll_cons, Opcode.deeds_verify]
  exact List.mem_append_left _ (List.mem_append_left _ hd)

/-- The code origin of usable settings is even. -/
theorem Settings.even_of_validate {s : Settings} {u : Unit} (h : s.validate = .ok u) :
    s.run.codeOrigin.toNat % 2 = 0 := by
  unfold validate at h
  split at h
  · cases h
  split at h
  · cases h
  split at h
  · cases h
  · rename_i heven
    have hzero : s.run.codeOrigin % 2 = 0 := Decidable.not_not.mp heven
    have hnat := congrArg UInt32.toNat hzero
    simpa using hnat

/-- An even origin is all that settings need, if they are the defaults otherwise. -/
theorem Settings.validate_of_even {run : RunSettings} (heven : run.codeOrigin % 2 = 0)
    (hall : run.opcodes = []) : ({ run } : Settings).validate = .ok () := by
  have hselected : run.selected = .ok Opcode.table := by
    rw [RunSettings.selected, hall]
    rfl
  have hhost : ("localhost" : String) ≠ "" := by decide
  unfold validate
  rw [if_neg hhost, if_neg nofun, if_neg (not_not_intro heven), hselected]
  rfl

/-- Every row of the table has a case whose code is written at the origin, if no reset
comes before it. -/
theorem Opcode.exists_write {run : RunSettings} (hreset : run.resetBetweenCases = false)
    {o : Opcode} (ho : o ∈ table) (b : Bench σ) (s : σ) :
    ∃ cases, o.cases run.baseline = .ok cases ∧ ∃ c ∈ cases, ∃ d ∈ (c.execute run).deeds b s,
      d.request = .writeMemory run.codeOrigin (c.image run.strategy) := by
  obtain ⟨cases, hcases, -, hsome⟩ := cases_of_mem_table ho run.baseline
  obtain ⟨c, more, rfl⟩ := List.exists_cons_of_ne_nil hsome
  have hprepare : (Trial.prepare run).conduct b s = (.ok (), s) := by
    rw [Trial.prepare, hreset]
    rfl
  obtain ⟨d, hd, hwrite⟩ := c.exists_write hprepare
  have horigin : Region.code.locate c.initial.pc = run.codeOrigin := by
    rw [pc_of_mem_cases hcases List.mem_cons_self]
    exact UInt32.zero_add _
  rw [horigin] at hwrite
  exact ⟨_, hcases, c, List.mem_cons_self, d, hd, hwrite⟩

section Even

variable {run : RunSettings} (heven : run.codeOrigin.toNat % 2 = 0)
include heven

/-- A case of an even origin keeps to code memory below the limit; it does not above, if its
reset succeeds. -/
theorem Opcode.keepsToCode_of_mem_cases {o : Opcode} {cases : List Case}
    (hcases : o.cases run.baseline = .ok cases) {c : Case} (hc : c ∈ cases) (b : Bench σ)
    (s : σ) :
    let deeds := (c.execute run).deeds b s
    (run.codeOrigin < run.strategy.limit → KeepsToCode deeds) ∧
      (b.target.Resets → KeepsToCode deeds → run.codeOrigin < run.strategy.limit) := by
  have horigin : c.initial.pc = run.codeOrigin := pc_of_mem_cases hcases hc
  rw [← horigin] at heven ⊢
  refine ⟨?_, fun hreset hkeeps => c.lt_limit_of_keepsToCode heven hreset hkeeps⟩
  intro hbelow d hd
  exact Procedure.of_mem_deeds (c.asks_inCode heven hbelow) hd _ rfl

/-- So does a campaign, which writes nothing but the code of its cases. -/
theorem Campaign.keepsToCode_of_selected {opcodes : List Opcode}
    (hselected : run.selected = .ok opcodes) (b : Bench σ) (s : σ) :
    let deeds := Procedure.deeds (Campaign.run run opcodes) b s
    (run.codeOrigin < run.strategy.limit → KeepsToCode deeds) ∧
      (b.target.Resets → KeepsToCode deeds → run.codeOrigin < run.strategy.limit) := by
  have hselects := (run.selected_eq_ok_iff opcodes).mp hselected
  refine ⟨?_, ?_⟩
  · intro hbelow d hd
    have hcase : ∀ o ∈ opcodes, ∀ cases, o.cases run.baseline = .ok cases → ∀ c ∈ cases,
        (c.execute run).Asks fun q => ∀ r, q = .request r → r.InCode := by
      intro o _ cases hcases c hc
      have horigin : c.initial.pc = run.codeOrigin := Opcode.pc_of_mem_cases hcases hc
      rw [← horigin] at heven hbelow
      exact c.asks_inCode heven hbelow
    have hrun :=
      Campaign.asks_proceed (fun _ _ h => nomatch h) (fun _ h => nomatch h) hcase .empty
    exact Procedure.of_mem_deeds hrun hd _ rfl
  · intro hreset hkeeps
    -- what the first case writes, the campaign writes
    obtain ⟨o, rest, rfl⟩ := List.exists_cons_of_ne_nil (ne_nil_of_selects hselects)
    obtain ⟨cases, hcases, -, hsome⟩ := Opcode.cases_of_mem_table
      (mem_table_of_selects hselects o List.mem_cons_self) run.baseline
    obtain ⟨c, more, rfl⟩ := List.exists_cons_of_ne_nil hsome
    refine (Opcode.keepsToCode_of_mem_cases heven hcases List.mem_cons_self b
      (b.note (o.openingNote (c :: more)) s)).2 hreset ?_
    intro d hd
    exact hkeeps d (Campaign.mem_deeds hcases rest hd)

end Even

/-- **Code stays in code memory** exactly if the code origin leaves room for it. With
usable settings every opcode of the table has cases. If the origin is below the strategy's
limit, none of them writes a byte anywhere but in code memory, and neither does a campaign
over the selected opcodes, whatever the target answers. Otherwise each of them does, and so
does the campaign, on every target that comes back from a reset. -/
theorem code_stays_iff {settings : Settings} {u : Unit} (hvalid : settings.validate = .ok u) :
    let run := settings.run
    (∀ o ∈ Opcode.table, ∃ cases, o.cases run.baseline = .ok cases ∧ cases ≠ [] ∧
      ∀ c ∈ cases, ∀ {σ : Type} (b : Bench σ) (s : σ),
        let deeds := (c.execute run).deeds b s
        (run.codeOrigin < run.strategy.limit → KeepsToCode deeds) ∧
        (b.target.Resets → KeepsToCode deeds → run.codeOrigin < run.strategy.limit)) ∧
    ∃ opcodes, run.selected = .ok opcodes ∧ ∀ {σ : Type} (b : Bench σ) (s : σ),
      let deeds := Procedure.deeds (Campaign.run run opcodes) b s
      (run.codeOrigin < run.strategy.limit → KeepsToCode deeds) ∧
      (b.target.Resets → KeepsToCode deeds → run.codeOrigin < run.strategy.limit) := by
  intro run
  have heven : run.codeOrigin.toNat % 2 = 0 := settings.even_of_validate hvalid
  refine ⟨?_, ?_⟩
  · intro o ho
    obtain ⟨cases, hcases, -, hsome⟩ := Opcode.cases_of_mem_table ho run.baseline
    exact ⟨cases, hcases, hsome, fun c hc _ b s =>
      Opcode.keepsToCode_of_mem_cases heven hcases hc b s⟩
  · obtain ⟨opcodes, hselected⟩ := settings.selected_of_validate hvalid
    exact ⟨opcodes, hselected, fun b s => Campaign.keepsToCode_of_selected heven hselected b s⟩

/-- The last words of code memory with room for a breakpoint behind them: a campaign writes
up to the first byte of data memory, and no further. -/
theorem code_stays_iff_at_brink :
    let run : RunSettings := { codeOrigin := 0x7FFFFC, strategy := .breakAfter }
    ({ run } : Settings).validate = .ok () ∧ ∃ opcodes, run.selected = .ok opcodes ∧
      ∀ {σ : Type} (b : Bench σ) (s : σ),
        KeepsToCode (Procedure.deeds (Campaign.run run opcodes) b s) := by
  intro run
  have hvalid : ({ run } : Settings).validate = .ok () := Settings.validate_of_even (by decide) rfl
  obtain ⟨-, opcodes, hselected, hcampaign⟩ := code_stays_iff hvalid
  exact ⟨hvalid, opcodes, hselected, fun b s => (hcampaign b s).1 (by decide)⟩

/-- Usable settings whose code lies in data memory: a step's instruction at its first byte,
and behind the last word of code memory, a breakpoint. -/
theorem code_reaches_data :
    let stepping : RunSettings := { codeOrigin := 0x800000, resetBetweenCases := false }
    let breaking : RunSettings :=
      { codeOrigin := 0x7FFFFE, resetBetweenCases := false, strategy := .breakAfter }
    let b := Script.target.bench Timestamp.epoch
    (({ run := stepping } : Settings).validate = .ok () ∧
      ({ run := breaking } : Settings).validate = .ok ()) ∧
    Region.data.base = 0x800000 ∧
    ∃ o ∈ Opcode.table,
      (∃ cases, o.cases stepping.baseline = .ok cases ∧ ∃ c ∈ cases,
        ∃ d ∈ (c.execute stepping).deeds b ⟨[], #[]⟩,
          d.request = .writeMemory 0x800000 c.code) ∧
      ∃ cases, o.cases breaking.baseline = .ok cases ∧ ∃ c ∈ cases,
        ∃ d ∈ (c.execute breaking).deeds b ⟨[], #[]⟩,
          d.request = .writeMemory 0x7FFFFE (c.code ++ LittleEndian.ofWord Opcode.breakWord) := by
  intro stepping breaking b
  have hrow : Opcode.table.head (List.cons_ne_nil _ _) ∈ Opcode.table := List.head_mem _
  exact ⟨⟨Settings.validate_of_even (by decide) rfl, Settings.validate_of_even (by decide) rfl⟩,
    rfl, _, hrow, Opcode.exists_write rfl hrow b _, Opcode.exists_write rfl hrow b _⟩

end AvrConformance
