import AvrConformance.Program.Rehearsal
import AvrConformance.Proofs.Inquiries
import AvrConformance.Proofs.Outcome
import AvrConformance.Proofs.Result

/-!
# The exit status

What the program's exit status tells of its surroundings:

* settings that are accepted select rows of the table, and never none
  (`selected_of_override`), so that no pass is empty;
* the status is decided once the campaign is over, whatever comes of the report
  file and of the farewell (`run_status`);
* it is 0 exactly if all cases of the selected opcodes were captured as expected,
  and 2 exactly if the command line or the settings cannot be used
  (`exit_status`).
-/

namespace AvrConformance

/-! ## What is selected -/

/-- The opcodes that some mnemonics select, in order. No mnemonics select the whole
table. -/
def Selects : List String → List Opcode → Prop
  | [], opcodes => opcodes = Opcode.table
  | names, opcodes => names.map Opcode.lookup? = opcodes.map some

namespace RunSettings

theorem find_eq_ok_iff (name : String) (o : Opcode) :
    find name = .ok o ↔ Opcode.lookup? name = some o := by
  unfold find
  cases Opcode.lookup? name <;> simp

theorem mapM_find_iff (names : List String) (opcodes : List Opcode) :
    names.mapM find = .ok opcodes ↔ names.map Opcode.lookup? = opcodes.map some := by
  induction names generalizing opcodes with
  | nil => cases opcodes <;> simp [pure, Except.pure]
  | cons name rest ih =>
      simp only [List.mapM_cons, except_bind_eq_ok, find_eq_ok_iff, ih, List.map_cons]
      constructor
      · rintro ⟨o, ho, others, hothers, ⟨⟩⟩
        rw [ho, hothers, List.map_cons]
      · intro h
        cases opcodes with
        | nil => exact absurd h nofun
        | cons o others =>
            injection h with ho hothers
            exact ⟨o, ho, others, hothers, rfl⟩

theorem selected_eq_ok_iff (r : RunSettings) (opcodes : List Opcode) :
    r.selected = .ok opcodes ↔ Selects r.opcodes opcodes := by
  unfold selected
  cases hnames : r.opcodes with
  | nil =>
      simp only [List.isEmpty_nil, if_true, Selects, Except.ok.injEq]
      exact eq_comm
  | cons name rest =>
      simp only [List.isEmpty_cons, Bool.false_eq_true, if_false, Selects]
      exact mapM_find_iff _ _

end RunSettings

/-- What is selected are rows of the table. -/
theorem mem_table_of_selects {names : List String} {opcodes : List Opcode}
    (h : Selects names opcodes) : ∀ o ∈ opcodes, o ∈ Opcode.table := by
  intro o ho
  cases names with
  | nil => exact h ▸ ho
  | cons name rest =>
      have hfound : some o ∈ (name :: rest).map Opcode.lookup? := by
        rw [h]
        exact List.mem_map_of_mem ho
      obtain ⟨x, -, hx⟩ := List.mem_map.mp hfound
      exact List.mem_of_find?_eq_some hx

theorem Selects.unique {names : List String} {opcodes others : List Opcode}
    (h : Selects names opcodes) (h' : Selects names others) : opcodes = others := by
  cases names with
  | nil => exact h.trans h'.symm
  | cons name rest =>
      have hsame : opcodes.map some = others.map some := h.symm.trans h'
      exact (List.map_inj_right fun _ _ => Option.some.inj).mp hsame

theorem ne_nil_of_selects {names : List String} {opcodes : List Opcode}
    (h : Selects names opcodes) : opcodes ≠ [] := by
  rintro rfl
  cases names with
  | nil => exact absurd h nofun
  | cons name rest => exact absurd h nofun

/-- Usable settings select something. -/
theorem Settings.selected_of_validate {s : Settings} {u : Unit} (h : s.validate = .ok u) :
    ∃ opcodes, s.run.selected = .ok opcodes := by
  unfold validate at h
  split at h
  · cases h
  split at h
  · cases h
  split at h
  · cases h
  obtain ⟨opcodes, hselected, -⟩ := except_map_eq_ok.mp h
  exact ⟨opcodes, hselected⟩

namespace CommandLine

/-- The settings that a command line begins with: the defaults, or those of a file. -/
def base (c : CommandLine) (files : String → Except String String) :
    Except SettingsError Settings :=
  match c.config with
  | none => .ok {}
  | some path => Settings.ofFile path (files path)

/-- The settings that a command line comes to, its mnemonics included. -/
def accepted (c : CommandLine) (files : String → Except String String) :
    Except SettingsError Settings := c.base files >>= c.override

/-- The mnemonics that count: those of the command line, or else those of the settings. -/
def mnemonics (c : CommandLine) (base : Settings) : List String :=
  if c.opcodes = [] then base.run.opcodes else c.opcodes

theorem accepted_eq_ok_iff (c : CommandLine) (files : String → Except String String)
    (s : Settings) :
    c.accepted files = .ok s ↔ ∃ base, c.base files = .ok base ∧ c.override base = .ok s :=
  except_bind_eq_ok

/-- The settings to begin with select something. -/
theorem selected_of_base {c : CommandLine} {files : String → Except String String}
    {base : Settings} (h : c.base files = .ok base) :
    ∃ opcodes, base.run.selected = .ok opcodes := by
  unfold CommandLine.base at h
  split at h
  · injection h with h
    exact ⟨Opcode.table, h ▸ rfl⟩
  · unfold Settings.ofFile at h
    split at h
    · cases h
    split at h
    · cases h
    · obtain ⟨_, hvalid, rfl⟩ := except_map_eq_ok.mp h
      exact Settings.selected_of_validate hvalid

/-- Accepted settings select the opcodes of the mnemonics that count. -/
theorem selected_of_override {c : CommandLine} {files : String → Except String String}
    {base s : Settings} (hbase : c.base files = .ok base) (h : c.override base = .ok s) :
    ∃ opcodes, s.run.selected = .ok opcodes ∧ Selects (c.mnemonics base) opcodes := by
  unfold override at h
  unfold mnemonics
  split at h
  · rename_i hnone
    injection h with h
    obtain ⟨opcodes, hselected⟩ := selected_of_base hbase
    rw [if_pos (List.isEmpty_iff.mp hnone)]
    exact ⟨opcodes, h ▸ hselected, (base.run.selected_eq_ok_iff opcodes).mp hselected⟩
  · rename_i hsome
    have hopcodes : c.opcodes ≠ [] := fun hnone => hsome (List.isEmpty_iff.mpr hnone)
    rw [if_neg hopcodes]
    obtain ⟨_, hvalid, rfl⟩ := except_map_eq_ok.mp h
    obtain ⟨opcodes, hselected⟩ := Settings.selected_of_validate hvalid
    exact ⟨opcodes, hselected, (RunSettings.selected_eq_ok_iff _ opcodes).mp hselected⟩

end CommandLine

/-! ## What decides the status -/

/-- Can the answer to this errand bear on the exit status? What the program prints and
files, and how it parts from the target, comes too late for that. -/
def Errand.Decisive : Errand → Prop
  | inquire q => q ≠ .request .close
  | readFile _ => True
  | connect _ => True
  | writeFile _ _ => False
  | release => False
  | print _ => False
  | complain _ => False

namespace Rehearsal

/-- Rehearsals in which the same has been said over the connection. -/
def Alike (r r' : Rehearsal) : Prop := r.session = r'.session ∧ r.clock = r'.clock

theorem bench_unheeded : bench.Unheeded Alike where
  target := by
    rintro r r' ⟨hsession, hclock⟩ q
    simp only [bench, request, hsession]
    cases r'.session with
    | none => exact ⟨rfl, hsession, hclock⟩
    | some s => exact ⟨rfl, rfl, hclock⟩
  clock h := h.2
  note_left h _ := h
  note_right h _ := h

/-- The campaign over a fresh connection. -/
def campaign (r : Rehearsal) (s : Settings) : Campaign :=
  ((Campaign.run s.run (Program.selection s)).run bench (r.connect s.target).2).1

/-- The exit status that the command line, the settings, the connection and the
campaign decide between them. -/
def status (words : List String) (r : Rehearsal) : UInt32 :=
  match CommandLine.parse words with
  | .error _ => 2
  | .ok line =>
    match line.accepted r.files with
    | .error _ => 2
    | .ok s =>
      match (r.connect s.target).1 with
      | .error _ => 1
      | .ok () => if (r.campaign s).allPassed then 0 else 1

section Answerer

variable {f : (e : Errand) → Rehearsal → e.Answer × Rehearsal}

/-- An answerer of procedures' inquiries other than the farewell. -/
theorem run_perform (hf : ∀ e r, e.Decisive → f e r = answer e r) {α : Type} {p : Procedure α}
    (hp : Dialogue.Asks Inquiry.OfCampaign p) (r : Rehearsal) :
    Dialogue.run f (Program.perform p) r = p.run bench r := by
  have hstep : ∀ q (s t : Rehearsal), Inquiry.OfCampaign q → s = t →
      (f (.inquire q) s).1 = (bench.answer q t).1 ∧
        (f (.inquire q) s).2 = (bench.answer q t).2 := by
    rintro q s _ hq rfl
    have hdecisive : (Errand.inquire q).Decisive := by
      rintro rfl
      exact hq.elim id nofun
    rw [hf _ _ hdecisive]
    exact ⟨rfl, rfl⟩
  rw [Program.perform, Dialogue.run_rephrase]
  obtain ⟨hresult, hleft⟩ := Dialogue.run_lockstep hstep hp (rfl : r = r)
  exact Prod.ext hresult hleft

theorem run_settings (hf : ∀ e r, e.Decisive → f e r = answer e r) (c : CommandLine)
    (r : Rehearsal) : Dialogue.run f (Program.settings c) r = (c.accepted r.files, r) := by
  unfold Program.settings CommandLine.accepted CommandLine.base
  cases c.config with
  | none => rfl
  | some path =>
      have hread : f (.readFile path) r = (r.files path, r) := hf _ _ trivial
      simp only [Program.errand, Dialogue.run_bind, Dialogue.run_question, hread,
        Dialogue.run_pure]

/-- The program hands back its campaign, whatever comes after it. -/
theorem run_conduct (hf : ∀ e r, e.Decisive → f e r = answer e r) (s : Settings)
    {r r' : Rehearsal} (hR : Alike r' r) :
    (Dialogue.run f (Program.conduct s) r').1 =
      ((Campaign.run s.run (Program.selection s)).run bench r).1 := by
  have hnote : ∀ level message,
      (Dialogue.run f (Program.note level message) r').2 = r'.withNote ⟨level, message⟩ := by
    intro level message
    have hasks : Dialogue.Asks Inquiry.OfCampaign (Procedure.note level message) :=
      (Dialogue.asks_question (Inquiry.note _)).mpr (.inl trivial)
    rw [Program.note, run_perform hf hasks]
    rfl
  simp only [Program.conduct, Dialogue.run_bind, hnote,
    run_perform hf (Campaign.asks_run s.run (Program.selection s)), Dialogue.run_pure]
  exact (bench_unheeded.run _ (bench_unheeded.note_left hR _)).1

/-- The status is decided by then, whatever the program prints, files and hears
afterwards. -/
theorem run_status (hf : ∀ e r, e.Decisive → f e r = answer e r) (words : List String)
    (r : Rehearsal) : (Dialogue.run f (Program.run words) r).1 = status words r := by
  unfold Program.run status
  cases CommandLine.parse words with
  | error e => rfl
  | ok line =>
      simp only [Dialogue.run_bind, run_settings hf]
      cases line.accepted r.files with
      | error e => rfl
      | ok s =>
          have hconnect : f (.connect s.target) r = r.connect s.target := hf _ _ trivial
          simp only [Program.errand, Dialogue.run_bind, Dialogue.run_question, hconnect]
          cases (r.connect s.target).1 with
          | error e => rfl
          | ok u =>
              simp only [Dialogue.run_bind, run_conduct hf s ⟨rfl, rfl⟩, Dialogue.run_pure]
              rfl

end Answerer

/-! ## What the status tells -/

/-- The command line or the settings cannot be used. -/
def Misused (words : List String) (r : Rehearsal) : Prop :=
  (∃ e, CommandLine.parse words = .error e) ∨
    ∃ line e, CommandLine.parse words = .ok line ∧ line.accepted r.files = .error e

/-- The command line is understood, the settings are accepted, the peer is reached and
the handshake succeeds; and from there on every case of every selected opcode, 32 for
each of its values, is executed and captures the registers expected of it when signal 5
stops the target. -/
def Succeeds (words : List String) (r : Rehearsal) : Prop :=
  ∃ line base s opcodes r',
    CommandLine.parse words = .ok line ∧ line.base r.files = .ok base ∧
    line.override base = .ok s ∧ (r.connect s.target).1 = .ok () ∧
    Selects (line.mnemonics base) opcodes ∧
    (∀ o ∈ opcodes, ∃ cases, o.cases s.run.baseline = .ok cases ∧
      cases.length = 32 * o.values.length) ∧
    Covers bench s.run opcodes (r.connect s.target).2 r'

/-- A campaign over a connection passes exactly if it covers what is selected. -/
theorem allPassed_campaign_iff (r : Rehearsal) {s : Settings} {names : List String}
    {opcodes : List Opcode} (hselected : s.run.selected = .ok opcodes)
    (hnames : Selects names opcodes) :
    (r.campaign s).allPassed = true ↔
      ∃ r', Covers bench s.run opcodes (r.connect s.target).2 r' := by
  have htable := mem_table_of_selects hnames
  have hselection : Program.selection s = opcodes := by rw [Program.selection, hselected]
  rw [campaign, hselection]
  constructor
  · intro hpass
    exact covers_of_run bench_unheeded htable ⟨rfl, rfl⟩ hpass
  · rintro ⟨r', hcovers⟩
    exact (run_of_covers bench_unheeded htable ⟨rfl, rfl⟩ hcovers).1

section Status

variable {words : List String} {r : Rehearsal} {line : CommandLine} {s : Settings}

theorem status_of_misused (h : Misused words r) : status words r = 2 := by
  rcases h with ⟨e, hparse⟩ | ⟨line, e, hparse, haccepted⟩
  · simp only [status, hparse]
  · simp only [status, hparse, haccepted]

theorem status_of_unreached (hparse : CommandLine.parse words = .ok line)
    (haccepted : line.accepted r.files = .ok s) {e : DriveError}
    (hconnect : (r.connect s.target).1 = .error e) : status words r = 1 := by
  simp only [status, hparse, haccepted, hconnect]

theorem status_of_reached (hparse : CommandLine.parse words = .ok line)
    (haccepted : line.accepted r.files = .ok s) (hconnect : (r.connect s.target).1 = .ok ()) :
    status words r = if (r.campaign s).allPassed then 0 else 1 := by
  simp only [status, hparse, haccepted, hconnect]

/-- The three ways a program can go. -/
theorem misused_or_accepted (words : List String) (r : Rehearsal) :
    Misused words r ∨ ∃ line s, CommandLine.parse words = .ok line ∧
      line.accepted r.files = .ok s ∧
      ((∃ e, (r.connect s.target).1 = .error e) ∨ (r.connect s.target).1 = .ok ()) := by
  cases hparse : CommandLine.parse words with
  | error e => exact .inl (.inl ⟨e, hparse⟩)
  | ok line =>
      cases haccepted : line.accepted r.files with
      | error e => exact .inl (.inr ⟨line, e, hparse, haccepted⟩)
      | ok s =>
          refine .inr ⟨line, s, rfl, haccepted, ?_⟩
          cases (r.connect s.target).1 with
          | error e => exact .inl ⟨e, rfl⟩
          | ok u => exact .inr rfl

theorem status_eq_zero_iff (words : List String) (r : Rehearsal) :
    status words r = 0 ↔ Succeeds words r := by
  constructor
  · intro hzero
    rcases misused_or_accepted words r with
      hmisused | ⟨line, s, hparse, haccepted, ⟨e, hconnect⟩ | hconnect⟩
    · rw [status_of_misused hmisused] at hzero
      exact absurd hzero (by decide)
    · rw [status_of_unreached hparse haccepted hconnect] at hzero
      exact absurd hzero (by decide)
    · rw [status_of_reached hparse haccepted hconnect] at hzero
      obtain ⟨base, hbase, hoverride⟩ := (line.accepted_eq_ok_iff r.files s).mp haccepted
      obtain ⟨opcodes, hselected, hnames⟩ := CommandLine.selected_of_override hbase hoverride
      have hpass : (r.campaign s).allPassed = true := by
        by_cases hpass : (r.campaign s).allPassed = true
        · exact hpass
        · rw [if_neg hpass] at hzero
          exact absurd hzero (by decide)
      obtain ⟨r', hcovers⟩ := (allPassed_campaign_iff r hselected hnames).mp hpass
      refine ⟨line, base, s, opcodes, r', hparse, hbase, hoverride, hconnect, hnames, ?_,
        hcovers⟩
      intro o ho
      obtain ⟨cases, hcases, hlength, -⟩ :=
        Opcode.cases_of_mem_table (mem_table_of_selects hnames o ho) s.run.baseline
      exact ⟨cases, hcases, hlength⟩
  · rintro ⟨line, base, s, opcodes, r', hparse, hbase, hoverride, hconnect, hnames, -, hcovers⟩
    have haccepted := (line.accepted_eq_ok_iff r.files s).mpr ⟨base, hbase, hoverride⟩
    obtain ⟨others, hselected, hothers⟩ := CommandLine.selected_of_override hbase hoverride
    obtain rfl := hothers.unique hnames
    have hpass := (allPassed_campaign_iff r hselected hnames).mpr ⟨r', hcovers⟩
    rw [status_of_reached hparse haccepted hconnect, if_pos hpass]

theorem status_eq_two_iff (words : List String) (r : Rehearsal) :
    status words r = 2 ↔ Misused words r := by
  refine ⟨fun htwo => ?_, status_of_misused⟩
  rcases misused_or_accepted words r with
    hmisused | ⟨line, s, hparse, haccepted, ⟨e, hconnect⟩ | hconnect⟩
  · exact hmisused
  · rw [status_of_unreached hparse haccepted hconnect] at htwo
    exact absurd htwo (by decide)
  · rw [status_of_reached hparse haccepted hconnect] at htwo
    split at htwo <;> exact absurd htwo (by decide)

theorem status_cases (words : List String) (r : Rehearsal) :
    status words r = 0 ∨ status words r = 1 ∨ status words r = 2 := by
  rcases misused_or_accepted words r with
    hmisused | ⟨line, s, hparse, haccepted, ⟨e, hconnect⟩ | hconnect⟩
  · exact .inr (.inr (status_of_misused hmisused))
  · exact .inr (.inl (status_of_unreached hparse haccepted hconnect))
  · rw [status_of_reached hparse haccepted hconnect]
    split
    · exact .inl rfl
    · exact .inr (.inl rfl)

/-- A success is never empty. -/
theorem executed_of_succeeds (h : Succeeds words r) :
    ∃ line s, CommandLine.parse words = .ok line ∧ line.accepted r.files = .ok s ∧
      (r.campaign s).aborted = false ∧ (r.campaign s).rejected = [] ∧
      0 < (r.campaign s).total.executed ∧
      (r.campaign s).total.executed = caseCount (Program.selection s) := by
  obtain ⟨line, base, s, opcodes, r', hparse, hbase, hoverride, -, hnames, -, hcovers⟩ := h
  have haccepted := (line.accepted_eq_ok_iff r.files s).mpr ⟨base, hbase, hoverride⟩
  obtain ⟨others, hselected, hothers⟩ := CommandLine.selected_of_override hbase hoverride
  obtain rfl := hothers.unique hnames
  have htable := mem_table_of_selects hnames
  have hselection : Program.selection s = others := by rw [Program.selection, hselected]
  obtain ⟨-, haborted, hrejected, hexecuted⟩ :=
    run_of_covers bench_unheeded htable ⟨rfl, rfl⟩ hcovers
  refine ⟨line, s, hparse, haccepted, ?_⟩
  rw [campaign, hselection]
  refine ⟨haborted, hrejected, ?_, hexecuted⟩
  rw [hexecuted]
  exact caseCount_pos htable (ne_nil_of_selects hnames)

end Status

/-- **The exit status.** Whatever the words on the command line, the files at hand and
the bytes of the peer, the program exits with 0 exactly on success, with 2 exactly on
misuse, and otherwise with 1. Success is never empty: the campaign was not aborted, no
opcode was skipped, and 32 cases were executed for each value of each opcode, of which
there are some. What the program prints, files and hears after the campaign does not
show the status. -/
theorem exit_status (words : List String) (r : Rehearsal) :
    ((r.run words).1 = 0 ↔ Succeeds words r) ∧
    ((r.run words).1 = 2 ↔ Misused words r) ∧
    ((r.run words).1 = 0 ∨ (r.run words).1 = 1 ∨ (r.run words).1 = 2) ∧
    ((r.run words).1 = 0 → ∃ line s, CommandLine.parse words = .ok line ∧
      line.accepted r.files = .ok s ∧ (r.campaign s).aborted = false ∧
      (r.campaign s).rejected = [] ∧ 0 < (r.campaign s).total.executed ∧
      (r.campaign s).total.executed = caseCount (Program.selection s)) ∧
    (∀ f : (e : Errand) → Rehearsal → e.Answer × Rehearsal,
      (∀ e r, e.Decisive → f e r = answer e r) →
        (Dialogue.run f (Program.run words) r).1 = (r.run words).1) := by
  have hstatus : (r.run words).1 = status words r := run_status (fun _ _ _ => rfl) words r
  rw [hstatus]
  refine ⟨status_eq_zero_iff words r, status_eq_two_iff words r, status_cases words r, ?_, ?_⟩
  · intro hzero
    exact executed_of_succeeds ((status_eq_zero_iff words r).mp hzero)
  · intro f hf
    exact run_status hf words r

end Rehearsal

end AvrConformance
