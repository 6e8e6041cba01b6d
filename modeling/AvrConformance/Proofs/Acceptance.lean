import Mathlib.Data.List.Forall2
import AvrConformance.Proofs.ExitStatus

/-!
# Accepted settings

The settings of a file are checked when they are read, and once more if the command line
names opcodes in the place of theirs; the defaults are checked only then. Nothing unusable
gets through by any of these ways:

* **names**: an opcode is found by its name in either case, and by no other
  (`Opcode.lookup?_eq_some_iff`), and of several names the first that is unknown is
  reported (`RunSettings.selected_eq_error_iff`);
* **checks**: taking over names from the command line can spoil usable settings in no other
  way than by an unknown name (`Settings.validate_naming_of_usable`);
* **outcomes**: settings that are accepted are usable and select the rows that are named,
  and all else is refused for the first thing that is wrong
  (`CommandLine.settings_accepted`).
-/

namespace AvrConformance

/-! ## Names -/

namespace Opcode

/-- The opcode is a row of the table, and this is its mnemonic but for the case of the
letters of ASCII. -/
def Named (name : String) (o : Opcode) : Prop := o ∈ table ∧ o.mnemonic.toUpper = name.toUpper

theorem canonicalMnemonic_eq (name : String) : canonicalMnemonic name = name.toUpper := by
  rw [canonicalMnemonic, ← String.toList_inj, String.toList_ofList, String.toUpper,
    String.toList_map]

/-- The rows of the table have different mnemonics. -/
theorem eq_of_mnemonic : ∀ o ∈ table, ∀ o' ∈ table,
    canonicalMnemonic o.mnemonic = canonicalMnemonic o'.mnemonic → o = o' := by
  decide

theorem lookup?_eq_some_iff {name : String} {o : Opcode} :
    lookup? name = some o ↔ Named name o := by
  unfold lookup? Named
  rw [← canonicalMnemonic_eq, ← canonicalMnemonic_eq]
  constructor
  · intro h
    have hname := List.find?_some h
    exact ⟨List.mem_of_find?_eq_some h, beq_iff_eq.mp hname⟩
  · rintro ⟨ho, hname⟩
    -- some row has the name, and there is no other with it
    cases hfind : table.find? (fun o => canonicalMnemonic o.mnemonic == canonicalMnemonic name) with
    | none =>
        have hother := List.find?_eq_none.mp hfind o ho
        exact absurd (beq_iff_eq.mpr hname) hother
    | some o' =>
        have hname' := List.find?_some hfind
        have ho' := List.mem_of_find?_eq_some hfind
        rw [eq_of_mnemonic o' ho' o ho ((beq_iff_eq.mp hname').trans hname.symm)]

theorem lookup?_eq_none_iff {name : String} : lookup? name = none ↔ ∀ o, ¬ Named name o := by
  simp only [← lookup?_eq_some_iff, Option.eq_none_iff_forall_ne_some, ne_eq]

end Opcode

/-- The opcodes are the rows that are named, one for each name and in their order; without a
name they are the whole table. -/
def Names (names : List String) (opcodes : List Opcode) : Prop :=
  if names = [] then opcodes = Opcode.table else List.Forall₂ Opcode.Named names opcodes

theorem selects_iff_names {names : List String} {opcodes : List Opcode} :
    Selects names opcodes ↔ Names names opcodes := by
  cases names with
  | nil => simp [Selects, Names]
  | cons name rest =>
      rw [Names, if_neg (List.cons_ne_nil name rest), Selects, ← List.forall₂_eq_eq_eq,
        List.forall₂_map_left_iff, List.forall₂_map_right_iff]
      · simp only [Opcode.lookup?_eq_some_iff]
      · exact fun hnone => List.cons_ne_nil name rest hnone

/-- The first of some names that no opcode has. -/
def FirstUnknown (names : List String) (name : String) : Prop :=
  ∃ known rest, names = known ++ name :: rest ∧
    (∀ k ∈ known, ∃ o, Opcode.Named k o) ∧ ∀ o, ¬ Opcode.Named name o

theorem not_firstUnknown_nil {name : String} : ¬ FirstUnknown [] name := by
  rintro ⟨known, rest, hnames, -⟩
  exact absurd hnames.symm (List.append_ne_nil_of_right_ne_nil known (List.cons_ne_nil name rest))

namespace RunSettings

theorem find_eq_ok_iff_named {name : String} {o : Opcode} :
    find name = .ok o ↔ Opcode.Named name o := by
  rw [find_eq_ok_iff, Opcode.lookup?_eq_some_iff]

theorem find_eq_error_iff {name : String} {e : SettingsError} :
    find name = .error e ↔ e = .unknownOpcode name ∧ ∀ o, ¬ Opcode.Named name o := by
  rw [← Opcode.lookup?_eq_none_iff]
  unfold find
  cases Opcode.lookup? name with
  | some o => simp
  | none => simp [eq_comm]

/-- A row of names is given up at the first one that is unknown. -/
theorem mapM_find_eq_error_iff {names : List String} {e : SettingsError} :
    names.mapM find = .error e ↔ ∃ name, e = .unknownOpcode name ∧ FirstUnknown names name := by
  rw [mapM_eq_error_iff]
  simp only [find_eq_ok_iff_named, find_eq_error_iff]
  constructor
  · rintro ⟨known, name, rest, hnames, hknown, he, hunknown⟩
    exact ⟨name, he, known, rest, hnames, hknown, hunknown⟩
  · rintro ⟨name, he, known, rest, hnames, hknown, hunknown⟩
    exact ⟨known, name, rest, hnames, hknown, he, hunknown⟩

theorem selected_eq_error_iff {r : RunSettings} {e : SettingsError} :
    r.selected = .error e ↔ ∃ name, e = .unknownOpcode name ∧ FirstUnknown r.opcodes name := by
  rw [← mapM_find_eq_error_iff]
  unfold selected
  cases r.opcodes with
  | nil => exact iff_of_false nofun nofun
  | cons name rest => rfl

end RunSettings

/-! ## Checks -/

namespace Settings

/-- The settings with other names of opcodes. -/
def naming (names : List String) (s : Settings) : Settings :=
  { s with run := { s.run with opcodes := names } }

theorem validate_default : ({} : Settings).validate = .ok () := by
  decide

/-- An unknown name is reported only if it is the first one. -/
theorem firstUnknown_of_validate {s : Settings} {name : String}
    (h : s.validate = .error (.unknownOpcode name)) : FirstUnknown s.run.opcodes name := by
  unfold validate at h
  split at h
  · cases h
  split at h
  · cases h
  split at h
  · cases h
  · obtain ⟨_, ⟨⟩, hfirst⟩ := RunSettings.selected_eq_error_iff.mp (except_map_eq_error.mp h)
    exact hfirst

/-- Of usable settings with other names, no more than the names is left to be checked. -/
theorem validate_naming_of_usable {s : Settings} (h : s.validate = .ok ()) (names : List String) :
    (s.naming names).validate = (s.naming names).run.selected.map fun _ => () := by
  unfold validate at h
  split at h
  · cases h
  next hhost =>
  split at h
  · cases h
  next htimeout =>
  split at h
  · cases h
  next heven => rw [validate, naming, if_neg hhost, if_neg htimeout, if_neg heven]

/-- A file holds usable settings. -/
theorem ofFile_eq_ok_iff {path : String} {content : Except String String} {s : Settings} :
    ofFile path content = .ok s ↔ ∃ text, content = .ok text ∧
      (Json.parse? text).bind ofJson? = some s ∧ s.validate = .ok () := by
  unfold ofFile
  cases content with
  | error cause => simp
  | ok text =>
      simp only [Except.ok.injEq, exists_eq_left']
      cases hheld : (Json.parse? text).bind ofJson? with
      | none => exact ⟨nofun, fun h => nomatch h.1⟩
      | some held =>
          simp only [except_map_eq_ok, Option.some.injEq]
          constructor
          · rintro ⟨_, hvalid, rfl⟩
            exact ⟨rfl, hvalid⟩
          · rintro ⟨rfl, hvalid⟩
            exact ⟨(), hvalid, rfl⟩

/-- A file cannot be read, or holds no settings, or none that are usable. -/
theorem ofFile_eq_error_iff {path : String} {content : Except String String}
    {e : SettingsError} :
    ofFile path content = .error e ↔
      (∃ cause, content = .error cause ∧ e = .read path cause) ∨
      (∃ text, content = .ok text ∧ (Json.parse? text).bind ofJson? = none ∧
        e = .parse path) ∨
      ∃ text s, content = .ok text ∧ (Json.parse? text).bind ofJson? = some s ∧
        s.validate = .error e := by
  unfold ofFile
  cases content with
  | error cause => simp [eq_comm]
  | ok text =>
      dsimp only
      cases hheld : (Json.parse? text).bind ofJson? with
      | none =>
          simp only [Except.ok.injEq, Except.error.injEq]
          constructor
          · rintro rfl
            exact .inr (.inl ⟨text, rfl, hheld, rfl⟩)
          · rintro (⟨_, ⟨⟩, -⟩ | ⟨_, rfl, -, rfl⟩ | ⟨_, s, rfl, hheld', -⟩)
            · rfl
            · rw [hheld] at hheld'
              cases hheld'
      | some s =>
          simp only [except_map_eq_error, Except.ok.injEq]
          constructor
          · intro hdefect
            exact .inr (.inr ⟨text, s, rfl, hheld, hdefect⟩)
          · rintro (⟨_, ⟨⟩, -⟩ | ⟨_, rfl, hheld', -⟩ | ⟨_, s', rfl, hheld', hdefect⟩)
            · rw [hheld] at hheld'
              cases hheld'
            · rw [hheld] at hheld'
              cases hheld'
              exact hdefect

end Settings

/-! ## Outcomes -/

namespace CommandLine

/-- The settings that a command line begins with, before any check: the defaults, or what
the text of its file says. -/
def Begins (c : CommandLine) (files : String → Except String String) (base : Settings) : Prop :=
  match c.config with
  | none => base = {}
  | some path =>
    ∃ text, files path = .ok text ∧ (Json.parse? text).bind Settings.ofJson? = some base

/-- Why a command line comes to no settings: its file cannot be read, or holds none, or what
it begins with is not usable, or one of its own names is unknown. -/
inductive Refused (c : CommandLine) (files : String → Except String String) :
    SettingsError → Prop
  | unread {path cause : String} (config : c.config = some path)
      (content : files path = .error cause) : Refused c files (.read path cause)
  | unparsed {path text : String} (config : c.config = some path)
      (content : files path = .ok text)
      (nothing : (Json.parse? text).bind Settings.ofJson? = none) : Refused c files (.parse path)
  | unusable {base : Settings} {e : SettingsError} (begins : c.Begins files base)
      (defect : base.validate = .error e) : Refused c files e
  | unknown {base : Settings} {name : String} (begins : c.Begins files base)
      (usable : base.validate = .ok ()) (first : FirstUnknown c.opcodes name) :
      Refused c files (.unknownOpcode name)

variable {c : CommandLine} {files : String → Except String String}

/-- What a command line begins with gets on if it is usable. -/
theorem base_eq_ok_iff {base : Settings} :
    c.base files = .ok base ↔ c.Begins files base ∧ base.validate = .ok () := by
  unfold CommandLine.base Begins
  cases c.config with
  | none =>
      constructor
      · rintro ⟨⟩
        exact ⟨rfl, Settings.validate_default⟩
      · rintro ⟨rfl, -⟩
        rfl
  | some path =>
      dsimp only
      rw [Settings.ofFile_eq_ok_iff]
      constructor
      · rintro ⟨text, hcontent, hheld, hvalid⟩
        exact ⟨⟨text, hcontent, hheld⟩, hvalid⟩
      · rintro ⟨⟨text, hcontent, hheld⟩, hvalid⟩
        exact ⟨text, hcontent, hheld, hvalid⟩

/-- What goes wrong before the command line's own names count is a reason to refuse it. -/
theorem refused_of_base {e : SettingsError} (h : c.base files = .error e) :
    c.Refused files e := by
  unfold CommandLine.base at h
  cases hconfig : c.config with
  | none =>
      rw [hconfig] at h
      cases h
  | some path =>
      rw [hconfig] at h
      rcases Settings.ofFile_eq_error_iff.mp h with
        ⟨cause, hcontent, rfl⟩ | ⟨text, hcontent, hnothing, rfl⟩ |
        ⟨text, s, hcontent, hheld, hdefect⟩
      · exact .unread hconfig hcontent
      · exact .unparsed hconfig hcontent hnothing
      · have hbegins : c.Begins files s := by
          rw [Begins, hconfig]
          exact ⟨text, hcontent, hheld⟩
        exact .unusable hbegins hdefect

theorem override_eq_ok_iff {base s : Settings} (usable : base.validate = .ok ()) :
    c.override base = .ok s ↔ s = base.naming (c.mnemonics base) ∧ s.validate = .ok () := by
  unfold override mnemonics
  by_cases hnone : c.opcodes = []
  · rw [if_pos (List.isEmpty_iff.mpr hnone), if_pos hnone]
    constructor
    · rintro ⟨⟩
      exact ⟨rfl, usable⟩
    · rintro ⟨rfl, -⟩
      rfl
  · rw [if_neg (mt List.isEmpty_iff.mp hnone), if_neg hnone]
    simp only [except_map_eq_ok]
    constructor
    · rintro ⟨_, hvalid, rfl⟩
      exact ⟨rfl, hvalid⟩
    · rintro ⟨rfl, hvalid⟩
      exact ⟨(), hvalid, rfl⟩

theorem override_eq_error_iff {base : Settings} (usable : base.validate = .ok ())
    {e : SettingsError} :
    c.override base = .error e ↔
      ∃ name, e = .unknownOpcode name ∧ FirstUnknown c.opcodes name := by
  have hcheck := Settings.validate_naming_of_usable usable c.opcodes
  unfold override
  by_cases hnone : c.opcodes = []
  · rw [if_pos (List.isEmpty_iff.mpr hnone), hnone]
    exact iff_of_false nofun fun ⟨_, _, hfirst⟩ => not_firstUnknown_nil hfirst
  · rw [if_neg (mt List.isEmpty_iff.mp hnone)]
    show ((base.naming c.opcodes).validate.map fun _ => base.naming c.opcodes) = .error e ↔ _
    rw [except_map_eq_error, hcheck, except_map_eq_error]
    exact RunSettings.selected_eq_error_iff

theorem accepted_eq_ok_iff_usable {s : Settings} :
    c.accepted files = .ok s ↔
      ∃ base, c.Begins files base ∧ base.validate = .ok () ∧
        s = base.naming (c.mnemonics base) ∧ s.validate = .ok () := by
  rw [accepted_eq_ok_iff]
  constructor
  · rintro ⟨base, hbase, hoverride⟩
    obtain ⟨hbegins, usable⟩ := base_eq_ok_iff.mp hbase
    exact ⟨base, hbegins, usable, (override_eq_ok_iff usable).mp hoverride⟩
  · rintro ⟨base, hbegins, usable, hs⟩
    exact ⟨base, base_eq_ok_iff.mpr ⟨hbegins, usable⟩, (override_eq_ok_iff usable).mpr hs⟩

/-- There are no other reasons to refuse a command line, and each of them is one. -/
theorem accepted_eq_error_iff {e : SettingsError} :
    c.accepted files = .error e ↔ c.Refused files e := by
  unfold accepted
  rw [except_bind_eq_error]
  constructor
  · rintro (hbase | ⟨base, hbase, hoverride⟩)
    · exact refused_of_base hbase
    · obtain ⟨hbegins, usable⟩ := base_eq_ok_iff.mp hbase
      obtain ⟨name, rfl, hfirst⟩ := (override_eq_error_iff usable).mp hoverride
      exact .unknown hbegins usable hfirst
  · intro h
    cases h with
    | unread config content =>
        refine .inl ?_
        rw [CommandLine.base, config]
        exact Settings.ofFile_eq_error_iff.mpr (.inl ⟨_, content, rfl⟩)
    | unparsed config content nothing =>
        refine .inl ?_
        rw [CommandLine.base, config]
        exact Settings.ofFile_eq_error_iff.mpr (.inr (.inl ⟨_, content, nothing, rfl⟩))
    | unusable begins defect =>
        refine .inl ?_
        unfold Begins at begins
        unfold CommandLine.base
        cases hconfig : c.config with
        | none =>
            rw [hconfig] at begins
            rw [begins, Settings.validate_default] at defect
            cases defect
        | some path =>
            rw [hconfig] at begins
            obtain ⟨text, hcontent, hheld⟩ := begins
            exact Settings.ofFile_eq_error_iff.mpr
              (.inr (.inr ⟨text, _, hcontent, hheld, defect⟩))
    | unknown begins usable first =>
        exact .inr ⟨_, base_eq_ok_iff.mpr ⟨begins, usable⟩,
          (override_eq_error_iff usable).mpr ⟨_, rfl, first⟩⟩

/-- **Accepted settings.** Whatever the command line and the files at hand, the settings
that are accepted are usable; they are those to begin with, but for the names of opcodes if
the command line has any; and the opcodes that the program goes on with are selected by
them, are the rows that the names name, and are never none. All else is refused, for the
first of the reasons in their order, and an unknown opcode that is reported is the first one
of the list that is checked: that of the file or, if all is well with the file, that of the
command line. -/
theorem settings_accepted (c : CommandLine) (r : Rehearsal) :
    let loaded := (Dialogue.run Rehearsal.answer (Program.settings c) r).1
    (∀ s, loaded = .ok s →
      s.validate = .ok () ∧
      (∃ base, c.Begins r.files base ∧
        s = base.naming (if c.opcodes = [] then base.run.opcodes else c.opcodes)) ∧
      s.run.selected = .ok (Program.selection s) ∧
      (if s.run.opcodes = [] then Program.selection s = Opcode.table
        else List.Forall₂ Opcode.Named s.run.opcodes (Program.selection s)) ∧
      Program.selection s ≠ []) ∧
    (∀ e, loaded = .error e ↔ c.Refused r.files e) ∧
    ∀ name, loaded = .error (.unknownOpcode name) → ∃ base, c.Begins r.files base ∧
      (FirstUnknown base.run.opcodes name ∨
        base.validate = .ok () ∧ FirstUnknown c.opcodes name) := by
  intro loaded
  have hloaded : loaded = c.accepted r.files :=
    congrArg Prod.fst (Rehearsal.run_settings (fun _ _ _ => rfl) c r)
  rw [hloaded]
  refine ⟨fun s hs => ?_, fun e => accepted_eq_error_iff, fun name hname => ?_⟩
  · obtain ⟨base, hbegins, -, hnaming, hvalid⟩ := accepted_eq_ok_iff_usable.mp hs
    obtain ⟨opcodes, hselected⟩ := Settings.selected_of_validate hvalid
    have hselects := (s.run.selected_eq_ok_iff opcodes).mp hselected
    have hselection : Program.selection s = opcodes := by rw [Program.selection, hselected]
    rw [hselection]
    exact ⟨hvalid, ⟨base, hbegins, hnaming⟩, hselected, selects_iff_names.mp hselects,
      ne_nil_of_selects hselects⟩
  · cases accepted_eq_error_iff.mp hname with
    | unusable begins defect =>
        exact ⟨_, begins, .inl (Settings.firstUnknown_of_validate defect)⟩
    | unknown begins usable first => exact ⟨_, begins, .inr ⟨usable, first⟩⟩

end CommandLine

end AvrConformance
