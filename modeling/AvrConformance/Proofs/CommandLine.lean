import AvrConformance.CommandLine

/-!
# Command lines

A command line is read in turns: a turn takes an option for the configuration file together
with the path behind it, and any other word alone (`taken`). So only some of the words come
**in turn** (`InTurn`): a path never does, whatever it looks like, and is no option and no
mnemonic then (`InTurn.not_path`).

A command line is accepted exactly if it is paths, each behind its option, among mnemonics
(`Interleaves`), and it says the last path and the mnemonics in their order
(`parseFrom_eq_ok_iff`). Of all others the first word in turn that does not fit is reported
(`parseFrom_eq_error_iff`, by the turns of the reading). Both together are
`CommandLine.parse_tells`.
-/

namespace AvrConformance.CommandLine

/-! ## Words -/

/-- The word is the option for the configuration file. -/
def FileOption (word : String) : Prop := word = "-c" ∨ word = "--config"

/-- The word asks for the usage. -/
def HelpOption (word : String) : Prop := word = "-h" ∨ word = "--help"

/-- The word begins as an option does. -/
def Dashed (word : String) : Prop := ∃ rest, word.toList = '-' :: rest

instance (word : String) : Decidable (FileOption word) := inferInstanceAs (Decidable (_ ∨ _))

theorem isConfigOption_iff {word : String} : isConfigOption word = true ↔ FileOption word := by
  simp [isConfigOption, FileOption]

theorem isHelpOption_iff {word : String} : isHelpOption word = true ↔ HelpOption word := by
  simp [isHelpOption, HelpOption]

theorem isOption_iff {word : String} : isOption word = true ↔ Dashed word := by
  rw [isOption, beq_iff_eq, List.head?_eq_some_iff, Dashed]

theorem FileOption.dashed {word : String} (h : FileOption word) : Dashed word := by
  apply isOption_iff.mp
  rcases h with rfl | rfl <;> rfl

theorem HelpOption.dashed {word : String} (h : HelpOption word) : Dashed word := by
  apply isOption_iff.mp
  rcases h with rfl | rfl <;> rfl

theorem HelpOption.not_fileOption {word : String} (h : HelpOption word) : ¬ FileOption word := by
  rcases h with rfl | rfl <;> decide

/-! ## What is accepted -/

/-- The words are these paths, each behind an option for it, among these mnemonics, all in
their order. -/
inductive Interleaves : List String → List String → List String → Prop
  | nil : Interleaves [] [] []
  | file {option path : String} {paths names words : List String} (spelled : FileOption option)
      (others : Interleaves paths names words) :
      Interleaves (path :: paths) names (option :: path :: words)
  | mnemonic {name : String} {paths names words : List String} (plain : ¬ Dashed name)
      (others : Interleaves paths names words) :
      Interleaves paths (name :: names) (name :: words)

theorem interleaves_nil_iff {paths names : List String} :
    Interleaves paths names [] ↔ paths = [] ∧ names = [] := by
  constructor
  · rintro ⟨⟩
    exact ⟨rfl, rfl⟩
  · rintro ⟨rfl, rfl⟩
    exact .nil

theorem interleaves_file_iff {option path : String} {paths names words : List String}
    (h : FileOption option) :
    Interleaves paths names (option :: path :: words) ↔
      ∃ others, paths = path :: others ∧ Interleaves others names words := by
  constructor
  · intro hwords
    cases hwords with
    | file _ others => exact ⟨_, rfl, others⟩
    | mnemonic plain _ => exact absurd h.dashed plain
  · rintro ⟨others, rfl, hothers⟩
    exact .file h hothers

theorem interleaves_mnemonic_iff {name : String} {paths names words : List String}
    (h : ¬ Dashed name) :
    Interleaves paths names (name :: words) ↔
      ∃ others, names = name :: others ∧ Interleaves paths others words := by
  constructor
  · intro hwords
    cases hwords with
    | file spelled _ => exact absurd spelled.dashed h
    | mnemonic _ others => exact ⟨_, rfl, others⟩
  · rintro ⟨others, rfl, hothers⟩
    exact .mnemonic h hothers

/-- An option without a path has no place among mnemonics and paths. -/
theorem not_interleaves_single {option : String} {paths names : List String}
    (h : FileOption option) : ¬ Interleaves paths names [option] := by
  intro hwords
  cases hwords with
  | mnemonic plain _ => exact plain h.dashed

/-- Nor has any other option. -/
theorem not_interleaves_option {option : String} {paths names words : List String}
    (h : Dashed option) (hother : ¬ FileOption option) :
    ¬ Interleaves paths names (option :: words) := by
  intro hwords
  cases hwords with
  | file spelled _ => exact hother spelled
  | mnemonic plain _ => exact plain h

/-- An element in front is the last one only if there is no other. -/
theorem getLast?_cons_or {α : Type} (a : α) (l : List α) (other : Option α) :
    (a :: l).getLast?.or other = l.getLast?.or (some a) := by
  rw [List.getLast?_cons]
  cases l.getLast? <;> rfl

/-- What is read so far is kept, but for the path, which the last one replaces. -/
theorem parseFrom_eq_ok_iff {soFar c : CommandLine} {words : List String} :
    parseFrom soFar words = .ok c ↔
      ∃ paths names, Interleaves paths names words ∧
        c = ⟨paths.getLast?.or soFar.config, soFar.opcodes ++ names⟩ := by
  fun_induction parseFrom soFar words with
  | case1 soFar =>
      simp only [interleaves_nil_iff, Except.ok.injEq]
      constructor
      · rintro rfl
        exact ⟨[], [], ⟨rfl, rfl⟩, by simp⟩
      · rintro ⟨paths, names, ⟨rfl, rfl⟩, rfl⟩
        simp
  | case2 soFar option hfile =>
      refine iff_of_false nofun ?_
      rintro ⟨paths, names, hwords, -⟩
      exact not_interleaves_single (isConfigOption_iff.mp hfile) hwords
  | case3 soFar option hfile path rest ih =>
      simp only [ih, interleaves_file_iff (isConfigOption_iff.mp hfile)]
      constructor
      · rintro ⟨paths, names, hwords, rfl⟩
        exact ⟨path :: paths, names, ⟨paths, rfl, hwords⟩, by rw [getLast?_cons_or]⟩
      · rintro ⟨_, names, ⟨paths, rfl, hwords⟩, rfl⟩
        exact ⟨paths, names, hwords, by rw [getLast?_cons_or]⟩
  | case4 soFar word rest hfile hhelp =>
      refine iff_of_false nofun ?_
      rintro ⟨paths, names, hwords, -⟩
      have hword := isHelpOption_iff.mp hhelp
      exact not_interleaves_option hword.dashed hword.not_fileOption hwords
  | case5 soFar word rest hfile _ hoption =>
      refine iff_of_false nofun ?_
      rintro ⟨paths, names, hwords, -⟩
      exact not_interleaves_option (isOption_iff.mp hoption) (mt isConfigOption_iff.mpr hfile)
        hwords
  | case6 soFar name rest _ _ hplain ih =>
      simp only [ih, interleaves_mnemonic_iff (mt isOption_iff.mpr hplain)]
      constructor
      · rintro ⟨paths, names, hwords, rfl⟩
        exact ⟨paths, name :: names, ⟨names, rfl, hwords⟩, by simp⟩
      · rintro ⟨paths, _, ⟨names, rfl, hwords⟩, rfl⟩
        exact ⟨paths, names, hwords, by simp⟩

/-! ## Turns -/

/-- How many words a turn takes that begins with this one. -/
def taken (word : String) : Nat := if FileOption word then 2 else 1

theorem taken_pos (word : String) : 0 < taken word := by
  unfold taken
  split <;> decide

/-- The places of the words with which turns begin, up to the end of the line. -/
inductive InTurn (words : List String) : Nat → Prop
  | start : InTurn words 0
  | next {k : Nat} {word : String} (turn : InTurn words k) (here : words[k]? = some word) :
      InTurn words (k + taken word)

/-- Turns go on behind a place in turn as if the words in front of it were left off. -/
theorem InTurn.add {words : List String} {k n : Nat} (h : InTurn words k)
    (hmore : InTurn (words.drop k) n) : InTurn words (k + n) := by
  induction hmore with
  | start => exact h
  | @next j word turn here ih =>
      rw [List.getElem?_drop] at here
      rw [← Nat.add_assoc]
      exact .next ih here

/-- All places but the first come in turn behind what the first turn takes. -/
theorem inTurn_cons_iff {word : String} {rest : List String} {n : Nat} :
    InTurn (word :: rest) n ↔
      n = 0 ∨ ∃ k, n = taken word + k ∧ InTurn ((word :: rest).drop (taken word)) k := by
  constructor
  · intro h
    induction h with
    | start => exact .inl rfl
    | @next k later turn here ih =>
        right
        rcases ih with rfl | ⟨j, rfl, hj⟩
        · -- the turn is the first one
          cases here
          exact ⟨0, by rw [Nat.zero_add, Nat.add_zero], .start⟩
        · refine ⟨j + taken later, Nat.add_assoc .., .next hj ?_⟩
          rw [List.getElem?_drop]
          exact here
  · rintro (rfl | ⟨k, rfl, hk⟩)
    · exact .start
    · have hfirst : InTurn (word :: rest) (0 + taken word) := .next .start rfl
      rw [Nat.zero_add] at hfirst
      exact hfirst.add hk

/-- Behind a place in turn there are no other turns. -/
theorem InTurn.add_iff {words : List String} {k n : Nat} (h : InTurn words k) :
    InTurn words (k + n) ↔ InTurn (words.drop k) n := by
  refine ⟨?_, h.add⟩
  induction h generalizing n with
  | start =>
      rw [Nat.zero_add, List.drop_zero]
      exact id
  | @next k word turn here ih =>
      intro hturn
      obtain ⟨hk, hword⟩ := List.getElem?_eq_some_iff.mp here
      have hsplit : words.drop k = word :: words.drop (k + 1) := by
        rw [List.drop_eq_getElem_cons hk, hword]
      rw [Nat.add_assoc] at hturn
      have hrest := ih hturn
      rw [hsplit, inTurn_cons_iff] at hrest
      rcases hrest with hnone | ⟨j, hj, hlater⟩
      · have htaken := taken_pos word
        omega
      · rwa [Nat.add_left_cancel hj, ← List.drop_drop, hsplit]

/-- A path behind its option does not come in turn. -/
theorem InTurn.not_path {words : List String} {k : Nat} {option : String} (h : InTurn words k)
    (here : words[k]? = some option) (hoption : FileOption option) : ¬ InTurn words (k + 1) := by
  obtain ⟨hk, hword⟩ := List.getElem?_eq_some_iff.mp here
  rw [h.add_iff, List.drop_eq_getElem_cons hk, hword, inTurn_cons_iff, taken, if_pos hoption]
  rintro (hnone | ⟨j, hj, -⟩) <;> omega

/-! ## What is reported -/

/-- What is wrong with a word that comes in turn, perhaps as the last of the line, and what is
said of it. -/
inductive Objection (word : String) (final : Prop) : UsageError → String → Prop
  | help (asked : HelpOption word) :
      Objection word final .help "usage: avr-oracle [--config FILE] [MNEMONIC ...]"
  | unknown (dashed : Dashed word) (noFile : ¬ FileOption word) (noHelp : ¬ HelpOption word) :
      Objection word final (.unknownOption word) ("unknown option " ++ word)
  | missing (option : FileOption word) (nothing : final) :
      Objection word final .missingFile "--config needs a file"

/-- The word at this place is an offence where it comes in turn. -/
def Offends (words : List String) (k : Nat) (e : UsageError) (text : String) : Prop :=
  ∃ word, words[k]? = some word ∧ Objection word (words.length = k + 1) e text

/-- The first offence among the words in turn is this one. -/
def FirstOffence (words : List String) (e : UsageError) : Prop :=
  ∃ k, InTurn words k ∧ Offends words k e e.message ∧
    ∀ j < k, InTurn words j → ∀ other text, ¬ Offends words j other text

/-- There is one thing at most to be said against a word. -/
theorem Objection.unique {word : String} {final : Prop} {e e' : UsageError} {text text' : String}
    (h : Objection word final e text) (h' : Objection word final e' text') : e = e' := by
  cases h with
  | help asked =>
      cases h' with
      | help => rfl
      | unknown _ _ noHelp => exact absurd asked noHelp
      | missing option _ => exact absurd option asked.not_fileOption
  | unknown _ noFile noHelp =>
      cases h' with
      | help asked => exact absurd asked noHelp
      | unknown => rfl
      | missing option _ => exact absurd option noFile
  | missing option _ =>
      cases h' with
      | help asked => exact absurd option asked.not_fileOption
      | unknown _ noFile _ => exact absurd option noFile
      | missing => rfl

theorem offends_zero_iff {word : String} {rest : List String} {e : UsageError} {text : String} :
    Offends (word :: rest) 0 e text ↔ Objection word (rest = []) e text := by
  simp [Offends]

/-- A word offends wherever the words in front of it are left off. -/
theorem offends_drop_iff {words : List String} {n k : Nat} {e : UsageError} {text : String} :
    Offends (words.drop n) k e text ↔ Offends words (n + k) e text := by
  simp only [Offends, List.getElem?_drop, List.length_drop]
  refine exists_congr fun word => and_congr_right fun hword => ?_
  have hlt : n + k < words.length := (List.getElem?_eq_some_iff.mp hword).1
  have hlast : (words.length - n = k + 1) = (words.length = n + k + 1) := by
    apply propext
    omega
  rw [hlast]

theorem not_firstOffence_nil {e : UsageError} : ¬ FirstOffence [] e := by
  rintro ⟨k, -, ⟨word, hword, -⟩, -⟩
  cases hword

/-- The first offence is that of the first word, or else the first one behind what the first
turn takes. -/
theorem firstOffence_cons_iff {word : String} {rest : List String} {e : UsageError} :
    FirstOffence (word :: rest) e ↔
      Objection word (rest = []) e e.message ∨
        (∀ other text, ¬ Objection word (rest = []) other text) ∧
          FirstOffence ((word :: rest).drop (taken word)) e := by
  simp only [← offends_zero_iff]
  constructor
  · rintro ⟨k, hk, hoffence, hleast⟩
    rcases inTurn_cons_iff.mp hk with rfl | ⟨j, rfl, hj⟩
    · exact .inl hoffence
    · have htaken := taken_pos word
      refine .inr ⟨hleast 0 (by omega) .start, j, hj, offends_drop_iff.mpr hoffence, ?_⟩
      intro i hi hturn other text hearlier
      exact hleast (taken word + i) (by omega) (inTurn_cons_iff.mpr (.inr ⟨i, rfl, hturn⟩)) other
        text (offends_drop_iff.mp hearlier)
  · rintro (hoffence | ⟨hfirst, k, hk, hoffence, hleast⟩)
    · exact ⟨0, .start, hoffence, fun j hj => absurd hj (Nat.not_lt_zero j)⟩
    · refine ⟨taken word + k, inTurn_cons_iff.mpr (.inr ⟨k, rfl, hk⟩),
        offends_drop_iff.mp hoffence, ?_⟩
      intro j hj hturn other text hearlier
      rcases inTurn_cons_iff.mp hturn with rfl | ⟨i, rfl, hi⟩
      · exact hfirst other text hearlier
      · exact hleast i (by omega) hi other text (offends_drop_iff.mpr hearlier)

/-- If the first word is an offence, no other one is reported. -/
theorem firstOffence_iff_of_objection {word : String} {rest : List String} {e e' : UsageError}
    (h : Objection word (rest = []) e e.message) :
    e = e' ↔ FirstOffence (word :: rest) e' := by
  rw [firstOffence_cons_iff]
  constructor
  · rintro rfl
    exact .inl h
  · rintro (h' | ⟨hnone, -⟩)
    · exact h.unique h'
    · exact absurd h (hnone _ _)

/-- If it is none, the report is about the words that its turn leaves. -/
theorem firstOffence_iff_of_not_objection {word : String} {rest : List String} {e : UsageError}
    (h : ∀ other text, ¬ Objection word (rest = []) other text) :
    FirstOffence ((word :: rest).drop (taken word)) e ↔ FirstOffence (word :: rest) e := by
  rw [firstOffence_cons_iff]
  constructor
  · exact fun hrest => .inr ⟨h, hrest⟩
  · rintro (hfirst | ⟨-, hrest⟩)
    · exact absurd hfirst (h _ _)
    · exact hrest

/-- A line that is not accepted is refused for its first offence. -/
theorem parseFrom_eq_error_iff {soFar : CommandLine} {words : List String} {e : UsageError} :
    parseFrom soFar words = .error e ↔ FirstOffence words e := by
  fun_induction parseFrom soFar words with
  | case1 soFar => exact iff_of_false nofun not_firstOffence_nil
  | case2 soFar option hfile =>
      rw [Except.error.injEq]
      exact firstOffence_iff_of_objection (.missing (isConfigOption_iff.mp hfile) rfl)
  | case3 soFar option hfile path rest ih =>
      have hoption := isConfigOption_iff.mp hfile
      have htaken : taken option = 2 := if_pos hoption
      rw [ih, ← firstOffence_iff_of_not_objection, htaken]
      · rfl
      · intro other text hobjection
        cases hobjection with
        | help asked => exact asked.not_fileOption hoption
        | unknown _ noFile _ => exact noFile hoption
        | missing _ nothing => cases nothing
  | case4 soFar word rest _ hhelp =>
      rw [Except.error.injEq]
      exact firstOffence_iff_of_objection (.help (isHelpOption_iff.mp hhelp))
  | case5 soFar word rest hfile hhelp hoption =>
      rw [Except.error.injEq]
      exact firstOffence_iff_of_objection (.unknown (isOption_iff.mp hoption)
        (mt isConfigOption_iff.mpr hfile) (mt isHelpOption_iff.mpr hhelp))
  | case6 soFar name rest hfile _ hplain ih =>
      have hname : ¬ Dashed name := mt isOption_iff.mpr hplain
      have htaken : taken name = 1 := if_neg (mt isConfigOption_iff.mpr hfile)
      rw [ih, ← firstOffence_iff_of_not_objection, htaken]
      · rfl
      · intro other text hobjection
        cases hobjection with
        | help asked => exact hname asked.dashed
        | unknown dashed _ _ => exact hname dashed
        | missing option _ => exact hname option.dashed

/-- **The command line.** A line is accepted exactly if it is paths, each behind its option,
among mnemonics that do not begin as options do; a path may be any word. It says the last of
the paths, if there is one, and the mnemonics in their order. Any other line is refused for
the first word in turn that is an offence: one that asks for the usage, an unknown option, or
an option for the configuration file with nothing behind it. A path never comes in turn, and
so it is never taken for an option or a mnemonic. -/
theorem parse_tells (words : List String) :
    (∀ c, parse words = .ok c ↔
      ∃ paths, Interleaves paths c.opcodes words ∧ c.config = paths.getLast?) ∧
    (∀ e, parse words = .error e ↔
      ∃ k, InTurn words k ∧ Offends words k e e.message ∧
        ∀ j < k, InTurn words j → ∀ other text, ¬ Offends words j other text) ∧
    ∀ k option, InTurn words k → words[k]? = some option → FileOption option →
      ¬ InTurn words (k + 1) := by
  refine ⟨fun c => ?_, fun e => parseFrom_eq_error_iff,
    fun k option hturn here hoption => hturn.not_path here hoption⟩
  rw [parse, parseFrom_eq_ok_iff]
  constructor
  · rintro ⟨paths, names, hwords, rfl⟩
    exact ⟨paths, hwords, Option.or_none⟩
  · rintro ⟨paths, hwords, hconfig⟩
    refine ⟨paths, c.opcodes, hwords, ?_⟩
    rw [Option.or_none, ← hconfig]
    rfl

/-- What asks for the usage elsewhere is a path here, and so is the option for a path. -/
example : parse ["COM", "-c", "--help", "-c", "-c", "neg"] = .ok ⟨some "-c", ["COM", "neg"]⟩ :=
  rfl

end AvrConformance.CommandLine
