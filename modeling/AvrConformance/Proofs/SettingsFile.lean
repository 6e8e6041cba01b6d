import Mathlib.Data.List.Basic
import Mathlib.Data.List.Nodup
import AvrConformance.Settings.Record
import AvrConformance.Proofs.Json

/-!
# What a settings file says

A file of settings may say as much or as little as it likes. Here the settings that come out
are told from what is written in it:

* **fields**: each type of field is read as it is written, and a field that is not there has
  its default (`Json.Reads` and the lemmas under it, `Json.orElse_of_read`);
* **records**: the fields of a record are found wherever they stand and whatever stands
  between them (`Json.fields?_of_rearranges`);
* **files**: settings are read back from what is written of them, and if some are left out,
  they and no others have their defaults (`Settings.read_back`).

A name is a text. A member whose key is malformed Unicode has none, so that it is no field,
known or unknown.
-/

namespace AvrConformance

namespace Json

/-! ## Reading what is written -/

/-- The reader gives back what the writer was given. -/
def Reads (read : Json → Option α) (write : α → Json) : Prop := ∀ a, read (write a) = some a

theorem reads_text : Reads text? text := fun _ => rfl

theorem reads_bool : Reads bool? bool := fun _ => rfl

theorem below?_nat {bound n : Nat} (h : n < bound) : (nat n).below? bound = some n := by
  have hwhole : (Numeral.ofInt n).nat? = some n := by simp [Numeral.nat?, Numeral.ofInt]
  rw [nat, below?, hwhole, Option.filter_some, if_pos (decide_eq_true h)]

/-- A number of a type is below the type's size, and the type's reader converts it back. -/
theorem reads_below {α : Type} {bound : Nat} {ofNat : Nat → α} {toNat : α → Nat}
    (hlt : ∀ a, toNat a < bound) (hback : ∀ a, ofNat (toNat a) = a) :
    Reads (fun j => (j.below? bound).map ofNat) fun a => nat (toNat a) := by
  intro a
  show ((nat (toNat a)).below? bound).map ofNat = some a
  rw [below?_nat (hlt a), Option.map_some, hback]

theorem reads_uint16 : Reads uint16? fun n => nat n.toNat :=
  reads_below UInt16.toNat_lt fun _ => UInt16.ofNat_toNat

theorem reads_uint32 : Reads uint32? fun n => nat n.toNat :=
  reads_below UInt32.toNat_lt fun _ => UInt32.ofNat_toNat

theorem reads_uint64 : Reads uint64? fun n => nat n.toNat :=
  reads_below UInt64.toNat_lt fun _ => UInt64.ofNat_toNat

section

variable {α : Type} {read : Json → Option α} {write : α → Json}

/-- A value that may be missing can be told from none, unless null is written for it. -/
theorem Reads.optional (h : Reads read write) (hnull : ∀ a, write a ≠ .null) :
    Reads (optional? read) (optional write) := by
  rintro (_ | a)
  · rfl
  · have hread : (write a).optional? read = (read (write a)).map some := by
      unfold optional?
      split
      next heq => exact absurd heq (hnull a)
      next => rfl
    rw [Json.optional, hread, h a, Option.map_some]

theorem Reads.list (h : Reads read write) :
    Reads (list? read) fun as => .array (as.map write) := by
  intro as
  show (as.map write).mapM read = some as
  induction as with
  | nil => rfl
  | cons a as ih => simp [h a, ih]

/-- A field that is gone has its default, and another what it reads as. -/
theorem orElse_of_read {j : Json} {value : α} (h : read j = some value) (gone : Prop)
    [Decidable gone] (default : α) :
    orElse read default (if gone then none else some j) =
      some (if gone then default else value) := by
  split
  · rfl
  · exact h

theorem Reads.orElse (h : Reads read write) (gone : Prop) [Decidable gone] (default a : α) :
    Json.orElse read default (if gone then none else some (write a)) =
      some (if gone then default else a) :=
  orElse_of_read (h a) gone default

end

/-! ## Records -/

/-- A field is found if no other has its name. -/
theorem lookup_of_mem {name : String} {value : Json} {row : List (String × Json)}
    (honce : row.countP (fun f => f.1 == name) ≤ 1) (hmem : (name, value) ∈ row) :
    row.lookup name = some value := by
  obtain ⟨before, after, rfl⟩ := List.append_of_mem hmem
  have hbefore : before.countP (fun f => f.1 == name) = 0 := by
    rw [List.countP_append, List.countP_cons_of_pos (by simp)] at honce
    omega
  refine List.lookup_eq_some_iff.mpr ⟨before, after, rfl, fun f hf => ?_⟩
  have hother := List.countP_eq_zero.mp hbefore f hf
  exact bne_iff_ne.mpr fun hname => hother (beq_iff_eq.mpr hname.symm)

theorem lookup_map_some (name : String) (row : List (String × Json)) :
    (row.map fun f => (some f.1, f.2)).lookup (some name) = row.lookup name := by
  induction row with
  | nil => rfl
  | cons f row ih =>
      obtain ⟨key, value⟩ := f
      have hkey : (some name == some key) = (name == key) := rfl
      rw [List.map_cons, List.lookup_cons, List.lookup_cons, ih, hkey]

/-- The fields of an object in which each of them stands at most once. -/
theorem fields?_record {names : List String} {row : List (String × Json)}
    (honce : ∀ name ∈ names, row.countP (fun f => f.1 == name) ≤ 1) :
    (record row).fields? names = some (names.map fun name => row.lookup name) := by
  have hkeys : (row.map fun f => (some f.1, f.2)).all (fun f => f.1.isSome) = true := by simp
  have hcount : names.all (fun name =>
      (row.map fun f => (some f.1, f.2)).countP (fun f => f.1 == some name) ≤ 1) = true := by
    simpa [List.countP_map, Function.comp_def] using honce
  show (if _ then _ else _) = _
  rw [if_pos ⟨hkeys, hcount⟩]
  simp only [lookup_map_some]

/-- The second value is an object with the fields of the first, which is a record, but for
those that are gone, and with any fields that the record does not have; all in any order. -/
def Rearranges (gone : List String) (whole j : Json) : Prop :=
  ∃ fields extra row, whole = .record fields ∧ (∀ f ∈ extra, f.1 ∉ fields.map Prod.fst) ∧
    row.Perm (fields.filter (fun f => f.1 ∉ gone) ++ extra) ∧ j = .record row

section

-- a row of those fields of a record that are left, and of fields that the record does not have
variable {gone : List String} {fields extra row : List (String × Json)}
  (hunknown : ∀ f ∈ extra, f.1 ∉ fields.map Prod.fst)
  (hperm : row.Perm (fields.filter (fun f => f.1 ∉ gone) ++ extra))
include hunknown hperm

/-- What is added has none of the names of the record, so that they stand once at most. -/
theorem countP_le_one (hnodup : (fields.map Prod.fst).Nodup) {name : String}
    (hname : name ∈ fields.map Prod.fst) : row.countP (fun f => f.1 == name) ≤ 1 := by
  have hextra : extra.countP (fun f => f.1 == name) = 0 := by
    refine List.countP_eq_zero.mpr fun f hf hsame => hunknown f hf ?_
    rwa [beq_iff_eq.mp hsame]
  have hleft : (fields.filter fun f => f.1 ∉ gone).countP (fun f => f.1 == name) ≤
      fields.countP (fun f => f.1 == name) := List.filter_sublist.countP_le
  have hfields := List.nodup_iff_count_le_one.mp hnodup name
  rw [List.count, List.countP_map] at hfields
  rw [hperm.countP_eq, List.countP_append, hextra]
  exact Nat.le_trans hleft hfields

theorem lookup_of_gone {f : String × Json} (hf : f ∈ fields) (hgone : f.1 ∈ gone) :
    row.lookup f.1 = none := by
  refine List.lookup_eq_none_iff.mpr fun g hg => bne_iff_ne.mpr fun hsame => ?_
  rcases List.mem_append.mp (hperm.mem_iff.mp hg) with hleft | hextra
  · exact of_decide_eq_true (List.mem_filter.mp hleft).2 (hsame ▸ hgone)
  · exact hunknown g hextra (hsame ▸ List.mem_map_of_mem hf)

theorem lookup_of_left (hnodup : (fields.map Prod.fst).Nodup) {f : String × Json}
    (hf : f ∈ fields) (hleft : f.1 ∉ gone) : row.lookup f.1 = some f.2 := by
  have honce := countP_le_one hunknown hperm hnodup (List.mem_map_of_mem hf)
  have hfilter : f ∈ fields.filter fun f => f.1 ∉ gone :=
    List.mem_filter.mpr ⟨hf, decide_eq_true hleft⟩
  exact lookup_of_mem honce (hperm.mem_iff.mpr (List.mem_append_left extra hfilter))

end

/-- Those fields of a record that are gone are missed, and the others are found. -/
theorem fields?_of_rearranges {gone : List String} {fields : List (String × Json)} {j : Json}
    (h : Rearranges gone (.record fields) j) (names : List String)
    (hnames : fields.map Prod.fst = names) (hnodup : names.Nodup) :
    j.fields? names = some (fields.map fun f => if f.1 ∈ gone then none else some f.2) := by
  subst hnames
  obtain ⟨fields, extra, row, hwhole, hunknown, hperm, rfl⟩ := h
  obtain rfl := record_injective hwhole
  rw [fields?_record fun name => countP_le_one hunknown hperm hnodup, List.map_map]
  refine congrArg some (List.map_congr_left fun f hf => ?_)
  show row.lookup f.1 = _
  split
  next hgone => exact lookup_of_gone hunknown hperm hf hgone
  next hleft => exact lookup_of_left hunknown hperm hnodup hf hleft

theorem rearranges_refl (fields : List (String × Json)) :
    Rearranges [] (.record fields) (.record fields) :=
  ⟨fields, [], fields, rfl, nofun, by simp, rfl⟩

end Json

/-! ## Settings -/

theorem Strategy.reads : Json.Reads ofJson? toJson := by
  rintro (_ | _) <;> rfl

namespace TargetSettings

/-- The settings with the default in the place of those that are gone. -/
def without (gone : List String) (t : TargetSettings) : TargetSettings where
  host := if "host" ∈ gone then ({} : TargetSettings).host else t.host
  port := if "port" ∈ gone then ({} : TargetSettings).port else t.port
  ioTimeoutMs :=
    if "io_timeout_ms" ∈ gone then ({} : TargetSettings).ioTimeoutMs else t.ioTimeoutMs
  noAck := if "no_ack" ∈ gone then ({} : TargetSettings).noAck else t.noAck

theorem ofJson?_of_rearranges {gone : List String} {t : TargetSettings} {j : Json}
    (h : Json.Rearranges gone t.toJson j) : ofJson? j = some (t.without gone) := by
  have hfields := Json.fields?_of_rearranges h fieldNames rfl (by decide)
  have htimeout := Json.reads_uint64.optional (fun n => nofun)
  rw [ofJson?, hfields]
  simp only [List.map_cons, List.map_nil, Json.reads_text.orElse, Json.reads_uint16.orElse,
    htimeout.orElse, Json.reads_bool.orElse]
  rfl

end TargetSettings

namespace RunSettings

/-- The settings with the default in the place of those that are gone. -/
def without (gone : List String) (r : RunSettings) : RunSettings where
  strategy := if "strategy" ∈ gone then ({} : RunSettings).strategy else r.strategy
  resetBetweenCases :=
    if "reset_between_cases" ∈ gone then ({} : RunSettings).resetBetweenCases
    else r.resetBetweenCases
  codeOrigin := if "code_origin" ∈ gone then ({} : RunSettings).codeOrigin else r.codeOrigin
  stackPointer :=
    if "stack_pointer" ∈ gone then ({} : RunSettings).stackPointer else r.stackPointer
  opcodes := if "opcodes" ∈ gone then ({} : RunSettings).opcodes else r.opcodes
  reportPath := if "report_path" ∈ gone then ({} : RunSettings).reportPath else r.reportPath

theorem ofJson?_of_rearranges {gone : List String} {r : RunSettings} {j : Json}
    (h : Json.Rearranges gone r.toJson j) : ofJson? j = some (r.without gone) := by
  have hfields := Json.fields?_of_rearranges h fieldNames rfl (by decide)
  have hopcodes := Json.reads_text.list
  have hreport := Json.reads_text.optional (fun s => nofun)
  rw [ofJson?, hfields]
  simp only [List.map_cons, List.map_nil, Strategy.reads.orElse, Json.reads_bool.orElse,
    Json.reads_uint32.orElse, Json.reads_uint16.orElse, hopcodes.orElse, hreport.orElse]
  rfl

end RunSettings

namespace Settings

/-- The settings that are left out of a file: whole sections, and settings of either. -/
structure Omission where
  sections : List String := []
  target : List String := []
  run : List String := []

/-- The settings with the default in the place of those that are left out. -/
def without (gone : Omission) (s : Settings) : Settings where
  target := if "target" ∈ gone.sections then {} else s.target.without gone.target
  run := if "run" ∈ gone.sections then {} else s.run.without gone.run

/-- The value is what is written of the settings, but for what is left out of it. Both the file
and its sections may have fields that settings do not have, and any order. -/
def Rearranges (gone : Omission) (s : Settings) (j : Json) : Prop :=
  ∃ target run, Json.Rearranges gone.target s.target.toJson target ∧
    Json.Rearranges gone.run s.run.toJson run ∧
    Json.Rearranges gone.sections (.record [("target", target), ("run", run)]) j

theorem ofJson?_of_rearranges {gone : Omission} {s : Settings} {j : Json}
    (h : s.Rearranges gone j) : ofJson? j = some (s.without gone) := by
  obtain ⟨target, run, htarget, hrun, hsections⟩ := h
  have hfields := Json.fields?_of_rearranges hsections fieldNames rfl (by decide)
  rw [ofJson?, hfields]
  have htargetField := Json.orElse_of_read (TargetSettings.ofJson?_of_rearranges htarget)
  have hrunField := Json.orElse_of_read (RunSettings.ofJson?_of_rearranges hrun)
  simp only [List.map_cons, List.map_nil, htargetField, hrunField]
  rfl

theorem rearranges_refl (s : Settings) : s.Rearranges {} s.toJson :=
  ⟨_, _, Json.rearranges_refl _, Json.rearranges_refl _, Json.rearranges_refl _⟩

/-- **Settings are read back, and what is left out has its default.** A file in which settings
are written is read as those settings. If some of them are left out of it, or a section as a
whole, if fields that settings do not have are added with any values, and if fields change
places, then the text is read as the settings with the defaults for just those that are left
out; and every such file has texts. -/
theorem read_back (s : Settings) :
    (∀ layout : Json.Layout, layout.Blank →
      (Json.parse? (s.toJson.render layout)).bind ofJson? = some s) ∧
    ∀ gone j, s.Rearranges gone j →
      (∀ text, Json.parse? text = some j →
        (Json.parse? text).bind ofJson? = some (s.without gone)) ∧
      ∀ layout : Json.Layout, layout.Blank → Json.parse? (j.render layout) = some j := by
  refine ⟨fun layout hlayout => ?_, fun gone j hj => ⟨fun text htext => ?_, fun layout h => ?_⟩⟩
  · rw [Json.parse?_render hlayout]
    exact ofJson?_of_rearranges (rearranges_refl s)
  · rw [htext]
    exact ofJson?_of_rearranges hj
  · exact Json.parse?_render h j

-- a section that is there has the defaults for the rest of its settings
example :
    (Json.parse? "\x7b\"run\":\x7b\"strategy\":\"break_after\",\"seed\":[1e9]\x7d\x7d").bind
      ofJson? = some { run := { strategy := .breakAfter } } := by
  decide

end Settings

end AvrConformance
