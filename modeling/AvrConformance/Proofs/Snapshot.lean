import AvrConformance.Snapshot

/-!
# Laws of register snapshots

A snapshot is read and written register by register. The laws here are those of
a register file:

* **reading back**: a write is read back cut to the register's width
  (`get_set_self`), and no other register moves (`get_set_of_ne`);
* **extensionality**: the 35 registers of `Reg.all` determine the snapshot
  (`eq_of_get_eq`), so that a comparison which visits each of them misses nothing;
* **differences**: `diff` lists the registers that differ, each once and in
  numbering order, and copying those registers over makes the two snapshots equal
  (`copy_diff`).
-/

namespace AvrConformance

namespace Reg

/-- The part of a value that fits into a register. -/
def cut : Reg → UInt32 → UInt32
  | r _, value => value.toUInt8.toUInt32
  | sreg, value => value.toUInt8.toUInt32
  | sp, value => value.toUInt16.toUInt32
  | pc, value => value

/-- The numbering lists exactly the registers that a snapshot has. -/
theorem mem_all {reg : Reg} : reg ∈ all ↔ reg.inSnapshot = true := by
  cases reg with
  | r n =>
      simp only [all, List.mem_append, List.mem_map, List.mem_range, inSnapshot,
        workingRegisters, decide_eq_true_eq, UInt8.lt_iff_toNat_lt]
      -- a working register is among the others only by its number
      constructor
      · rintro (⟨k, hk, heq⟩ | h)
        · injection heq with heq
          subst heq
          rw [UInt8.toNat_ofNat']
          show k % 256 < 32
          omega
        · simp at h
      · intro h
        exact .inl ⟨n.toNat, h, by rw [UInt8.ofNat_toNat]⟩
  | sreg => simp [all, inSnapshot]
  | sp => simp [all, inSnapshot]
  | pc => simp [all, inSnapshot]

/-- The numbering goes up along the list of all registers. -/
theorem pairwise_number_all : all.Pairwise fun a b => a.number < b.number := by
  decide

end Reg

namespace Snapshot

/-- A value read back fits into its register. -/
theorem cut_get (s : Snapshot) (reg : Reg) : reg.cut (s.get reg) = s.get reg := by
  cases reg with
  | r n =>
      simp only [get, Reg.cut]
      split
      · rw [UInt8.toUInt8_toUInt32]
      · rfl
  | sreg => simp [get, Reg.cut]
  | sp => simp [get, Reg.cut]
  | pc => rfl

/-- A write is read back, cut to the register's width. -/
theorem get_set_self (s : Snapshot) {reg : Reg} (h : reg.inSnapshot = true) (value : UInt32) :
    (s.set reg value).get reg = reg.cut value := by
  cases reg with
  | r n =>
      have hn : n.toNat < 32 := UInt8.lt_iff_toNat_lt.mp (by simpa [Reg.inSnapshot] using h)
      simp [set, get, hn, Reg.cut]
  | sreg => rfl
  | sp => rfl
  | pc => rfl

/-- A write leaves every other register alone. -/
theorem get_set_of_ne (s : Snapshot) {a b : Reg} (h : a ≠ b) (value : UInt32) :
    (s.set a value).get b = s.get b := by
  cases a with
  | r n =>
      by_cases hn : n.toNat < 32
      · cases b with
        | r m =>
            have hne : n.toNat ≠ m.toNat := fun he => h (by rw [UInt8.toNat_inj.mp he])
            simp only [set, get, dif_pos hn]
            split
            · rw [Vector.getElem_set_ne _ _ hne]
            · rfl
        | sreg => simp [set, get, hn]
        | sp => simp [set, get, hn]
        | pc => simp [set, get, hn]
      · simp [set, hn]
  | sreg => cases b <;> first | rfl | exact absurd rfl h
  | sp => cases b <;> first | rfl | exact absurd rfl h
  | pc => cases b <;> first | rfl | exact absurd rfl h

/-- Snapshots that agree on all 35 registers are the same. -/
theorem eq_of_get_eq {s t : Snapshot} (h : ∀ reg ∈ Reg.all, s.get reg = t.get reg) : s = t := by
  have hsreg : s.sreg = t.sreg := by
    have := h .sreg (Reg.mem_all.mpr rfl)
    exact UInt8.toUInt32_inj.mp this
  have hsp : s.sp = t.sp := by
    have := h .sp (Reg.mem_all.mpr rfl)
    exact UInt16.toUInt32_inj.mp this
  have hpc : s.pc = t.pc := h .pc (Reg.mem_all.mpr rfl)
  have hr : s.r = t.r := by
    apply Vector.ext
    intro n hn
    have hmod : n % 256 = n := Nat.mod_eq_of_lt (by omega)
    have := h (.r (UInt8.ofNat n)) (Reg.mem_all.mpr (by
      simp [Reg.inSnapshot, UInt8.lt_iff_toNat_lt, hmod, hn]))
    simp only [get, UInt8.toNat_ofNat', hmod, hn, dif_pos] at this
    exact UInt8.toUInt32_inj.mp this
  cases s
  cases t
  simp_all

theorem mem_diff {s t : Snapshot} {reg : Reg} :
    reg ∈ s.diff t ↔ reg ∈ Reg.all ∧ s.get reg ≠ t.get reg := by
  simp [diff]

/-- The differences come in numbering order, so none is listed twice. -/
theorem pairwise_number_diff (s t : Snapshot) :
    (s.diff t).Pairwise fun a b => a.number < b.number :=
  Reg.pairwise_number_all.filter _

/-- No difference at all is equality. -/
theorem diff_eq_nil_iff {s t : Snapshot} : s.diff t = [] ↔ s = t := by
  constructor
  · intro h
    apply eq_of_get_eq
    intro reg hreg
    by_cases heq : s.get reg = t.get reg
    · exact heq
    · have : reg ∈ s.diff t := mem_diff.mpr ⟨hreg, heq⟩
      rw [h] at this
      exact absurd this List.not_mem_nil
  · rintro rfl
    simp [diff]

/-- The snapshot with some registers copied from another. -/
def copy (s t : Snapshot) (regs : List Reg) : Snapshot :=
  regs.foldl (fun s reg => s.set reg (t.get reg)) s

/-- A register that is copied reads as in the other snapshot, and one that is
not copied reads as before. -/
theorem get_copy (s t : Snapshot) (regs : List Reg) {reg : Reg} (h : reg.inSnapshot = true) :
    (s.copy t regs).get reg = if reg ∈ regs then t.get reg else s.get reg := by
  -- a register that is copied twice is copied from the same place, so the order of the
  -- list does not matter
  induction regs generalizing s with
  | nil => simp [copy]
  | cons first rest ih =>
      have hstep : s.copy t (first :: rest) = (s.set first (t.get first)).copy t rest := rfl
      rw [hstep, ih]
      by_cases hrest : reg ∈ rest
      · simp [hrest]
      · by_cases hfirst : first = reg
        · subst hfirst
          simp [hrest, get_set_self s h, cut_get]
        · have hne : reg ≠ first := fun he => hfirst he.symm
          simp [hrest, hne, get_set_of_ne s hfirst]

/-- Copying the registers that differ leaves no difference. -/
theorem copy_diff (s t : Snapshot) : s.copy t (s.diff t) = t := by
  apply eq_of_get_eq
  intro reg hreg
  rw [get_copy s t _ (Reg.mem_all.mp hreg)]
  by_cases hdiff : s.get reg = t.get reg
  · simp [hdiff]
  · rw [if_pos (mem_diff.mpr ⟨hreg, hdiff⟩)]

end Snapshot

end AvrConformance
