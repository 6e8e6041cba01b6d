import Mathlib.Logic.Function.Basic
import Mathlib.Data.Nat.Digits.Defs
import AvrConformance.Timestamp

/-!
# Moments told apart by their text

A date is computed by truncated quotients, and the text of a moment has a year of any length
in front. Still no two moments are written alike:

* **days**: a day is found again from its date (`Date.toDays_ofDays`), since the quotients
  find the century, the cycle of leap years and the year in turn (`Date.LiesIn`);
* **texts**: a number that is filled up with zeros is found again from its digits
  (`Text.decimal_injective`), and all fields behind the year have one width, so that the text
  falls into its fields from the end (`Text.append_inj_of_length`).
-/

namespace AvrConformance

/-! ## Days -/

namespace Date

/-- The days of an era before one of its years. -/
def daysBefore (yearOfEra : Nat) : Nat := 365 * yearOfEra + yearOfEra / 4 - yearOfEra / 100

/-- The year of an era in which one of its days lies. -/
def yearOf (dayOfEra : Nat) : Nat :=
  (dayOfEra - dayOfEra / 1460 + dayOfEra / 36524 - dayOfEra / 146096) / 365

/-- A day of an era lies in a century, a cycle of four years and a year of the cycle. The last
century of an era has a day more than the others, and so has the last year of a cycle. -/
structure LiesIn (day century cycle year rest : Nat) : Prop where
  day_eq : day = 36524 * century + (1461 * cycle + (365 * year + rest))
  century_le : century ≤ 3
  cycle_le : cycle ≤ 24
  inCentury_le : 1461 * cycle + (365 * year + rest) ≤ 36523 + century / 3
  year_le : year ≤ 3
  rest_le : rest ≤ 364 + year / 3

theorem exists_liesIn {day : Nat} (h : day < eraDays) :
    ∃ century cycle year rest, LiesIn day century cycle year rest := by
  have hera : day ≤ 146096 := Nat.le_of_lt_succ h
  obtain ⟨century, inCentury, hcentury, hlast, hday⟩ : ∃ century inCentury,
      century ≤ 3 ∧ inCentury ≤ 36523 + century / 3 ∧ day = 36524 * century + inCentury := by
    by_cases hfourth : day = 146096
    · exact ⟨3, 36524, by omega, by omega, by omega⟩
    · exact ⟨day / 36524, day % 36524, by omega, by omega, by omega⟩
  obtain ⟨year, rest, hyear, hrest, hcycle⟩ : ∃ year rest,
      year ≤ 3 ∧ rest ≤ 364 + year / 3 ∧ inCentury % 1461 = 365 * year + rest := by
    by_cases hfourth : inCentury % 1461 = 1460
    · exact ⟨3, 365, by omega, by omega, by omega⟩
    · exact ⟨inCentury % 1461 / 365, inCentury % 1461 % 365, by omega, by omega, by omega⟩
  exact ⟨century, inCentury / 1461, year, rest, by omega, hcentury, by omega, by omega, hyear,
    hrest⟩

namespace LiesIn

variable {day century cycle year rest : Nat}

theorem div_century (h : LiesIn day century cycle year rest) :
    day / 36524 = century + day / 146096 := by
  obtain ⟨hday, hcentury, -, hlast, -, -⟩ := h
  generalize 1461 * cycle + (365 * year + rest) = inCentury at hday hlast
  omega

/-- The days divided by 1460 may be a cycle too many, `excess`, since a cycle has a day more; but
then enough days are left over. -/
theorem exists_excess (h : LiesIn day century cycle year rest) :
    ∃ excess, day / 1460 = 25 * century + cycle + excess ∧ excess ≤ rest ∧ rest < excess + 365 := by
  obtain ⟨hday, hcentury, hcycle, -, hyear, hrest⟩ := h
  have hcycles : day / 1460 =
      25 * century + cycle + (24 * century + cycle + (365 * year + rest)) / 1460 := by
    clear hyear hrest
    omega
  exact ⟨_, hcycles, by omega, by omega⟩

theorem yearOf_eq (h : LiesIn day century cycle year rest) :
    yearOf day = 100 * century + 4 * cycle + year := by
  obtain ⟨excess, hcycles, hexcess, hrest⟩ := h.exists_excess
  have hnumerator : day - (25 * century + cycle + excess) + century =
      365 * (100 * century + 4 * cycle + year) + (rest - excess) := by
    have hday := h.day_eq
    omega
  rw [yearOf, hcycles, h.div_century, ← Nat.add_assoc, Nat.add_sub_cancel, hnumerator]
  omega

theorem daysBefore_yearOf (h : LiesIn day century cycle year rest) :
    daysBefore (yearOf day) = 36524 * century + (1461 * cycle + 365 * year) := by
  obtain ⟨-, -, hcycle, -, hyear, -⟩ := id h
  rw [h.yearOf_eq, daysBefore]
  omega

end LiesIn

/-- The year of a day is one of the 400, and the day is one of that year's. -/
theorem yearOf_spec {day : Nat} (h : day < eraDays) :
    yearOf day < 400 ∧ daysBefore (yearOf day) ≤ day ∧ day ≤ daysBefore (yearOf day) + 365 := by
  obtain ⟨century, cycle, year, rest, hlies⟩ := exists_liesIn h
  rw [hlies.daysBefore_yearOf, hlies.yearOf_eq]
  obtain ⟨hday, hcentury, hcycle, -, hyear, hrest⟩ := hlies
  omega

/-- The months begun since March on a day of a year, and the day of the month, from zero. -/
theorem month_spec {day : Nat} (h : day ≤ 365) :
    (5 * day + 2) / 153 ≤ 11 ∧ (153 * ((5 * day + 2) / 153) + 2) / 5 ≤ day ∧
      day ≤ (153 * ((5 * day + 2) / 153) + 2) / 5 + 30 := by
  omega

/-- The day of a date, counted from the first of January 1970. -/
def toDays (d : Date) : Int :=
  let late := d.month ≤ 2
  let year := d.year - (if late then 1 else 0)
  let marchMonth := if late then d.month + 9 else d.month - 3
  year / 400 * eraDays + daysBefore (year % 400).toNat
    + ((153 * marchMonth + 2) / 5 + (d.day - 1) : Nat) - epochDay

/-- January and February end a year that is counted from March. -/
theorem toDays_eq {era : Int} {yearOfEra marchMonth day : Nat} (hyear : yearOfEra < 400)
    (hmonth : marchMonth ≤ 11) {d : Date}
    (hd : d = if marchMonth < 10 then ⟨era * 400 + yearOfEra, marchMonth + 3, day + 1⟩
      else ⟨era * 400 + yearOfEra + 1, marchMonth - 9, day + 1⟩) :
    d.toDays = era * eraDays + daysBefore yearOfEra + ((153 * marchMonth + 2) / 5 + day : Nat)
      - epochDay := by
  have hera : (era * 400 + yearOfEra) / 400 = era := by omega
  have hyearOfEra : ((yearOfEra : Int) % 400).toNat = yearOfEra := by omega
  by_cases hearly : marchMonth < 10
  · have hlate : ¬ marchMonth + 3 ≤ 2 := by omega
    simp [hd, toDays, hearly, hera, hyearOfEra]
  · have hlate : marchMonth - 9 ≤ 2 := by omega
    have hback : marchMonth - 9 + 9 = marchMonth := by omega
    simp [hd, toDays, hearly, hlate, hback, hera, hyearOfEra]

theorem dayOfEra_lt (days : Int) : ((days + epochDay) % eraDays).toNat < eraDays := by
  unfold eraDays
  omega

/-- The date of a day, with January and February told from the other months. -/
theorem ofDays_eq (days : Int) :
    let dayOfEra := ((days + epochDay) % eraDays).toNat
    let dayOfYear := dayOfEra - daysBefore (yearOf dayOfEra)
    let marchMonth := (5 * dayOfYear + 2) / 153
    let day := dayOfYear - (153 * marchMonth + 2) / 5
    let year := (days + epochDay) / eraDays * 400 + yearOf dayOfEra
    ofDays days = if marchMonth < 10 then ⟨year, marchMonth + 3, day + 1⟩
      else ⟨year + 1, marchMonth - 9, day + 1⟩ := by
  intro dayOfEra dayOfYear marchMonth day year
  have hyear : dayOfEra ≤ daysBefore (yearOf dayOfEra) + 365 := (yearOf_spec (dayOfEra_lt days)).2.2
  have hmonth : marchMonth ≤ 11 := (month_spec (Nat.sub_le_iff_le_add'.mpr hyear)).1
  show (⟨year + (if (if marchMonth < 10 then marchMonth + 3 else marchMonth - 9) ≤ 2 then 1
    else 0), if marchMonth < 10 then marchMonth + 3 else marchMonth - 9, day + 1⟩ : Date) = _
  by_cases hearly : marchMonth < 10
  · have hlate : ¬ marchMonth + 3 ≤ 2 := by omega
    simp only [hearly, hlate, if_true, if_false, Int.add_zero]
  · have hlate : marchMonth - 9 ≤ 2 := by omega
    simp only [hearly, hlate, if_true, if_false]

/-- A day is found again from its date. -/
theorem toDays_ofDays (days : Int) : (ofDays days).toDays = days := by
  have hera : days + epochDay = (days + epochDay) / eraDays * eraDays +
      (((days + epochDay) % eraDays).toNat : Int) := by
    unfold eraDays
    omega
  obtain ⟨hyears, hbefore, hyear⟩ := yearOf_spec (dayOfEra_lt days)
  obtain ⟨hmonth, hfirst, -⟩ := month_spec (Nat.sub_le_iff_le_add'.mpr hyear)
  rw [toDays_eq hyears hmonth (ofDays_eq days)]
  omega

theorem ofDays_injective : Function.Injective ofDays :=
  Function.LeftInverse.injective toDays_ofDays

/-- Months and days have two digits. -/
theorem ofDays_lt (days : Int) : (ofDays days).month < 100 ∧ (ofDays days).day < 100 := by
  obtain ⟨-, -, hyear⟩ := yearOf_spec (dayOfEra_lt days)
  obtain ⟨hmonth, -, hlast⟩ := month_spec (Nat.sub_le_iff_le_add'.mpr hyear)
  rw [ofDays_eq]
  split <;> dsimp only <;> omega

end Date

/-! ## Texts -/

namespace Text

theorem toList_decimal (k n : Nat) : (decimal k n).toList =
    List.replicate (k - (Nat.toDigits 10 n).length) '0' ++ Nat.toDigits 10 n := by
  have hdigits : toString n = String.ofList (Nat.toDigits 10 n) :=
    Nat.toString_eq_ofList_toDigits
  rw [decimal, zeroFill, hdigits]
  simp

/-- A number is found again from its digits, zeros in front or not. -/
theorem decimal_injective (k : Nat) : Function.Injective (decimal k) := by
  have hvalue : ∀ n, Nat.ofDigitChars 10 (decimal k n).toList 0 = n := by
    intro n
    rw [toList_decimal, Nat.ofDigitChars_append, Nat.ofDigitChars_replicate_zero]
    simp [Nat.ofDigitChars_ten_toDigits]
  intro m n h
  rw [← hvalue m, ← hvalue n, h]

theorem length_decimal {k n : Nat} (hk : 0 < k) (h : n < 10 ^ k) : (decimal k n).length = k := by
  have hdigits : (Nat.toDigits 10 n).length ≤ k :=
    (Nat.length_toDigits_le_iff (by decide) hk).mpr h
  rw [← String.length_toList, toList_decimal, List.length_append, List.length_replicate]
  omega

theorem length_two {n : Nat} (h : n < 100) : (decimal 2 n).length = 2 :=
  length_decimal Nat.two_pos h

/-- Fields of two digits have one width. -/
theorem length_two_eq {m n : Nat} (hm : m < 100) (hn : n < 100) :
    (decimal 2 m).length = (decimal 2 n).length := (length_two hm).trans (length_two hn).symm

theorem isDigit_of_mem_decimal {k n : Nat} {c : Char} (hc : c ∈ (decimal k n).toList) :
    c.isDigit = true := by
  rw [toList_decimal, List.mem_append] at hc
  rcases hc with hc | hc
  · rw [List.eq_of_mem_replicate hc]
    rfl
  · exact Nat.isDigit_of_mem_toDigits (by decide) (by decide) hc

/-- Texts fall apart in one way if their ends have one length. -/
theorem append_inj_of_length {s t u v : String} (h : s ++ t = u ++ v)
    (hlength : t.length = v.length) : s = u ∧ t = v := by
  have hlists : s.toList ++ t.toList = u.toList ++ v.toList := by
    rw [← String.toList_append, h, String.toList_append]
  obtain ⟨hfront, hend⟩ := List.append_inj' hlists (by simpa only [String.length_toList])
  exact ⟨String.toList_inj.mp hfront, String.toList_inj.mp hend⟩

end Text

namespace Date

theorem toList_yearText (year : Int) : (yearText year).toList =
    if 0 ≤ year ∧ year ≤ 9999 then (Text.decimal 4 year.toNat).toList
    else (if year < 0 then '-' else '+') :: (Text.decimal 4 year.natAbs).toList := by
  unfold yearText
  split
  · rfl
  · split <;> simp

/-- A sign is no digit, and tells on which side the years without one lie. -/
theorem yearText_injective : Function.Injective yearText := by
  intro y z h
  have hchars : (yearText y).toList = (yearText z).toList := congrArg String.toList h
  have hdigits : ∀ {year n : Int} {rest : List Char},
      (Text.decimal 4 n.toNat).toList ≠ (if year < 0 then '-' else '+') :: rest := by
    intro year n rest heq
    have hsign : Char.isDigit (if year < 0 then '-' else '+') = true :=
      Text.isDigit_of_mem_decimal (heq ▸ List.mem_cons_self)
    split at hsign <;> cases hsign
  rw [toList_yearText, toList_yearText] at hchars
  by_cases hy : 0 ≤ y ∧ y ≤ 9999
  · by_cases hz : 0 ≤ z ∧ z ≤ 9999
    · rw [if_pos hy, if_pos hz] at hchars
      have hnat := Text.decimal_injective 4 (String.toList_inj.mp hchars)
      omega
    · rw [if_pos hy, if_neg hz] at hchars
      exact absurd hchars hdigits
  · by_cases hz : 0 ≤ z ∧ z ≤ 9999
    · rw [if_neg hy, if_pos hz] at hchars
      exact absurd hchars.symm hdigits
    · rw [if_neg hy, if_neg hz] at hchars
      obtain ⟨hsign, hrest⟩ := List.cons.inj hchars
      have habs := Text.decimal_injective 4 (String.toList_inj.mp hrest)
      have hside : y < 0 ↔ z < 0 := by
        by_cases hy : y < 0 <;> by_cases hz : z < 0 <;> simp [hy, hz] at hsign ⊢
      omega

/-- Dates whose months and days have two digits are told apart by their texts. -/
theorem text_inj {d e : Date} (hd : d.month < 100 ∧ d.day < 100)
    (he : e.month < 100 ∧ e.day < 100) (h : d.text = e.text) : d = e := by
  obtain ⟨h, hday⟩ := Text.append_inj_of_length h (Text.length_two_eq hd.2 he.2)
  obtain ⟨h, -⟩ := Text.append_inj_of_length h rfl
  obtain ⟨h, hmonth⟩ := Text.append_inj_of_length h (Text.length_two_eq hd.1 he.1)
  obtain ⟨hyear, -⟩ := Text.append_inj_of_length h rfl
  have hfields : d.year = e.year ∧ d.month = e.month ∧ d.day = e.day :=
    ⟨yearText_injective hyear, Text.decimal_injective 2 hmonth, Text.decimal_injective 2 hday⟩
  obtain ⟨year, month, day⟩ := d
  obtain ⟨rfl, rfl, rfl⟩ := hfields
  rfl

end Date

namespace Timestamp

/-- Hours, minutes and seconds have two digits. -/
theorem clock_lt (t : Timestamp) : (t.seconds % 86400).toNat / 3600 < 100 ∧
    (t.seconds % 86400).toNat / 60 % 60 < 100 ∧ (t.seconds % 86400).toNat % 60 < 100 := by
  omega

theorem length_clock (t : Timestamp) : t.clock.length = 8 := by
  obtain ⟨hhour, hminute, hsecond⟩ := t.clock_lt
  show (Text.decimal 2 _ ++ ":" ++ Text.decimal 2 _ ++ ":" ++ Text.decimal 2 _).length = 8
  simp only [String.length_append, Text.length_two hhour, Text.length_two hminute,
    Text.length_two hsecond]
  rfl

/-- Moments of one time of day are told apart by their days alone. -/
theorem clock_inj {t u : Timestamp} (h : t.clock = u.clock) :
    t.seconds % 86400 = u.seconds % 86400 := by
  obtain ⟨hhour, hminute, hsecond⟩ := t.clock_lt
  obtain ⟨hhour', hminute', hsecond'⟩ := u.clock_lt
  obtain ⟨h, hseconds⟩ := Text.append_inj_of_length h (Text.length_two_eq hsecond hsecond')
  obtain ⟨h, -⟩ := Text.append_inj_of_length h rfl
  obtain ⟨h, hminutes⟩ := Text.append_inj_of_length h (Text.length_two_eq hminute hminute')
  obtain ⟨hhours, -⟩ := Text.append_inj_of_length h rfl
  have hhours := Text.decimal_injective 2 hhours
  have hminutes := Text.decimal_injective 2 hminutes
  have hseconds := Text.decimal_injective 2 hseconds
  omega

/-- No two moments are written alike. -/
theorem compact_injective : Function.Injective compact := by
  intro t u h
  obtain ⟨h, -⟩ := Text.append_inj_of_length h rfl
  obtain ⟨h, hclock⟩ := Text.append_inj_of_length h
    ((length_clock t).trans (length_clock u).symm)
  obtain ⟨hdate, -⟩ := Text.append_inj_of_length h rfl
  have hdays : t.seconds / 86400 = u.seconds / 86400 :=
    Date.ofDays_injective (Date.text_inj (Date.ofDays_lt _) (Date.ofDays_lt _) hdate)
  have hseconds := clock_inj hclock
  have hwhole : t.seconds = u.seconds := by omega
  cases t
  cases u
  exact congrArg Timestamp.mk hwhole

end Timestamp

end AvrConformance
