import Mathlib.Data.Char
import Mathlib.Data.List.Lex
import PveMeta.BackupTime
import PveMeta.Lib.Gregorian
import PveMeta.Theorems.Notes

/-! # The time of a backup

The time in a block's header is the date and the time of the instant. The years are counted from 1 March, so that a leap
day is the last day of its year: in a cycle of 400 years the days before a year are then a sum of whole divisions, and the
code's own divisions find the year from the day. -/

namespace PveMeta
namespace Backup
open Gregorian MachineInt

/-! ### The year of a day -/

/-- The day `doe` of a cycle is the day `doy` of its year `yoe`, and the last of a leap year where that has one more. -/
structure InCycle (doe yoe doy : Nat) : Prop where
  yoe_lt : yoe < 400
  doy_le : doy ≤ 365
  doe_eq : doe + yoe / 100 = 365 * yoe + yoe / 4 + doy
  leap : doy = 365 → yoe % 4 = 3 ∧ (yoe % 100 = 99 → yoe = 399)

/-- Century, four years, year and day are cut off one after the other, but for the one day too many that a cycle has, and
    four years. -/
theorem exists_inCycle {doe : Nat} (h : doe < 146097) : ∃ yoe doy, InCycle doe yoe doy := by
  obtain ⟨c, hc⟩ : ∃ c, c = min (doe / 36524) 3 := ⟨_, rfl⟩
  obtain ⟨rest, hrest⟩ : ∃ rest, doe = 36524 * c + rest := ⟨doe - 36524 * c, by omega⟩
  have hcentury : rest ≤ 36524 ∧ (rest = 36524 → c = 3) := by omega
  obtain ⟨q, hq⟩ : ∃ q, q = rest / 1461 := ⟨_, rfl⟩
  obtain ⟨y, hy⟩ : ∃ y, y = min (rest % 1461 / 365) 3 := ⟨_, rfl⟩
  obtain ⟨d, hd⟩ : ∃ d, rest = 1461 * q + 365 * y + d := ⟨rest - 1461 * q - 365 * y, by omega⟩
  have hday : d ≤ 365 ∧ (d = 365 → y = 3 ∧ (q = 24 → c = 3)) := by omega
  have hfour : (100 * c + 4 * q + y) / 4 = 25 * c + q := by omega
  have hhundred : (100 * c + 4 * q + y) / 100 = c := by omega
  exact ⟨100 * c + 4 * q + y, d, by omega, hday.1, by omega, by omega⟩

namespace InCycle

variable {doe yoe doy : Nat}

/-- The year is where the code looks for it: a day is taken off for every leap year before, and for a century that ends
    without one given back. -/
theorem yoe_eq (h : InCycle doe yoe doy) : (doe - doe / 1460 + doe / 36524 - doe / 146096) / 365 = yoe := by
  obtain ⟨hyoe, hdoy, hdoe, hleap⟩ := h
  have hfour : doe / 1460 ≤ yoe / 4 + doy ∧ yoe / 4 + doy < doe / 1460 + 365 := by
    obtain ⟨rest, hrest⟩ : ∃ rest, rest + yoe / 100 = 365 * (yoe % 4) + yoe / 4 + doy := ⟨_, Nat.sub_add_cancel (by omega)⟩
    have hsplit : doe = rest + 1460 * (yoe / 4) := by omega
    rw [hsplit, Nat.add_mul_div_left _ _ (by omega)]
    by_cases hlt : rest < 1460
    · rw [Nat.div_eq_of_lt hlt]
      omega
    · have hone : rest / 1460 = 1 := by omega
      omega
  have hcentury : doe / 36524 - doe / 146096 = yoe / 100 ∧ doe / 146096 ≤ doe / 36524 := by
    by_cases hlast : doe = 146096
    · subst hlast
      omega
    · have hnone : doe / 146096 = 0 := Nat.div_eq_of_lt (by omega)
      have hhundred : doe / 36524 = yoe / 100 := by omega
      omega
  generalize doe / 1460 = a at *
  generalize doe / 36524 = b at *
  generalize doe / 146096 = c at *
  omega

theorem doy_eq (h : InCycle doe yoe doy) : doe - (365 * yoe + yoe / 4 - yoe / 100) = doy := by
  have := h.doe_eq
  omega

end InCycle

/-! ### The date of a day -/

/-- The month that a day of the year is in, counted from March. -/
theorem month_of_doy {doy : Nat} (h : doy ≤ 365) : (5 * doy + 2) / 153 ≤ 11 ∧ (153 * ((5 * doy + 2) / 153) + 2) / 5 ≤ doy ∧
    doy < (153 * ((5 * doy + 2) / 153 + 1) + 2) / 5 := by
  omega

/-- The leap day of a year from March is in the year after it. -/
theorem isLeap_succ {era yoe : Nat} : isLeap (yoe + era * 400 + 1) = true ↔
    yoe % 4 = 3 ∧ (yoe % 100 = 99 → yoe % 400 = 399) := by
  rw [isLeap_iff]
  omega

/-- The code's year, month and day of a day that is counted from 1 March of the year 0. -/
theorem exists_date (era : Nat) {doe yoe doy mp : Nat} (h : InCycle doe yoe doy) (hmp : mp = (5 * doy + 2) / 153) :
    ∃ date : Date, date.number = era * 146097 + doe + 60 ∧
      date.month = (if mp < 10 then mp + 3 else mp - 9) ∧
      date.year = (if date.month ≤ 2 then yoe + era * 400 + 1 else yoe + era * 400) ∧
      date.day = doy - (153 * mp + 2) / 5 + 1 := by
  obtain ⟨hle, hfrom, hto⟩ := month_of_doy h.doy_le
  rw [← hmp] at hle hfrom hto
  have hyoe := h.yoe_lt
  have hdoe := h.doe_eq
  have hdoy := h.doy_le
  have hyear := daysBeforeYear_succ_eq (yoe + era * 400)
  have hcycles : (yoe + era * 400) / 4 = yoe / 4 + era * 100 ∧ (yoe + era * 400) / 100 = yoe / 100 + era * 4 ∧
      (yoe + era * 400) / 400 = era := by omega
  rw [hcycles.1, hcycles.2.1, hcycles.2.2] at hyear
  clear hcycles
  by_cases hmar : mp < 10
  · -- From March to December the year is the one counted.
    have hlength : doy - (153 * mp + 2) / 5 + 1 ≤ monthLength (yoe + era * 400) (mp + 3) := by
      clear hmp hdoe
      interval_cases mp <;> simp only [monthLength] <;> omega
    have hmonth : ¬ mp + 3 ≤ 2 := by omega
    refine ⟨⟨yoe + era * 400, mp + 3, doy - (153 * mp + 2) / 5 + 1, by omega, by omega, by omega, hlength⟩, ?_,
      (if_pos hmar).symm, (if_neg hmonth).symm, rfl⟩
    rw [daysBeforeYear_succ, yearLength_eq] at hyear
    rw [Date.number]
    dsimp only
    rw [daysBeforeMonth_eq (by omega) (by omega), if_neg hmonth, Nat.add_sub_cancel]
    generalize (if isLeap (yoe + era * 400) = true then 1 else 0) = leap at *
    omega
  · -- January and February are those of the next year, and only there the leap day is.
    have hleap := @isLeap_succ era yoe
    have hlast := h.leap
    have hlength : doy - (153 * mp + 2) / 5 + 1 ≤ monthLength (yoe + era * 400 + 1) (mp - 9) := by
      have hmonth : mp = 10 ∨ mp = 11 := by omega
      rcases hmonth with rfl | rfl
      · show _ ≤ 31
        omega
      · show _ ≤ if isLeap (yoe + era * 400 + 1) = true then 29 else 28
        split
        · omega
        · next hy =>
          have := mt hleap.mpr hy
          omega
    have hmonth : mp - 9 ≤ 2 := by omega
    refine ⟨⟨yoe + era * 400 + 1, mp - 9, doy - (153 * mp + 2) / 5 + 1, by omega, by omega, by omega, hlength⟩, ?_,
      (if_neg hmar).symm, (if_pos hmonth).symm, rfl⟩
    rw [Date.number]
    dsimp only
    rw [daysBeforeMonth_eq (by omega) (by omega), if_pos hmonth]
    omega

/-! ### The text of an instant -/

/-- How wide each field of a date and time is written, and what stands after it. -/
def layout : List (Nat × Char) := [(4, '-'), (2, '-'), (2, 'T'), (2, ':'), (2, ':'), (2, 'Z')]

/-- Numbers in fields, with zeros in front. -/
def written (layout : List (Nat × Char)) (ns : List Nat) : Text :=
  (layout.zip ns).flatMap fun e => pad e.1.1 e.2 ++ [e.1.2]

/-- `YYYY-MM-DDTHH:MM:SSZ` -/
def rfc3339 (t : DateTime) : Text := written layout t.fields

theorem epoch_number : epoch.number = 719528 := by
  have hyear : daysBeforeYear 1970 + 1969 / 100 = 365 * 1970 + 1969 / 4 + 1969 / 400 + 1 := daysBeforeYear_succ_eq 1969
  simp only [Date.number, epoch, daysBeforeMonth_one]
  omega

theorem rfc3339_eq (t : DateTime) : rfc3339 t = formatUtc t.date.year t.date.month t.date.day t.secondOfDay := by
  have := t.minute_lt
  have := t.second_lt
  have hhour : t.secondOfDay / 3600 = t.hour := by
    unfold DateTime.secondOfDay
    omega
  have hminute : t.secondOfDay % 3600 / 60 = t.minute := by
    unfold DateTime.secondOfDay
    omega
  have hsecond : t.secondOfDay % 60 = t.second := by
    unfold DateTime.secondOfDay
    omega
  rw [formatUtc, hhour, hminute, hsecond]
  simp [rfc3339, written, layout, DateTime.fields]

/-- What is printed is the date and time of the instant. -/
theorem rfc3339Utc_eq (unix : Nat) : ∃ t : DateTime, t.instant = unix ∧ rfc3339Utc unix = rfc3339 t := by
  obtain ⟨z, hz⟩ : ∃ z, z = unix / 86400 + 719468 := ⟨_, rfl⟩
  obtain ⟨yoe, doy, hcycle⟩ := exists_inCycle (Nat.mod_lt z (y := 146097) (by omega))
  obtain ⟨date, hnumber, hmonth, hyear, hday⟩ := exists_date (z / 146097) hcycle rfl
  have htime : unix % 86400 / 3600 < 24 ∧ unix % 86400 % 3600 / 60 < 60 ∧ unix % 86400 % 60 < 60 := by omega
  let t : DateTime := ⟨date, _, _, _, htime.1, htime.2.1, htime.2.2⟩
  have hsecond : t.secondOfDay = unix % 86400 := by
    show unix % 86400 / 3600 * 3600 + unix % 86400 % 3600 / 60 * 60 + unix % 86400 % 60 = unix % 86400
    omega
  refine ⟨t, ?_, ?_⟩
  · rw [DateTime.instant, hsecond, epoch_number]
    show ((date.number : Int) - 719528) * 86400 + _ = _
    omega
  · rw [rfc3339_eq, hsecond]
    simp only [rfc3339Utc]
    rw [← hz, hcycle.yoe_eq, hcycle.doy_eq, ← hmonth, ← hday, ← hyear]

/-! ### The machine's arithmetic -/

theorem padInt_natCast (width n : Nat) : padInt width n = pad width n := by
  rw [padInt, if_neg (Int.not_lt.mpr (Int.natCast_nonneg n)), Int.natAbs_natCast]

/-- The year of a cycle, each operation by what it gives. -/
theorem checked_yoe {doe yoe doy : Nat} (h : InCycle doe yoe doy) (hdoe : doe < 146097) :
    ∃ a b c d e f : Nat, i64.div doe 1460 = some (a : Int) ∧ i64.sub doe a = some (b : Int) ∧
      i64.div doe 36524 = some (c : Int) ∧ i64.add b c = some (d : Int) ∧ i64.div doe 146096 = some (e : Int) ∧
      i64.sub d e = some (f : Int) ∧ i64.div f 365 = some (yoe : Int) := by
  refine ⟨doe / 1460, doe - doe / 1460, doe / 36524, doe - doe / 1460 + doe / 36524, doe / 146096,
    doe - doe / 1460 + doe / 36524 - doe / 146096, ?_, ?_, ?_, ?_, ?_, ?_, ?_⟩
  · exact i64_div 1460 (by omega)
  · exact i64_sub (Nat.div_le_self doe 1460) (by omega)
  · exact i64_div 36524 (by omega)
  · exact i64_add (by omega)
  · exact i64_div 146096 (by omega)
  · exact i64_sub (by omega) (by omega)
  · rw [← h.yoe_eq]
    exact i64_div 365 (by omega)

theorem checked_doy {doe yoe doy : Nat} (h : InCycle doe yoe doy) (hdoe : doe < 146097) :
    ∃ a b c d e : Nat, i64.mul 365 yoe = some (a : Int) ∧ i64.div yoe 4 = some (b : Int) ∧ i64.add a b = some (c : Int) ∧
      i64.div yoe 100 = some (d : Int) ∧ i64.sub c d = some (e : Int) ∧ i64.sub doe e = some (doy : Int) := by
  have hdoy := h.doy_eq
  obtain ⟨hyoe, -, heq, -⟩ := h
  refine ⟨365 * yoe, yoe / 4, 365 * yoe + yoe / 4, yoe / 100, 365 * yoe + yoe / 4 - yoe / 100, ?_, ?_, ?_, ?_, ?_, ?_⟩
  · exact i64_mul (n := 365) (by omega)
  · exact i64_div 4 (by omega)
  · exact i64_add (by omega)
  · exact i64_div 100 (by omega)
  · exact i64_sub (by omega) (by omega)
  · rw [← hdoy]
    exact i64_sub (by omega) (by omega)

theorem checked_month {doy mp : Nat} (h : doy ≤ 365) (hmp : mp = (5 * doy + 2) / 153) :
    ∃ a b : Nat, i64.mul 5 doy = some (a : Int) ∧ i64.add a 2 = some (b : Int) ∧ i64.div b 153 = some (mp : Int) := by
  refine ⟨5 * doy, 5 * doy + 2, ?_, ?_, ?_⟩
  · exact i64_mul (n := 5) (by omega)
  · exact i64_add (m := 2) (by omega)
  · rw [hmp]
    exact i64_div 153 (by omega)

theorem checked_day {doy mp : Nat} (h : doy ≤ 365) (hmp : mp = (5 * doy + 2) / 153) :
    ∃ a b c d : Nat, i64.mul 153 mp = some (a : Int) ∧ i64.add a 2 = some (b : Int) ∧ i64.div b 5 = some (c : Int) ∧
      i64.sub doy c = some (d : Int) ∧ i64.add d 1 = some ((doy - (153 * mp + 2) / 5 + 1 : Nat) : Int) := by
  refine ⟨153 * mp, 153 * mp + 2, (153 * mp + 2) / 5, doy - (153 * mp + 2) / 5, ?_, ?_, ?_, ?_, ?_⟩
  · exact i64_mul (n := 153) (by omega)
  · exact i64_add (m := 2) (by omega)
  · exact i64_div 5 (by omega)
  · exact i64_sub (month_of_doy h |>.2.1.trans' (by rw [hmp])) (by omega)
  · exact i64_add (m := 1) (by omega)

theorem checked_shift {mp : Nat} (h : mp ≤ 11) :
    (if (mp : Int) < 10 then i64.add mp 3 else i64.sub mp 9) = some ((if mp < 10 then mp + 3 else mp - 9 : Nat) : Int) := by
  by_cases hmar : mp < 10
  · rw [if_pos hmar, if_pos (by omega)]
    exact i64_add (m := 3) (by omega)
  · rw [if_neg hmar, if_neg (by omega)]
    exact i64_sub (m := 9) (by omega) (by omega)

theorem checked_turn {m y : Nat} (h : y < 2 ^ 62) :
    (if (m : Int) ≤ 2 then i64.add y 1 else some (y : Int)) = some ((if m ≤ 2 then y + 1 else y : Nat) : Int) := by
  by_cases hjan : m ≤ 2
  · rw [if_pos hjan, if_pos (by omega)]
    exact i64_add (m := 1) (by omega)
  · rw [if_neg hjan, if_neg (by omega)]

/-- Nothing overflows, and no divisor is zero. -/
theorem rfc3339UtcChecked_eq (unix : UInt64) : rfc3339UtcChecked unix = some (rfc3339Utc unix.toNat) := by
  have hunix := unix.toNat_lt
  generalize hn : unix.toNat = n at hunix
  obtain ⟨days, hdays⟩ : ∃ days, days = n / 86400 := ⟨_, rfl⟩
  have days₀ : days < 2 ^ 48 := by omega
  have days₁ : u64.div n 86400 = some (days : Int) := hdays ▸ u64_div 86400 hunix
  have days₂ : asI64 days = days := asI64_of_lt (Int.natCast_nonneg days) (by omega)
  obtain ⟨z, hz⟩ : ∃ z, z = days + 719468 := ⟨_, rfl⟩
  have z₀ : z < 2 ^ 49 := by omega
  have z₁ : i64.add days 719468 = some (z : Int) := hz ▸ i64_add (m := 719468) (by omega)
  obtain ⟨era, hera⟩ : ∃ era, era = z / 146097 := ⟨_, rfl⟩
  have era₀ : era < 2 ^ 49 := by omega
  have era₁ : i64.divEuclid z 146097 = some (era : Int) := hera ▸ i64_divEuclid 146097 (by omega)
  obtain ⟨doe, hdoe⟩ : ∃ doe, doe = z % 146097 := ⟨_, rfl⟩
  have doe₀ : doe < 146097 := by omega
  have doe₁ : i64.remEuclid z 146097 = some (doe : Int) := hdoe ▸ i64_remEuclid 146097 (by omega)
  obtain ⟨yoe, doy, hcycle⟩ := exists_inCycle doe₀
  have hyoe := hcycle.yoe_lt
  have hdoy := hcycle.doy_le
  obtain ⟨mp, hmp⟩ : ∃ mp, mp = (5 * doy + 2) / 153 := ⟨_, rfl⟩
  obtain ⟨y₁, y₂, y₃, y₄, y₅, y₆, hy₁, hy₂, hy₃, hy₄, hy₅, hy₆, hy₇⟩ := checked_yoe hcycle doe₀
  obtain ⟨d₁, d₂, d₃, d₄, d₅, hd₁, hd₂, hd₃, hd₄, hd₅, hd₆⟩ := checked_doy hcycle doe₀
  obtain ⟨m₁, m₂, hm₁, hm₂, hm₃⟩ := checked_month hdoy hmp
  obtain ⟨e₁, e₂, e₃, e₄, he₁, he₂, he₃, he₄, he₅⟩ := checked_day hdoy hmp
  have year₁ : i64.mul era 400 = some ((era * 400 : Nat) : Int) := i64_mul (m := 400) (by omega)
  have year₂ : i64.add yoe (era * 400 : Nat) = some ((yoe + era * 400 : Nat) : Int) := i64_add (by omega)
  have mp₀ : mp ≤ 11 := by omega
  have month₁ := checked_shift mp₀
  have year₃ := checked_turn (m := if mp < 10 then mp + 3 else mp - 9) (y := yoe + era * 400) (by omega)
  obtain ⟨secs, hsecs⟩ : ∃ secs, secs = n % 86400 := ⟨_, rfl⟩
  have secs₀ : secs < 86400 := by omega
  have secs₁ : u64.rem n 86400 = some (secs : Int) := hsecs ▸ u64_rem 86400 hunix
  have hour₁ : u64.div secs 3600 = some ((secs / 3600 : Nat) : Int) := u64_div 3600 (by omega)
  have hour₂ : u64.rem secs 3600 = some ((secs % 3600 : Nat) : Int) := u64_rem 3600 (by omega)
  have minute₁ : u64.div (secs % 3600 : Nat) 60 = some ((secs % 3600 / 60 : Nat) : Int) := u64_div 60 (by omega)
  have second₁ : u64.rem secs 60 = some ((secs % 60 : Nat) : Int) := u64_rem 60 (by omega)
  have htext : rfc3339Utc n = formatUtc (if (if mp < 10 then mp + 3 else mp - 9) ≤ 2 then yoe + era * 400 + 1 else
      yoe + era * 400) (if mp < 10 then mp + 3 else mp - 9) (doy - (153 * mp + 2) / 5 + 1) secs := by
    simp only [rfc3339Utc]
    rw [← hdays, ← hz, ← hdoe, ← hera, hcycle.yoe_eq, hcycle.doy_eq, ← hmp, ← hsecs]
  rw [htext]
  rw [rfc3339UtcChecked, hn, bind_of_eq_some days₁, days₂]
  dsimp only
  rw [bind_of_eq_some secs₁, bind_of_eq_some z₁, bind_of_eq_some era₁, bind_of_eq_some doe₁]
  rw [bind_of_eq_some hy₁, bind_of_eq_some hy₂, bind_of_eq_some hy₃, bind_of_eq_some hy₄, bind_of_eq_some hy₅,
    bind_of_eq_some hy₆, bind_of_eq_some hy₇, bind_of_eq_some year₁, bind_of_eq_some year₂]
  rw [bind_of_eq_some hd₁, bind_of_eq_some hd₂, bind_of_eq_some hd₃, bind_of_eq_some hd₄, bind_of_eq_some hd₅,
    bind_of_eq_some hd₆, bind_of_eq_some hm₁, bind_of_eq_some hm₂, bind_of_eq_some hm₃]
  rw [bind_of_eq_some he₁, bind_of_eq_some he₂, bind_of_eq_some he₃, bind_of_eq_some he₄, bind_of_eq_some he₅,
    bind_of_eq_some month₁, bind_of_eq_some year₃]
  rw [bind_of_eq_some hour₁, bind_of_eq_some hour₂, bind_of_eq_some minute₁, bind_of_eq_some second₁]
  simp only [padInt_natCast, formatUtc]
  rfl

/-! ### The order of the texts -/

section Fields

variable {m n width : Nat} {ms ns : List Nat} {layout : List (Nat × Char)}

theorem all_isDigit_pad (width n : Nat) : (pad width n).all Char.isDigit = true := by
  rw [pad, List.all_append, Decimal.all_isDigit_toDigits, Bool.and_true]
  exact List.all_eq_true.mpr fun c hc => (List.eq_of_mem_replicate hc) ▸ rfl

theorem ofDigitChars_pad (width n : Nat) : Nat.ofDigitChars 10 (pad width n) 0 = n := by
  rw [pad, Nat.ofDigitChars_append, Nat.ofDigitChars_replicate_zero, Nat.mul_zero, Nat.ofDigitChars_ten_toDigits]

theorem length_pad (hwidth : 0 < width) (h : n < 10 ^ width) : (pad width n).length = width := by
  have := (Nat.length_toDigits_le_iff (b := 10) (by omega) hwidth).mpr h
  rw [pad, List.length_append, List.length_replicate, Nat.sub_add_cancel this]

theorem pad_lt_pad (hwidth : 0 < width) (hm : m < 10 ^ width) (hn : n < 10 ^ width) (h : m < n) :
    pad width m < pad width n := by
  have hlength : (pad width m).length = (pad width n).length := by rw [length_pad hwidth hm, length_pad hwidth hn]
  have hlt : Nat.ofDigitChars 10 (pad width m) 0 < Nat.ofDigitChars 10 (pad width n) 0 := by
    rwa [ofDigitChars_pad, ofDigitChars_pad]
  exact Decimal.lt_of_ofDigitChars_lt (all_isDigit_pad width m) (all_isDigit_pad width n) hlength hlt

/-- Numbers that their fields are wide enough for. -/
def Fit (layout : List (Nat × Char)) (ns : List Nat) : Prop :=
  List.Forall₂ (fun l n => 0 < l.1 ∧ n < 10 ^ l.1) layout ns

theorem written_lt (hm : Fit layout ms) (hn : Fit layout ns) (h : ms < ns) : written layout ms < written layout ns := by
  induction hm generalizing ns with
  | nil =>
    cases hn
    exact absurd h (List.not_lt_nil _)
  | @cons l m layout ms hl _ ih =>
    cases hn with
    | @cons _ n _ ns hl' hn =>
      show (pad l.1 m ++ [l.2]) ++ written layout ms < (pad l.1 n ++ [l.2]) ++ written layout ns
      rcases List.cons_lt_cons_iff.mp h with hlt | ⟨rfl, hrest⟩
      · rw [List.append_assoc, List.append_assoc]
        refine Text.append_lt_append ?_ (pad_lt_pad hl.1 hl.2 hl'.2 hlt) _ _
        rw [length_pad hl.1 hl.2, length_pad hl.1 hl'.2]
      · exact List.append_left_lt (ih hn hrest)

theorem length_written (h : Fit layout ns) : (written layout ns).length = (layout.map fun l => l.1 + 1).sum := by
  induction h with
  | nil => rfl
  | @cons l n layout ns hl _ ih =>
    show ((pad l.1 n ++ [l.2]) ++ written layout ns).length = _
    rw [List.length_append, ih, List.length_append, length_pad hl.1 hl.2]
    rfl

end Fields

/-- A block says the instant at which it was made. -/
theorem render_time {vmid : UInt32} {yaml block : Text} {digest : String} {now : Nat}
    (h : render vmid yaml digest now = .ok block) :
    ∃ (t : DateTime) (rest : Text), t.instant = now ∧
      block = headerText (Nat.toDigits 10 version.toNat) (Nat.toDigits 10 vmid.toNat) (rfc3339 t) digest.toList ++
        '\n' :: rest := by
  obtain ⟨t, ht, htext⟩ := rfc3339Utc_eq now
  unfold render at h
  dsimp only at h
  split at h
  · cases h
  · cases h
    refine ⟨t, fenceOpen ++ ['\n'] ++ Text.trimNewlines yaml ++ ['\n'] ++ fenceClose ++ ['\n'] ++ endLine, ht, ?_⟩
    rw [headerLine, htext]
    simp only [List.append_assoc, List.cons_append, List.nil_append]

/-! ### The main result -/

theorem fit_fields {t : DateTime} (h : t.date.year ≤ 9999) : Fit layout t.fields := by
  have hmonth := t.date.month_le
  have hday : t.date.day ≤ 31 := t.date.day_le.trans (monthLength_le _ _)
  have := t.hour_lt
  have := t.minute_lt
  have := t.second_lt
  refine .cons ⟨by omega, ?_⟩ (.cons ⟨by omega, ?_⟩ (.cons ⟨by omega, ?_⟩ (.cons ⟨by omega, ?_⟩ (.cons ⟨by omega, ?_⟩
    (.cons ⟨by omega, ?_⟩ .nil))))) <;> dsimp only <;> omega

theorem rfc3339_lt_iff {s t : DateTime} (hs : s.date.year ≤ 9999) (ht : t.date.year ≤ 9999) :
    rfc3339 s < rfc3339 t ↔ s.instant < t.instant := by
  have hmono : StrictMonoOn (written layout) {ns | Fit layout ns} := fun _ hm _ hn h => written_lt hm hn h
  rw [DateTime.instant_lt_iff]
  exact hmono.lt_iff_lt (fit_fields hs) (fit_fields ht)

/-- For every number of seconds the machine computes, without a failure, the date and the time of the calendar at that
    instant. With years of four digits the texts are of one length, and in the order of the instants. -/
theorem backup_time_right :
    (∀ unix : UInt64, ∃ t : DateTime, t.instant = unix.toNat ∧ t.date = Date.next^[unix.toNat / 86400] epoch ∧
      t.secondOfDay = unix.toNat % 86400 ∧ rfc3339UtcChecked unix = some (rfc3339 t) ∧ rfc3339Utc unix.toNat = rfc3339 t) ∧
    (∀ t : DateTime, t.date.year ≤ 9999 → (rfc3339 t).length = 20) ∧
    ∀ (a b : UInt64) (s t : DateTime), s.instant = a.toNat → t.instant = b.toNat → s.date.year ≤ 9999 → t.date.year ≤ 9999 →
      (rfc3339Utc a.toNat < rfc3339Utc b.toNat ↔ a < b) := by
  refine ⟨fun unix => ?_, fun t ht => length_written (fit_fields ht), fun a b s t hs ht hys hyt => ?_⟩
  · obtain ⟨t, hinstant, htext⟩ := rfc3339Utc_eq unix.toNat
    obtain ⟨hdate, hsecond⟩ := DateTime.passed hinstant
    exact ⟨t, hinstant, hdate, hsecond, htext ▸ rfc3339UtcChecked_eq unix, htext⟩
  · obtain ⟨s', hs', hatext⟩ := rfc3339Utc_eq a.toNat
    obtain ⟨t', ht', hbtext⟩ := rfc3339Utc_eq b.toNat
    obtain rfl : s' = s := DateTime.instant_injective (hs'.trans hs.symm)
    obtain rfl : t' = t := DateTime.instant_injective (ht'.trans ht.symm)
    rw [hatext, hbtext, rfc3339_lt_iff hys hyt, hs, ht, Int.ofNat_lt, UInt64.lt_iff_toNat_lt]

end Backup
end PveMeta
