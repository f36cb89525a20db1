import Mathlib.Algebra.BigOperators.Intervals
import Mathlib.Algebra.Order.BigOperators.Group.Finset
import Mathlib.Order.Interval.Finset.Nat
import Mathlib.Tactic.IntervalCases

/-! # The Gregorian calendar

The proleptic Gregorian calendar from the year 0 on. A date is numbered by the days before it, year by year and month by
month, and these numbers follow the calendar: the next day has the next number, and an earlier date a smaller one. -/

namespace Gregorian

/-- Every fourth year, but of the centuries only every fourth. -/
def isLeap (y : Nat) : Bool := y % 4 == 0 && (y % 100 != 0 || y % 400 == 0)

def yearLength (y : Nat) : Nat := if isLeap y then 366 else 365

def monthLength (y : Nat) : Nat → Nat
  | 2 => if isLeap y then 29 else 28
  | 4 | 6 | 9 | 11 => 30
  | _ => 31

@[ext] structure Date where
  year : Nat
  month : Nat
  day : Nat
  month_pos : 1 ≤ month
  month_le : month ≤ 12
  day_pos : 1 ≤ day
  day_le : day ≤ monthLength year month

def daysBeforeYear (y : Nat) : Nat := ∑ k ∈ Finset.range y, yearLength k

def daysBeforeMonth (y m : Nat) : Nat := ∑ k ∈ Finset.Ico 1 m, monthLength y k

/-- The days from 1 January of the year 0. -/
def Date.number (d : Date) : Nat := daysBeforeYear d.year + daysBeforeMonth d.year d.month + (d.day - 1)

theorem monthLength_pos (y m : Nat) : 1 ≤ monthLength y m := by
  unfold monthLength
  split <;> first | decide | split <;> decide

theorem monthLength_le (y m : Nat) : monthLength y m ≤ 31 := by
  unfold monthLength
  split <;> first | decide | split <;> decide

/-- The day after: of the same month, the first of the next one, or the first of the next year. -/
def Date.next (d : Date) : Date :=
  if h : d.day < monthLength d.year d.month then ⟨d.year, d.month, d.day + 1, d.month_pos, d.month_le, by omega, h⟩
  else if h : d.month < 12 then ⟨d.year, d.month + 1, 1, by omega, h, le_rfl, monthLength_pos _ _⟩
  else ⟨d.year + 1, 1, 1, le_rfl, by decide, le_rfl, monthLength_pos _ _⟩

/-! ### Years and months -/

variable {y m : Nat}

theorem isLeap_iff : isLeap y = true ↔ y % 4 = 0 ∧ (y % 100 = 0 → y % 400 = 0) := by
  simp only [isLeap, Bool.and_eq_true, Bool.or_eq_true, beq_iff_eq, bne_iff_ne]
  exact and_congr_right fun _ => Decidable.imp_iff_not_or.symm

theorem yearLength_eq (y : Nat) : yearLength y = 365 + if isLeap y then 1 else 0 := by
  unfold yearLength
  split <;> rfl

@[simp] theorem daysBeforeYear_succ (y : Nat) : daysBeforeYear (y + 1) = daysBeforeYear y + yearLength y :=
  Finset.sum_range_succ _ _

theorem daysBeforeMonth_succ (h : 1 ≤ m) : daysBeforeMonth y (m + 1) = daysBeforeMonth y m + monthLength y m :=
  Finset.sum_Ico_succ_top h _

@[simp] theorem daysBeforeMonth_one (y : Nat) : daysBeforeMonth y 1 = 0 := rfl

/-- The days up to the end of a year: the leap years among them are every fourth, less the centuries, with every fourth
    of those, and the year 0. -/
theorem daysBeforeYear_succ_eq (y : Nat) :
    daysBeforeYear (y + 1) + y / 100 = 365 * (y + 1) + y / 4 + y / 400 + 1 := by
  induction y with
  | zero => rfl
  | succ y ih =>
    rw [daysBeforeYear_succ, yearLength_eq]
    have hleap := @isLeap_iff (y + 1)
    split
    · next h =>
      have := hleap.mp h
      omega
    · next h =>
      have := mt hleap.mpr h
      omega

/-- The days before a month, of which those before March are the odd ones out. -/
theorem daysBeforeMonth_eq (hm : 1 ≤ m) (hm' : m ≤ 13) :
    daysBeforeMonth y m = if m ≤ 2 then 31 * (m - 1) else (153 * (m - 3) + 2) / 5 + 59 + if isLeap y then 1 else 0 := by
  induction m, hm using Nat.le_induction with
  | base => rfl
  | succ m hm ih =>
    have hlast : m ≤ 12 := Nat.le_of_succ_le_succ hm'
    rw [daysBeforeMonth_succ hm, ih (by omega)]
    clear ih hm'
    interval_cases m <;> cases hleap : isLeap y <;> simp [monthLength, hleap]

theorem daysBeforeMonth_thirteen (y : Nat) : daysBeforeMonth y 13 = yearLength y := by
  rw [daysBeforeMonth_eq (by decide) le_rfl, yearLength_eq]
  rfl

theorem daysBeforeYear_mono {z : Nat} (h : y ≤ z) : daysBeforeYear y ≤ daysBeforeYear z :=
  Finset.sum_le_sum_of_subset (Finset.range_mono h)

theorem daysBeforeMonth_mono {n : Nat} (h : m ≤ n) : daysBeforeMonth y m ≤ daysBeforeMonth y n :=
  Finset.sum_le_sum_of_subset (Finset.Ico_subset_Ico_right h)

/-! ### Dates -/

namespace Date

variable {d e : Date}

/-- The calendar's order. -/
instance : LT Date :=
  ⟨fun d e => d.year < e.year ∨ d.year = e.year ∧ (d.month < e.month ∨ d.month = e.month ∧ d.day < e.day)⟩

theorem lt_def : d < e ↔ d.year < e.year ∨ d.year = e.year ∧ (d.month < e.month ∨ d.month = e.month ∧ d.day < e.day) :=
  Iff.rfl

theorem lt_or_eq_or_lt (d e : Date) : d < e ∨ d = e ∨ e < d := by
  rw [lt_def, lt_def, Date.ext_iff]
  omega

/-- A date comes before the end of its month, -/
theorem number_lt_month (d : Date) : d.number < daysBeforeYear d.year + daysBeforeMonth d.year (d.month + 1) := by
  rw [daysBeforeMonth_succ d.month_pos, number]
  have := d.day_pos
  have := d.day_le
  omega

/-- and of its year. -/
theorem number_lt_year (d : Date) : d.number < daysBeforeYear (d.year + 1) := by
  have hmonth := d.number_lt_month
  have hle : daysBeforeMonth d.year (d.month + 1) ≤ daysBeforeMonth d.year 13 :=
    daysBeforeMonth_mono (Nat.succ_le_succ d.month_le)
  rw [daysBeforeMonth_thirteen] at hle
  rw [daysBeforeYear_succ]
  omega

theorem number_lt_of_lt (h : d < e) : d.number < e.number := by
  rcases lt_def.mp h with hy | ⟨hy, hm | ⟨hm, hd⟩⟩
  · calc d.number < daysBeforeYear (d.year + 1) := d.number_lt_year
      _ ≤ daysBeforeYear e.year := daysBeforeYear_mono hy
      _ ≤ e.number := by rw [number, Nat.add_assoc]; exact Nat.le_add_right _ _
  · calc d.number < daysBeforeYear d.year + daysBeforeMonth d.year (d.month + 1) := d.number_lt_month
      _ ≤ daysBeforeYear e.year + daysBeforeMonth e.year e.month := by
        rw [hy]
        exact Nat.add_le_add_left (daysBeforeMonth_mono hm) _
      _ ≤ e.number := Nat.le_add_right _ _
  · have := d.day_pos
    rw [number, number, hy, hm]
    omega

theorem number_lt_iff : d.number < e.number ↔ d < e := by
  refine ⟨fun h => ?_, number_lt_of_lt⟩
  rcases lt_or_eq_or_lt d e with hlt | rfl | hgt
  · exact hlt
  · exact absurd h (Nat.lt_irrefl _)
  · exact absurd h (number_lt_of_lt hgt).asymm

theorem number_injective : Function.Injective number := fun d e h => by
  rcases lt_or_eq_or_lt d e with hlt | heq | hgt
  · exact absurd h (number_lt_of_lt hlt).ne
  · exact heq
  · exact absurd h (number_lt_of_lt hgt).ne'

/-- The next day has the next number. -/
theorem number_next (d : Date) : d.next.number = d.number + 1 := by
  have hpos := d.day_pos
  have hle := d.day_le
  unfold next
  split
  · simp only [number]
    omega
  · have hlast : d.day = monthLength d.year d.month := by omega
    split
    · simp only [number, daysBeforeMonth_succ d.month_pos]
      omega
    · have hdec : d.month = 12 := by
        have := d.month_le
        omega
      have hyear : daysBeforeMonth d.year 12 + monthLength d.year 12 = yearLength d.year := by
        rw [← daysBeforeMonth_thirteen, daysBeforeMonth_succ (m := 12) (by decide)]
      rw [hdec] at hlast
      simp only [number, daysBeforeYear_succ, daysBeforeMonth_one, hdec]
      omega

/-- So the numbers count the days from any date. -/
theorem number_iterate_next (d : Date) (n : Nat) : (next^[n] d).number = d.number + n := by
  induction n with
  | zero => rfl
  | succ n ih => rw [Function.iterate_succ_apply', number_next, ih, Nat.add_assoc]

end Date

/-! ### Times of a day -/

/-- A second of the calendar, in UTC. -/
@[ext] structure DateTime where
  date : Date
  hour : Nat
  minute : Nat
  second : Nat
  hour_lt : hour < 24
  minute_lt : minute < 60
  second_lt : second < 60

def epoch : Date := ⟨1970, 1, 1, by decide, by decide, by decide, by decide⟩

namespace DateTime

variable {s t : DateTime}

def secondOfDay (t : DateTime) : Nat := t.hour * 3600 + t.minute * 60 + t.second

/-- The seconds from the epoch, without leap seconds. -/
def instant (t : DateTime) : Int := ((t.date.number : Int) - epoch.number) * 86400 + t.secondOfDay

theorem secondOfDay_lt (t : DateTime) : t.secondOfDay < 86400 := by
  have := t.hour_lt
  have := t.minute_lt
  have := t.second_lt
  unfold secondOfDay
  omega

/-- What a date and a time are written with, the largest unit first. -/
def fields (t : DateTime) : List Nat := [t.date.year, t.date.month, t.date.day, t.hour, t.minute, t.second]

theorem fields_lt_iff : s.fields < t.fields ↔
    s.date < t.date ∨ s.date = t.date ∧ s.secondOfDay < t.secondOfDay := by
  have := s.minute_lt
  have := s.second_lt
  have := t.minute_lt
  have := t.second_lt
  simp only [fields, List.cons_lt_cons_iff, Date.lt_def, Date.ext_iff, secondOfDay]
  simp only [List.lt_irrefl, and_false, or_false]
  omega

/-- The instants are in the order of the fields. -/
theorem instant_lt_iff : s.instant < t.instant ↔ s.fields < t.fields := by
  rw [fields_lt_iff, ← Date.number_lt_iff, ← Date.number_injective.eq_iff]
  have := s.secondOfDay_lt
  have := t.secondOfDay_lt
  unfold instant
  omega

theorem instant_injective : Function.Injective instant := fun s t h => by
  have hlt : ¬ s.fields < t.fields := fun hlt => (instant_lt_iff.mpr hlt).ne h
  have hgt : ¬ t.fields < s.fields := fun hgt => (instant_lt_iff.mpr hgt).ne' h
  have hfields : s.fields = t.fields := le_antisymm (not_lt.mp hgt) (not_lt.mp hlt)
  simp only [fields, List.cons.injEq] at hfields
  exact DateTime.ext (Date.ext hfields.1 hfields.2.1 hfields.2.2.1) hfields.2.2.2.1 hfields.2.2.2.2.1 hfields.2.2.2.2.2.1

/-- As many days after the epoch as have passed, and as many seconds into the day. -/
theorem passed {n : Nat} (h : t.instant = n) : t.date = Date.next^[n / 86400] epoch ∧ t.secondOfDay = n % 86400 := by
  have hlt := t.secondOfDay_lt
  unfold instant at h
  refine ⟨Date.number_injective ?_, by omega⟩
  rw [Date.number_iterate_next]
  omega

end DateTime

end Gregorian
