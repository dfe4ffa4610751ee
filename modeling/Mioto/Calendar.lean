import Mathlib.Order.Monotone.Basic

/-! Gregorian dates of the common era and the weeks of a year. Days are numbered from
1 January of year 1, which is day 1 and a Monday. -/

namespace Calendar

def leap (y : Int) : Bool := y % 4 = 0 ∧ (y % 100 ≠ 0 ∨ y % 400 = 0)

def monthLength (y : Int) (m : Nat) : Nat :=
  if m = 2 then if leap y then 29 else 28
  else if m = 4 ∨ m = 6 ∨ m = 9 ∨ m = 11 then 30
  else 31

@[ext]
structure Date where
  year : Nat
  month : Nat
  day : Nat
  year_pos : 1 ≤ year
  month_mem : 1 ≤ month ∧ month ≤ 12
  day_mem : 1 ≤ day ∧ day ≤ monthLength year month

/-- The days of the year before the month `m`. -/
def daysBefore (y : Int) : Nat → Nat
  | 0 | 1 => 0
  | m + 2 => daysBefore y (m + 1) + monthLength y (m + 1)

/-- The number of 1 January. -/
def newYear (y : Int) : Int := 365 * (y - 1) + (y - 1) / 4 - (y - 1) / 100 + (y - 1) / 400 + 1

def Date.number (d : Date) : Int := newYear d.year + daysBefore d.year d.month + d.day - 1

/-- From 1 for a Sunday to 7 for a Saturday. -/
def weekday (n : Int) : Int := n % 7 + 1

example : weekday (Date.number ⟨2000, 1, 1, by decide, by decide, by decide⟩) = 7 := by decide

/-- Where weeks start, and how many days of a year its first week has at least. -/
structure WeekRules where
  firstWeekday : Int
  minimalDays : Int
  firstWeekday_mem : 1 ≤ firstWeekday ∧ firstWeekday ≤ 7
  minimalDays_mem : 1 ≤ minimalDays ∧ minimalDays ≤ 7

/-- The days of the week before the day `n`. -/
def WeekRules.daysInto (rules : WeekRules) (n : Int) : Int := (weekday n - rules.firstWeekday) % 7

/-- The number of the day on which the first week of `y` starts. -/
def WeekRules.firstWeek (rules : WeekRules) (y : Int) : Int :=
  newYear y - rules.daysInto (newYear y) +
    if rules.minimalDays ≤ 7 - rules.daysInto (newYear y) then 0 else 7

/-- The year that the week of a date is counted in. -/
def WeekRules.weekYear (rules : WeekRules) (d : Date) : Nat :=
  if d.number < rules.firstWeek d.year then d.year - 1
  else if rules.firstWeek (d.year + 1) ≤ d.number then d.year + 1
  else d.year

/-! ### Years -/

theorem daysBefore_december (y : Int) : daysBefore y 12 = if leap y then 335 else 334 := by
  cases h : leap y <;> simp [daysBefore, monthLength, h]

theorem newYear_succ (y : Int) : newYear (y + 1) = newYear y + (daysBefore y 12 + 31) := by
  rw [daysBefore_december]
  simp only [newYear, leap, decide_eq_true_eq]
  split_ifs <;> omega

theorem daysBefore_le {m m' : Nat} (h : m ≤ m') (y : Int) : daysBefore y m ≤ daysBefore y m' := by
  induction m', h using Nat.le_induction with
  | base => exact le_rfl
  | succ m' hm ih =>
    cases m' with
    | zero => exact ih
    | succ m' => exact ih.trans (Nat.le_add_right ..)

theorem Date.number_january {d : Date} (h : d.month = 1) :
    d.number = newYear d.year + d.day - 1 := by
  simp [Date.number, h, daysBefore]

theorem Date.number_december {d : Date} (h : d.month = 12) :
    d.number = newYear (d.year + 1) + d.day - 32 := by
  rw [newYear_succ, Date.number, h]
  omega

/-- From February to November both new years are more than a month away. -/
theorem Date.number_between {d : Date} (h1 : d.month ≠ 1) (h12 : d.month ≠ 12) :
    newYear d.year + 31 ≤ d.number ∧ d.number + 32 ≤ newYear (d.year + 1) := by
  obtain ⟨hm, hm'⟩ := d.month_mem
  have hfeb : daysBefore d.year 2 ≤ daysBefore d.year d.month := daysBefore_le (by omega) _
  have hnext : daysBefore d.year (d.month + 1) ≤ daysBefore d.year 12 :=
    daysBefore_le (by omega) _
  have hsucc : daysBefore d.year (d.month + 1) =
      daysBefore d.year d.month + monthLength d.year d.month := by
    obtain ⟨m, hm⟩ : ∃ m, d.month = m + 1 := ⟨d.month - 1, by omega⟩
    rw [hm]
    rfl
  have hjan : daysBefore d.year 2 = 31 := rfl
  have hday := d.day_mem
  rw [newYear_succ, Date.number]
  omega

theorem Date.newYear_le_number (d : Date) : newYear d.year ≤ d.number := by
  have hd := d.day_mem
  rw [Date.number]
  omega

theorem Date.day_le (d : Date) : d.day ≤ 31 := by
  refine d.day_mem.2.trans ?_
  unfold monthLength
  split_ifs <;> decide

theorem Date.number_lt_newYear (d : Date) : d.number < newYear (d.year + 1) := by
  have hd := d.day_le
  by_cases h12 : d.month = 12
  · rw [number_december h12]
    omega
  by_cases h1 : d.month = 1
  · have hdec := daysBefore_december d.year
    rw [number_january h1, newYear_succ]
    split_ifs at hdec <;> omega
  · have hb := number_between h1 h12
    omega

/-! ### Weeks -/

namespace WeekRules

variable (rules : WeekRules)

theorem daysInto_mem (n : Int) : 0 ≤ rules.daysInto n ∧ rules.daysInto n < 7 := by
  unfold daysInto
  omega

theorem firstWeek_mem (y : Int) :
    newYear y - 6 ≤ rules.firstWeek y ∧ rules.firstWeek y ≤ newYear y + 6 := by
  have hi := rules.daysInto_mem (newYear y)
  have hm := rules.minimalDays_mem
  unfold firstWeek
  split_ifs <;> omega

theorem firstWeek_lt_succ (y : Int) : rules.firstWeek y < rules.firstWeek (y + 1) := by
  have h := (rules.firstWeek_mem y).2
  have h' := (rules.firstWeek_mem (y + 1)).1
  have hdec := daysBefore_december y
  rw [newYear_succ] at h'
  split_ifs at hdec <;> omega

theorem firstWeek_lt_iff {y y' : Int} : rules.firstWeek y < rules.firstWeek y' ↔ y < y' :=
  (strictMono_int_of_lt_succ rules.firstWeek_lt_succ).lt_iff_lt

theorem weekYear_mem (d : Date) : rules.firstWeek (rules.weekYear d) ≤ d.number ∧
    d.number < rules.firstWeek (rules.weekYear d + 1) := by
  have hn := d.newYear_le_number
  have hn' := d.number_lt_newYear
  have hy := d.year_pos
  unfold weekYear
  split_ifs with hlt hle
  · have hprev := (rules.firstWeek_mem (d.year - 1)).2
    have hdec := daysBefore_december (d.year - 1)
    have hsucc := newYear_succ (d.year - 1)
    rw [Int.sub_add_cancel] at hsucc
    rw [show ((d.year - 1 : Nat) : Int) = d.year - 1 by omega, Int.sub_add_cancel]
    split_ifs at hdec <;> omega
  · have hnext := (rules.firstWeek_mem (d.year + 1 + 1)).1
    have hdec := daysBefore_december (d.year + 1)
    rw [newYear_succ] at hnext
    rw [show ((d.year + 1 : Nat) : Int) = d.year + 1 by omega]
    split_ifs at hdec <;> omega
  · omega

/-- The year of the week is the one whose weeks the date lies in. -/
theorem weekYear_eq_iff {d : Date} {y : Nat} : rules.weekYear d = y ↔
    rules.firstWeek y ≤ d.number ∧ d.number < rules.firstWeek (y + 1) := by
  constructor
  · rintro rfl
    exact rules.weekYear_mem d
  · rintro ⟨hle, hlt⟩
    obtain ⟨hle', hlt'⟩ := rules.weekYear_mem d
    have h1 := rules.firstWeek_lt_iff.mp (hle.trans_lt hlt')
    have h2 := rules.firstWeek_lt_iff.mp (hle'.trans_lt hlt)
    omega

/-- A day of January in the week of 1 January, which has too few days in the year. -/
def InOldYearWeek (d : Date) : Prop :=
  d.month = 1 ∧ d.day + rules.daysInto (newYear d.year) ≤ 7 ∧
    7 - rules.daysInto (newYear d.year) < rules.minimalDays

/-- A day of December in the week of the next 1 January, which has enough days in the
next year. -/
def InNewYearWeek (d : Date) : Prop :=
  d.month = 12 ∧ 31 < d.day + rules.daysInto (newYear (d.year + 1)) ∧
    rules.minimalDays ≤ 7 - rules.daysInto (newYear (d.year + 1))

instance (d : Date) : Decidable (rules.InOldYearWeek d) := inferInstanceAs (Decidable (_ ∧ _ ∧ _))

instance (d : Date) : Decidable (rules.InNewYearWeek d) := inferInstanceAs (Decidable (_ ∧ _ ∧ _))

/-- No new year takes the week of the date to another year. -/
def InOwnYearWeek (d : Date) : Prop := ¬ rules.InOldYearWeek d ∧ ¬ rules.InNewYearWeek d

instance (d : Date) : Decidable (rules.InOwnYearWeek d) := inferInstanceAs (Decidable (_ ∧ _))

theorem firstWeek_le_iff (d : Date) :
    rules.firstWeek d.year ≤ d.number ↔ ¬ rules.InOldYearWeek d := by
  have hi := rules.daysInto_mem (newYear d.year)
  have hm := rules.minimalDays_mem
  have hd := d.day_mem
  have hf := (rules.firstWeek_mem d.year).2
  by_cases h1 : d.month = 1
  · rw [d.number_january h1, InOldYearWeek, firstWeek]
    split_ifs <;> omega
  by_cases h12 : d.month = 12
  · have hdec := daysBefore_december d.year
    refine iff_of_true ?_ fun h => h1 h.1
    rw [Date.number, h12]
    split_ifs at hdec <;> omega
  · have hb := d.number_between h1 h12
    exact iff_of_true (by omega) fun h => h1 h.1

theorem lt_firstWeek_succ_iff (d : Date) :
    d.number < rules.firstWeek (d.year + 1) ↔ ¬ rules.InNewYearWeek d := by
  have hi := rules.daysInto_mem (newYear (d.year + 1))
  have hm := rules.minimalDays_mem
  have hd := d.day_le
  have hf := (rules.firstWeek_mem (d.year + 1)).1
  by_cases h12 : d.month = 12
  · rw [d.number_december h12, InNewYearWeek, firstWeek]
    split_ifs <;> omega
  by_cases h1 : d.month = 1
  · have hdec := daysBefore_december d.year
    refine iff_of_true ?_ fun h => h12 h.1
    rw [newYear_succ] at hf
    rw [d.number_january h1]
    split_ifs at hdec <;> omega
  · have hb := d.number_between h1 h12
    exact iff_of_true (by omega) fun h => h12 h.1

/-- The week of a date is counted in its own year except around the new year. -/
theorem weekYear_eq_year_iff (d : Date) :
    rules.weekYear d = d.year ↔ rules.InOwnYearWeek d := by
  rw [weekYear_eq_iff, firstWeek_le_iff, lt_firstWeek_succ_iff, InOwnYearWeek]

end WeekRules

end Calendar
