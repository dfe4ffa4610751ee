import Mioto.Calendar
import Mathlib.Data.List.Basic

/-! Date patterns: a run of one letter stands for a field of the date, in as many digits
at least. Only the numeric fields are here, and a pattern with any other has no result. -/

namespace Calendar

/-- `n` in decimal, with zeros before it up to the width. -/
def padded (width n : Nat) : List Char := (Nat.toDigits 10 n).leftpad width '0'

/-- Two letters stand for the last two digits of a year. -/
def paddedYear (width y : Nat) : List Char :=
  if width = 2 then padded 2 (y % 100) else padded width y

/-- The letters and the quote, which stands around text. -/
def reserved (c : Char) : Bool := c.isAlpha || c.toNat = 39

def runs : List Char → List (Char × Nat)
  | [] => []
  | c :: cs =>
    match runs cs with
    | (c', n) :: rs => if c = c' then (c, n + 1) :: rs else (c, 1) :: (c', n) :: rs
    | [] => [(c, 1)]

def field (rules : WeekRules) (d : Date) (c : Char) (width : Nat) : Option (List Char) :=
  if c = 'd' then some (padded width d.day)
  -- wider than two are the names of the month
  else if c = 'M' then if width ≤ 2 then some (padded width d.month) else none
  else if c = 'y' then some (paddedYear width d.year)
  else if c = 'Y' then some (paddedYear width (rules.weekYear d))
  else if reserved c then none
  else some (List.replicate width c)

def stringFromDate (rules : WeekRules) (pattern : String) (d : Date) : Option String :=
  ((runs pattern.toList).mapM fun r => field rules d r.1 r.2).map fun fs => .ofList fs.flatten

/-! ### Digits -/

theorem ofDigitChars_padded (width n : Nat) : Nat.ofDigitChars 10 (padded width n) 0 = n := by
  simp [padded, List.leftpad, Nat.ofDigitChars_append]

theorem padded_injective (width : Nat) : Function.Injective (padded width) := by
  intro n n' h
  have hv := congrArg (Nat.ofDigitChars 10 · 0) h
  simpa only [ofDigitChars_padded] using hv

theorem length_padded {n : Nat} (hn : n < 100) : (padded 2 n).length = 2 := by
  have hl : (Nat.toDigits 10 n).length ≤ 2 :=
    (Nat.length_toDigits_le_iff (by decide) (by decide)).mpr hn
  rw [padded, List.length_leftpad]
  omega

/-! ### Day, month and year -/

/-- The day and the month of a date in two digits, and the year `y` in four or more. -/
def dayMonthYear (d : Date) (y : Nat) : String :=
  .ofList (padded 2 d.day ++ '/' :: (padded 2 d.month ++ '/' :: padded 4 y))

theorem dayMonthYear_inj {d d' : Date} {y y' : Nat} :
    dayMonthYear d y = dayMonthYear d' y' ↔ d.day = d'.day ∧ d.month = d'.month ∧ y = y' := by
  constructor
  · intro h
    have hlen : ∀ n ≤ 31, (padded 2 n).length = 2 := fun n hn => length_padded (by omega)
    obtain ⟨hday, hrest⟩ := List.append_inj (String.ofList_injective h)
      ((hlen _ d.day_le).trans (hlen _ d'.day_le).symm)
    obtain ⟨hmonth, hyear⟩ := List.append_inj (List.cons.inj hrest).2
      ((hlen _ (d.month_mem.2.trans (by decide))).trans
        (hlen _ (d'.month_mem.2.trans (by decide))).symm)
    exact ⟨padded_injective 2 hday, padded_injective 2 hmonth,
      padded_injective 4 (List.cons.inj hyear).2⟩
  · rintro ⟨hday, hmonth, rfl⟩
    rw [dayMonthYear, hday, hmonth]
    rfl

variable (rules : WeekRules) (d : Date)

theorem stringFromDate_calendarYear :
    stringFromDate rules "dd/MM/yyyy" d = some (dayMonthYear d d.year) := by
  have hr : runs "dd/MM/yyyy".toList = [('d', 2), ('/', 1), ('M', 2), ('/', 1), ('y', 4)] := by
    decide
  rw [stringFromDate, hr]
  simp [field, paddedYear, reserved, dayMonthYear]

theorem stringFromDate_weekYear :
    stringFromDate rules "dd/MM/YYYY" d = some (dayMonthYear d (rules.weekYear d)) := by
  have hr : runs "dd/MM/YYYY".toList = [('d', 2), ('/', 1), ('M', 2), ('/', 1), ('Y', 4)] := by
    decide
  rw [stringFromDate, hr]
  simp [field, paddedYear, reserved, dayMonthYear]

end Calendar
