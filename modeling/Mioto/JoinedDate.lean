import Mioto.DatePattern
import Mioto.Screens
import Mioto.ServiceFrame

/-! The date that an account is stored with. Its formatter counts years by weeks, the one of
the Edit screen by the calendar. -/

namespace Mioto

open Calendar

/-- What `dateChanged` shows for the picker's date. -/
def EditProfileScreen.dateText (rules : WeekRules) (date : Date) : Option String :=
  stringFromDate rules "dd/MM/yyyy" date

namespace Service

/-- What `saveDataWithEmail:` stores for today. -/
def stringTime (rules : WeekRules) (today : Date) : Option String :=
  stringFromDate rules "dd/MM/YYYY" today

/-- The stored date has the year of the calendar exactly when the week of the date is counted
in that year: the date is neither in January before the first week of its year, nor in
December in the first week of the next. Such dates are told apart by what is stored. -/
theorem joined_date_iff {s : Service} {u : Uid} (hu : s.currentUser = some u) (rules : WeekRules)
    (today : Date) (email name dob gender img number fbLink emailLink : String) :
    ∃ t, stringTime rules today = some t ∧
      (((s.saveDataWithEmail t (some email) (some name) (some dob) (some gender) (some img)
          (some number) (some fbLink) (some emailLink)).1.users u).field .mUserJoinedDate =
          EditProfileScreen.dateText rules today ↔
        rules.InOwnYearWeek today) ∧
      ∀ rules' day, rules.InOwnYearWeek today → WeekRules.InOwnYearWeek rules' day →
        stringTime rules' day = some t → day = today := by
  refine ⟨_, stringFromDate_weekYear rules today, ?_, ?_⟩
  · rw [saveDataWithEmail_of_strings hu, ← rules.weekYear_eq_year_iff, EditProfileScreen.dateText,
      stringFromDate_calendarYear]
    simp [setRecord, savedRecord, dayMonthYear_inj]
  · intro rules' day htoday hday hsame
    rw [stringTime, stringFromDate_weekYear, Option.some.injEq, dayMonthYear_inj] at hsame
    obtain ⟨hd, hm, hy⟩ := hsame
    rw [(rules.weekYear_eq_year_iff today).mpr htoday,
      (rules'.weekYear_eq_year_iff day).mpr hday] at hy
    exact Date.ext hy hm hd

/-- Weeks start on Monday, and the one with 1 January is the first. -/
def mondayWeeks : WeekRules := ⟨2, 1, by decide, by decide⟩

def midYear : Date := ⟨2019, 6, 15, by decide, by decide, by decide⟩

theorem midYear_date_stored : ∃ t, stringTime mondayWeeks midYear = some t ∧
    (((launch (some "u") []).saveDataWithEmail t (some "u@mail.com") (some "u") (some unchosen)
      (some " ") (some "default.jpg") (some unchosen) (some "false") (some "true")).1.users
        "u").field .mUserJoinedDate = EditProfileScreen.dateText mondayWeeks midYear := by
  obtain ⟨t, ht, hiff, -⟩ := joined_date_iff (s := launch (some "u") []) rfl mondayWeeks midYear
    "u@mail.com" "u" unchosen " " "default.jpg" unchosen "false" "true"
  exact ⟨t, ht, hiff.mpr (by decide)⟩

def newYearsEve (year : Nat) (h : 1 ≤ year) : Date :=
  ⟨year, 12, 31, h, by decide, by decide, by simp [monthLength]⟩

/-- 31 December 2022 is a Saturday, and is stored as the Sunday a year later. -/
theorem newYearsEve_date_misstored :
    (¬ ∀ (s : Service) (u : Uid) rules today,
      ∀ email name dob gender img number fbLink emailLink : String,
      s.currentUser = some u → ∃ t, stringTime rules today = some t ∧
        ((s.saveDataWithEmail t (some email) (some name) (some dob) (some gender) (some img)
          (some number) (some fbLink) (some emailLink)).1.users u).field .mUserJoinedDate =
            EditProfileScreen.dateText rules today) ∧
      ¬ ∀ rules day day', stringTime rules day = stringTime rules day' → day = day' := by
  constructor
  · intro hall
    obtain ⟨t, ht, hstored⟩ := hall (launch (some "u") []) "u" mondayWeeks
      (newYearsEve 2022 (by decide)) "u@mail.com" "u" unchosen " " "default.jpg" unchosen "false"
      "true" rfl
    rw [saveDataWithEmail_of_strings rfl] at hstored
    have he : some t = EditProfileScreen.dateText mondayWeeks (newYearsEve 2022 (by decide)) := by
      simpa [setRecord, savedRecord] using hstored
    exact absurd (ht.trans he) (by decide)
  · intro hall
    have he := hall mondayWeeks (newYearsEve 2022 (by decide)) (newYearsEve 2023 (by decide))
      (by decide)
    exact absurd (congrArg Date.year he) (by decide)

end Service

end Mioto
