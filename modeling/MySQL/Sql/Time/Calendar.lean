import MySQL.Lib.Calendar

/-!
# Dates and the numbers of days

The number of a date is a formula with corrections for the centuries.  The date is found again from
an estimate of the year, which may be too early.
-/

namespace MySQL.Sql

/-- `calc_daynr`.  The year may be negative temporarily. -/
def calcDaynr (year month day : ℕ) : ℤ :=
  if year = 0 ∧ month = 0 then 0
  else
    let delsum : ℤ := 365 * year + 31 * ((month : ℤ) - 1) + day
    let (y, delsum) : ℤ × ℤ :=
      if month ≤ 2 then ((year : ℤ) - 1, delsum)
      else (year, delsum - Int.tdiv ((month : ℤ) * 4 + 23) 10)
    let temp := Int.tdiv ((Int.tdiv y 100 + 1) * 3) 4
    delsum + Int.tdiv y 4 - temp

/-- `days_in_month`. -/
def daysInMonth : List ℕ := [31, 28, 31, 30, 31, 30, 31, 31, 30, 31, 30, 31]

/-- `calc_days_in_year(year) == 366`. -/
def isLeapYear (year : ℕ) : Bool := year % 4 = 0 ∧ (year % 100 ≠ 0 ∨ (year % 400 = 0 ∧ year ≠ 0))

def calcDaysInYear (year : ℕ) : ℕ := if isLeapYear year then 366 else 365

theorem calcDaysInYear_pos (year : ℕ) : 0 < calcDaysInYear year := by
  unfold calcDaysInYear
  split <;> decide

def findYear (year dayOfYear : ℕ) : ℕ × ℕ :=
  if dayOfYear > calcDaysInYear year then findYear (year + 1) (dayOfYear - calcDaysInYear year)
  else (year, dayOfYear)
termination_by dayOfYear
decreasing_by
  have hpos := calcDaysInYear_pos year
  omega

def findMonth : List ℕ → ℕ → ℕ → ℕ × ℕ
  | [], month, dayOfYear => (month, dayOfYear)
  | length :: lengths, month, dayOfYear =>
    if dayOfYear > length then findMonth lengths (month + 1) (dayOfYear - length)
    else (month, dayOfYear)

def monthOfDay (daysInYear dayOfYear : ℕ) : ℕ × ℕ :=
  let (dayOfYear, leapDay) :=
    if daysInYear = 366 ∧ dayOfYear > 31 + 28 then
      (dayOfYear - 1, if dayOfYear - 1 = 31 + 28 then 1 else 0)
    else (dayOfYear, 0)
  let (month, day) := findMonth daysInMonth 1 dayOfYear
  (month, day + leapDay)

/-- `get_date_from_daynr`.  The number of the day in the year is a `uint`. -/
def getDateFromDaynr (daynr : ℤ) : ℕ × ℕ × ℕ :=
  if daynr ≤ 365 ∨ daynr ≥ 3652500 then (0, 0, 0)
  else
    let year := (daynr * 100 / 36525).toNat
    let temp := ((year - 1) / 100 + 1) * 3 / 4
    let dayOfYear := ((daynr - year * 365 - ((year - 1) / 4 : ℕ) + temp) % 4294967296).toNat
    let (year, dayOfYear) := findYear year dayOfYear
    let (month, day) := monthOfDay (calcDaysInYear year) dayOfYear
    (year, month, day)

/-! ## The number of a date -/

theorem calcDaynr_of_pos {year month day : ℕ} (h : 0 < year) :
    calcDaynr year month day = 365 * year + 31 * ((month : ℤ) - 1) + day +
      if month ≤ 2 then ((year : ℤ) - 1) / 4 - ((((year : ℤ) - 1) / 100 + 1) * 3) / 4
      else (year : ℤ) / 4 - (((year : ℤ) / 100 + 1) * 3) / 4 - ((month : ℤ) * 4 + 23) / 10 := by
  have hzero : ¬ (year = 0 ∧ month = 0) := fun hy => h.ne' hy.1
  simp only [calcDaynr, if_neg hzero]
  split_ifs with hm
  · rw [Int.tdiv_eq_ediv_of_nonneg (by omega),
      Int.tdiv_eq_ediv_of_nonneg (a := (year : ℤ) - 1) (by omega),
      Int.tdiv_eq_ediv_of_nonneg (by omega)]
    omega
  · rw [Int.tdiv_eq_ediv_of_nonneg (a := (year : ℤ)) (by omega),
      Int.tdiv_eq_ediv_of_nonneg (a := (year : ℤ)) (by omega),
      Int.tdiv_eq_ediv_of_nonneg (by omega),
      Int.tdiv_eq_ediv_of_nonneg (by omega)]
    omega

open Lib Calendar

variable {year month day dayOfYear : ℕ} {n : ℤ}

theorem isLeapYear_eq (h : 0 < year) : isLeapYear year = isLeap year := by
  unfold isLeapYear isLeap
  rw [decide_eq_decide]
  omega

theorem calcDaysInYear_eq (h : 0 < year) : (calcDaysInYear year : ℤ) = yearLength year := by
  rw [calcDaysInYear, isLeapYear_eq h, yearLength]
  split <;> rfl

theorem monthStart_eq (leap : Bool) (hmonth : 1 ≤ month ∧ month ≤ 12) :
    (monthStart leap month : ℤ) = 31 * ((month : ℤ) - 1) -
      if month ≤ 2 then 0 else ((month : ℤ) * 4 + 23) / 10 - if leap then 1 else 0 := by
  obtain ⟨hlow, hhigh⟩ := hmonth
  cases leap <;> interval_cases month <;> decide

theorem century_eq (y : ℤ) : (y / 100 + 1) * 3 / 4 = y / 100 - y / 400 := by
  omega

theorem calcDaynr_eq (day : ℕ) (hyear : 0 < year) (hmonth : 1 ≤ month ∧ month ≤ 12) :
    calcDaynr year month day = dayNumber year month day + 365 := by
  rw [calcDaynr_of_pos hyear, century_eq, century_eq, dayNumber, monthStart_eq _ hmonth]
  by_cases hm : month ≤ 2
  · simp only [hm, if_true, yearStart]
    omega
  · have hsucc := yearStart_succ year
    simp only [hm, if_false, yearStart, yearLength, add_sub_cancel_right]
      at hsucc ⊢
    cases hleap : isLeap year with
    | false =>
      simp only [hleap, Bool.false_eq_true, if_false] at hsucc ⊢
      linarith
    | true =>
      simp only [hleap, if_true] at hsucc ⊢
      linarith

/-! ## The date of a number -/

theorem findYear_spec (hyear : 0 < year) (hday : 0 < dayOfYear)
    (hn : n = yearStart year + dayOfYear) :
    ∃ y d : ℕ, findYear year dayOfYear = (y, d) ∧ 0 < y ∧ 0 < d ∧ d ≤ calcDaysInYear y ∧
      n = yearStart y + d := by
  induction year, dayOfYear using findYear.induct with
  | case1 year dayOfYear hgt ih =>
    rw [findYear, if_pos hgt]
    refine ih (Nat.succ_pos _) (by omega) ?_
    have hlength := calcDaysInYear_eq hyear
    rw [Nat.cast_succ, yearStart_succ]
    omega
  | case2 year dayOfYear hle =>
    rw [findYear, if_neg hle]
    exact ⟨year, dayOfYear, rfl, hyear, hday, Nat.le_of_not_lt hle, hn⟩

theorem monthOfDay_spec (leap : Bool) (hday : 0 < dayOfYear)
    (hle : dayOfYear ≤ if leap then 366 else 365) :
    let r := monthOfDay (if leap then 366 else 365) dayOfYear
    Calendar.IsDay leap r.1 r.2 ∧ monthStart leap r.1 + r.2 = dayOfYear := by
  have hall : ∀ leap : Bool, ∀ k < 367, 0 < k → k ≤ (if leap then 366 else 365) →
      let r := monthOfDay (if leap then 366 else 365) k
      Calendar.IsDay leap r.1 r.2 ∧ monthStart leap r.1 + r.2 = k := by
    decide +kernel
  refine hall leap dayOfYear ?_ hday hle
  split at hle <;> omega

theorem dayOfYear_eq {y : ℕ} (hy : n * 100 / 36525 = y) (hlow : 366 ≤ n) (hhigh : n < 3652500) :
    ∃ d : ℕ, ((n - y * 365 - ((y - 1) / 4 : ℕ) + (((y - 1) / 100 + 1) * 3 / 4 : ℕ)) %
        4294967296).toNat = d ∧ 0 < d ∧ n - 365 = yearStart y + d := by
  have hcentury := century_eq ((y : ℤ) - 1)
  have hsub : ((y - 1 : ℕ) : ℤ) = (y : ℤ) - 1 := by omega
  have hcast : (((y - 1) / 100 + 1) * 3 / 4 : ℕ) = (((y : ℤ) - 1) / 100 + 1) * 3 / 4 := by
    rw [← hsub]
    rfl
  have hcast' : ((y - 1) / 4 : ℕ) = ((y : ℤ) - 1) / 4 := by omega
  have hday : 0 < n - 365 - yearStart y ∧ n - 365 - yearStart y < 4294967296 := by
    rw [yearStart]
    omega
  have heq : n - y * 365 - ((y - 1) / 4 : ℕ) + (((y - 1) / 100 + 1) * 3 / 4 : ℕ) =
      n - 365 - yearStart y := by
    rw [hcast, yearStart]
    linarith
  refine ⟨(n - 365 - yearStart y).toNat, ?_, by omega, by omega⟩
  rw [heq, Int.emod_eq_of_lt hday.1.le hday.2]

theorem getDateFromDaynr_spec (hlow : 366 ≤ n) (hhigh : n < 3652500) :
    ∃ y m d : ℕ, getDateFromDaynr n = (y, m, d) ∧ 0 < y ∧ Calendar.IsDay (isLeap y) m d ∧
      dayNumber y m d + 365 = n := by
  have hrange : ¬ (n ≤ 365 ∨ n ≥ 3652500) := by omega
  -- The estimate is the year in a calendar where every fourth year is a leap year.
  obtain ⟨estimate, hestimate⟩ : ∃ y : ℕ, n * 100 / 36525 = y :=
    ⟨(n * 100 / 36525).toNat, by omega⟩
  obtain ⟨first, hfirst, hpos, hstart⟩ := dayOfYear_eq hestimate hlow hhigh
  obtain ⟨y, day, hfind, hy, hday, hle, hn⟩ := findYear_spec (by omega) hpos hstart
  rw [calcDaysInYear, isLeapYear_eq hy] at hle
  obtain ⟨hdate, hmonth⟩ := monthOfDay_spec (isLeap y) hday hle
  refine ⟨y, _, _, ?_, hy, hdate, ?_⟩
  · simp only [getDateFromDaynr, if_neg hrange, hestimate, Int.toNat_natCast, hfirst, hfind,
      calcDaysInYear, isLeapYear_eq hy]
  · rw [dayNumber]
    omega

theorem monthOfDay_monthStart {leap : Bool} {m d : ℕ} (hdate : Calendar.IsDay leap m d) :
    monthOfDay (if leap then 366 else 365) (monthStart leap m + d) = (m, d) := by
  have hall : ∀ leap : Bool, ∀ m < 13, ∀ d < 32, Calendar.IsDay leap m d →
      monthOfDay (if leap then 366 else 365) (monthStart leap m + d) = (m, d) := by
    decide +kernel
  have hlength : ∀ leap : Bool, ∀ m < 13, monthLength leap m < 32 := by decide
  have hm : m < 13 := by
    have := hdate.2.1
    omega
  exact hall leap m hm d (hdate.2.2.2.trans_lt (hlength leap m hm)) hdate

theorem dayNumber_inj {y y' m m' d d' : ℕ} (hdate : Calendar.IsDay (isLeap y) m d)
    (hdate' : Calendar.IsDay (isLeap y') m' d')
    (h : dayNumber y m d = dayNumber y' m' d') : (y, m, d) = (y', m', d') := by
  have hbounds := dayNumber_bounds hdate
  have hbounds' := dayNumber_bounds hdate'
  rw [← h] at hbounds'
  obtain rfl : y = y' := Int.natCast_inj.mp (year_unique hbounds hbounds')
  have hsum : monthStart (isLeap y) m + d =
      monthStart (isLeap y) m' + d' := by
    unfold dayNumber at h
    omega
  rw [← monthOfDay_monthStart hdate, hsum, monthOfDay_monthStart hdate']

def IsDate (y m d : ℕ) : Prop := 1 ≤ y ∧ y ≤ 9999 ∧ Calendar.IsDay (isLeapYear y) m d

theorem IsDate.isDay {y m d : ℕ} (h : IsDate y m d) : Calendar.IsDay (isLeap y) m d := by
  rw [← isLeapYear_eq h.1]
  exact h.2.2

theorem IsDate.calcDaynr_bounds {y m d : ℕ} (h : IsDate y m d) :
    calcDaynr y m d = dayNumber y m d + 365 ∧ 366 ≤ calcDaynr y m d ∧
      calcDaynr y m d ≤ 3652424 := by
  have hday := h.isDay
  obtain ⟨hlow, hhigh⟩ := dayNumber_bounds hday
  have hyear := h.1
  have hyear' := h.2.1
  have hfirst : yearStart 1 ≤ yearStart y := yearStart_mono (by omega)
  have hlast : yearStart (y + 1) ≤ yearStart 10000 :=
    yearStart_mono (by omega)
  have hone : yearStart 1 = 0 := by decide
  have hend : yearStart 10000 = 3652059 := by decide
  have heq := calcDaynr_eq d h.1 ⟨hday.1, hday.2.1⟩
  omega

/-- The two conversions are inverse to each other, and numbers go on from day to day. -/
theorem getDateFromDaynr_calcDaynr :
    (∀ y m d : ℕ, IsDate y m d → getDateFromDaynr (calcDaynr y m d) = (y, m, d)) ∧
      (∀ y m d : ℕ, IsDate y m d →
        let next := nextDay (isLeapYear y) m d
        calcDaynr (y + next.1) next.2.1 next.2.2 = calcDaynr y m d + 1) ∧
      ∀ n : ℤ, 366 ≤ n → n ≤ 3652424 →
        calcDaynr (getDateFromDaynr n).1 (getDateFromDaynr n).2.1 (getDateFromDaynr n).2.2 = n := by
  refine ⟨fun y m d h => ?_, fun y m d h => ?_, fun n hlow hhigh => ?_⟩
  · obtain ⟨heq, hlow, hhigh⟩ := h.calcDaynr_bounds
    obtain ⟨y', m', d', hdate, hy', hday, hn⟩ := getDateFromDaynr_spec hlow (by omega)
    rw [hdate]
    exact dayNumber_inj hday h.isDay (by omega)
  · have hday := h.isDay
    have hnext := dayNumber_nextDay hday
    obtain ⟨heq, -, -⟩ := h.calcDaynr_bounds
    dsimp only
    rw [isLeapYear_eq h.1, calcDaynr_eq _ (by have := h.1; omega) (month_nextDay hday)]
    push_cast
    omega
  · obtain ⟨y, m, d, hdate, hy, hday, hn⟩ := getDateFromDaynr_spec hlow (by omega)
    rw [hdate, calcDaynr_eq _ hy ⟨hday.1, hday.2.1⟩, hn]

theorem getDateFromDaynr_calcDaynr_leap_day :
    IsDate 2000 2 29 ∧ getDateFromDaynr (calcDaynr 2000 2 29) = (2000, 2, 29) ∧
      calcDaynr 2000 3 1 = calcDaynr 2000 2 29 + 1 ∧
      calcDaynr (getDateFromDaynr 366).1 (getDateFromDaynr 366).2.1 (getDateFromDaynr 366).2.2 =
        366 := by
  have hdate : IsDate 2000 2 29 := ⟨by decide, by decide, by decide⟩
  exact ⟨hdate, getDateFromDaynr_calcDaynr.1 2000 2 29 hdate,
    getDateFromDaynr_calcDaynr.2.1 2000 2 29 hdate,
    getDateFromDaynr_calcDaynr.2.2 366 (by decide) (by decide)⟩

end MySQL.Sql
