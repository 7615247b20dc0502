import MySQL.Sql.Time.Calendar

/-!
# The numbers of weeks

A week belongs to one year as a whole, and is counted from the first week of that year on.
-/

namespace MySQL.Sql

/-- The bits of `week_behaviour`. -/
structure WeekMode where
  mondayFirst : Bool
  weekYear : Bool
  firstWeekday : Bool

/-- `calc_weekday`. -/
def calcWeekday (daynr : ℤ) (sundayFirst : Bool) : ℤ :=
  (daynr + 5 + if sundayFirst then 1 else 0) % 7

namespace WeekMode

variable (mode : WeekMode)

def weekday (daynr : ℤ) : ℤ := calcWeekday daynr !mode.mondayFirst

/-- A year that begins at this weekday does not begin with its first week. -/
def StartsLate (weekday : ℤ) : Prop :=
  mode.firstWeekday = true ∧ weekday ≠ 0 ∨ mode.firstWeekday = false ∧ weekday ≥ 4

instance (weekday : ℤ) : Decidable (mode.StartsLate weekday) :=
  inferInstanceAs (Decidable (_ ∨ _))

/-- `calc_week` for a positive year: the week, and the year it belongs to. -/
def calcWeek (year month day : ℕ) : ℤ × ℕ :=
  let daynr := calcDaynr year month day
  let first := calcDaynr year 1 1
  let weekday := mode.weekday first
  let inFirst := month = 1 ∧ day ≤ 7 - weekday
  if inFirst ∧ mode.weekYear = false ∧ mode.StartsLate weekday then (0, year)
  else
    let weekYear := mode.weekYear = true ∨ inFirst
    let (year, first, weekday) : ℕ × ℤ × ℤ :=
      if inFirst then
        let days := calcDaysInYear (year - 1)
        (year - 1, first - days, (weekday + 53 * 7 - days) % 7)
      else (year, first, weekday)
    -- The days are a `uint`.
    let days := (if mode.StartsLate weekday then daynr - (first + (7 - weekday))
      else daynr - (first - weekday)) % 4294967296
    if weekYear ∧ days ≥ 52 * 7 ∧ ¬ mode.StartsLate ((weekday + calcDaysInYear year) % 7) then
      (1, year + 1)
    else (days / 7 + 1, year)

/-! ## The weeks of a year -/

/-- The first day of a week. -/
def weekStart (daynr : ℤ) : ℤ := daynr - mode.weekday daynr

/-- The week that begins at the day `start` has its first day in the year, or at least four days. -/
def Qualifies (year : ℕ) (start : ℤ) : Prop :=
  if mode.firstWeekday then calcDaynr year 1 1 ≤ start ∧ start < calcDaynr (year + 1) 1 1
  else 4 ≤ min (start + 7) (calcDaynr (year + 1) 1 1) - max start (calcDaynr year 1 1)

/-- The day `start` is the first one of week 1. -/
def IsFirstWeek (year : ℕ) (start : ℤ) : Prop :=
  IsLeast {s | mode.weekStart s = s ∧ mode.Qualifies year s} start

def firstWeek (year : ℕ) : ℤ :=
  let first := calcDaynr year 1 1
  if mode.StartsLate (mode.weekday first) then first + 7 - mode.weekday first
  else first - mode.weekday first

variable {mode} {year month day y m d : ℕ} {n : ℤ}

open Lib Calendar

section

variable (mode : WeekMode)

theorem weekday_eq : ∃ s : ℤ, (s = 0 ∨ s = 1) ∧ ∀ n, mode.weekday n = (n + 5 + s) % 7 := by
  refine ⟨if !mode.mondayFirst then 1 else 0, ?_, fun n => rfl⟩
  split
  · exact .inr rfl
  · exact .inl rfl

theorem startsLate_iff : ∃ t : ℤ, (t = 1 ∨ t = 4) ∧ ∀ n, mode.StartsLate (n % 7) ↔ t ≤ n % 7 := by
  unfold StartsLate
  cases mode.firstWeekday with
  | true => exact ⟨1, .inl rfl, fun n => by simp; omega⟩
  | false => exact ⟨4, .inr rfl, fun n => by simp⟩

theorem calcDaynr_first (h : 0 < year) : calcDaynr year 1 1 = yearStart year + 366 := by
  rw [calcDaynr_eq 1 h (by decide), dayNumber]
  have hone : monthStart (isLeap year) 1 = 0 := by cases isLeap year <;> rfl
  omega

theorem calcDaynr_succ (year : ℕ) :
    calcDaynr (year + 1) 1 1 = calcDaynr year 1 1 + calcDaysInYear year := by
  rcases Nat.eq_zero_or_pos year with rfl | hpos
  · decide
  · rw [calcDaynr_first hpos, calcDaynr_first (Nat.succ_pos year), calcDaysInYear_eq hpos,
      Nat.cast_succ, yearStart_succ]
    omega

theorem calcDaysInYear_cases (year : ℕ) :
    calcDaysInYear year = 365 ∨ calcDaysInYear year = 366 := by
  unfold calcDaysInYear
  split
  · exact .inr rfl
  · exact .inl rfl

theorem isFirstWeek_firstWeek (year : ℕ) : mode.IsFirstWeek year (mode.firstWeek year) := by
  obtain ⟨s, hs, hweekday⟩ := weekday_eq mode
  have hsucc := calcDaynr_succ year
  have hdays := calcDaysInYear_cases year
  simp only [IsFirstWeek, IsLeast, lowerBounds, Set.mem_ofPred_eq, weekStart, Qualifies, firstWeek,
    StartsLate, hweekday, hsucc]
  generalize calcDaynr year 1 1 = first
  cases mode.firstWeekday with
  | true =>
    simp only [if_true, true_and, Bool.true_eq_false, false_and, or_false]
    refine ⟨by split <;> omega, fun t ht => by split <;> omega⟩
  | false =>
    simp only [Bool.false_eq_true, if_false, true_and, false_and, false_or]
    refine ⟨by split <;> omega, fun t ht => by split <;> omega⟩

/-- A year has 52 or 53 weeks. -/
theorem firstWeek_succ (year : ℕ) :
    mode.firstWeek (year + 1) = mode.firstWeek year + 364 ∨
      mode.firstWeek (year + 1) = mode.firstWeek year + 371 := by
  obtain ⟨s, hs, hweekday⟩ := weekday_eq mode
  obtain ⟨t, ht, hlate⟩ := startsLate_iff mode
  have hdays := calcDaysInYear_cases year
  simp only [firstWeek, hweekday, hlate, calcDaynr_succ]
  split <;> split <;> omega

theorem daynr_bounds (h : IsDate year month day) :
    calcDaynr year 1 1 ≤ calcDaynr year month day ∧
      calcDaynr year month day < calcDaynr (year + 1) 1 1 ∧
      ∀ k : ℤ, k ≤ 7 → (month = 1 ∧ day ≤ k ↔
        calcDaynr year month day < calcDaynr year 1 1 + k) := by
  obtain ⟨hlow, hhigh⟩ := dayNumber_bounds h.isDay
  obtain ⟨heq, -, -⟩ := h.calcDaynr_bounds
  rw [heq, calcDaynr_first h.1, calcDaynr_first (Nat.succ_pos year), Nat.cast_succ]
  refine ⟨by omega, by omega, fun k hk => ?_⟩
  have hmonth : (month = 1 → monthStart (isLeap year) month = 0) ∧
      (1 < month → 31 ≤ monthStart (isLeap year) month) := by
    obtain ⟨hm, hm', -⟩ := h.isDay
    cases isLeap year <;> interval_cases month <;> decide
  obtain ⟨hm, -, hd, -⟩ := h.isDay
  rw [dayNumber]
  omega

theorem firstWeek_bounds (year : ℕ) :
    calcDaynr year 1 1 - 3 ≤ mode.firstWeek year ∧
      mode.firstWeek year ≤ calcDaynr year 1 1 + 7 - mode.weekday (calcDaynr year 1 1) := by
  obtain ⟨s, hs, hweekday⟩ := weekday_eq mode
  obtain ⟨t, ht, hlate⟩ := startsLate_iff mode
  simp only [firstWeek, hweekday, hlate]
  split <;> omega

end

/-- The end of `calc_week`, for a day before the second week of the next year. -/
theorem week_of_days (hlow : mode.firstWeek year ≤ n)
    (hhigh : n < calcDaynr (year + 1) 1 1 + 7 - mode.weekday (calcDaynr (year + 1) 1 1)) :
    ∃ y : ℕ, (if n - mode.firstWeek year ≥ 52 * 7 ∧
          ¬ mode.StartsLate (mode.weekday (calcDaynr (year + 1) 1 1)) then (1, year + 1)
        else ((n - mode.firstWeek year) / 7 + 1, year)) =
        ((n - mode.firstWeek y) / 7 + 1, y) ∧
      mode.firstWeek y ≤ n ∧ n < mode.firstWeek (y + 1) := by
  obtain ⟨s, hs, hweekday⟩ := weekday_eq mode
  have hnext := firstWeek_succ mode year
  have hbounds := firstWeek_bounds mode year
  have hsucc := calcDaynr_succ year
  have hdays := calcDaysInYear_cases year
  split
  case isTrue hnew =>
    have hweek : mode.firstWeek (year + 1) = _ := if_neg hnew.2
    have hnext' := firstWeek_succ mode (year + 1)
    rw [hweekday] at hweek hhigh
    refine ⟨year + 1, ?_, by omega, by omega⟩
    exact congrArg (·, _) (by omega)
  case isFalse hold =>
    refine ⟨year, rfl, hlow, ?_⟩
    by_cases hlate : mode.StartsLate (mode.weekday (calcDaynr (year + 1) 1 1))
    · have hweek : mode.firstWeek (year + 1) = _ := if_pos hlate
      omega
    · have hfew : ¬ n - mode.firstWeek year ≥ 52 * 7 := fun hmany => hold ⟨hmany, hlate⟩
      omega

/-- A date is in the week of the year that its number says. -/
theorem calcWeek_eq (hmode : mode.weekYear = true) (h : IsDate year month day) :
    ∃ y : ℕ, mode.calcWeek year month day =
        ((calcDaynr year month day - mode.firstWeek y) / 7 + 1, y) ∧
      mode.firstWeek y ≤ calcDaynr year month day ∧
      calcDaynr year month day < mode.firstWeek (y + 1) := by
  obtain ⟨s, hs, hweekday⟩ := weekday_eq mode
  obtain ⟨hlow, hhigh, hfirst⟩ := daynr_bounds h
  have hdays := calcDaysInYear_cases year
  have hsucc := calcDaynr_succ year
  have hbounds := firstWeek_bounds mode year
  have hrange := h.calcDaynr_bounds
  have hyear := h.1
  simp only [calcWeek, hmode, true_or, true_and, Bool.true_eq_false, and_false, false_and, if_false,
    hfirst (7 - mode.weekday (calcDaynr year 1 1)) (by rw [hweekday]; omega)]
  generalize calcDaynr year month day = n at hlow hhigh hrange ⊢
  have hcount (y : ℕ) : (if mode.StartsLate (mode.weekday (calcDaynr y 1 1)) then
        n - (calcDaynr y 1 1 + (7 - mode.weekday (calcDaynr y 1 1)))
      else n - (calcDaynr y 1 1 - mode.weekday (calcDaynr y 1 1))) = n - mode.firstWeek y := by
    unfold firstWeek
    dsimp only
    split <;> omega
  have hnext (y : ℕ) : (mode.weekday (calcDaynr y 1 1) + calcDaysInYear y) % 7 =
      mode.weekday (calcDaynr (y + 1) 1 1) := by
    rw [calcDaynr_succ, hweekday, hweekday]
    omega
  by_cases hin : n < calcDaynr year 1 1 + (7 - mode.weekday (calcDaynr year 1 1))
  · -- The first days are counted from the year before on.
    obtain ⟨p, rfl⟩ : ∃ p, year = p + 1 := ⟨year - 1, by omega⟩
    have hprev := firstWeek_bounds mode p
    have hsucc' := calcDaynr_succ p
    have hdays' := calcDaysInYear_cases p
    have hback : (mode.weekday (calcDaynr (p + 1) 1 1) + 53 * 7 - calcDaysInYear p) % 7 =
        mode.weekday (calcDaynr p 1 1) := by
      rw [hweekday, hweekday]
      omega
    simp only [if_pos hin, Nat.add_sub_cancel, hback, hnext,
      show calcDaynr (p + 1) 1 1 - calcDaysInYear p = calcDaynr p 1 1 by omega, hcount,
      Int.emod_eq_of_lt (a := n - mode.firstWeek p) (b := 4294967296) (by omega) (by omega)]
    exact week_of_days (by omega) (by omega)
  · simp only [if_neg hin, hcount, hnext,
      Int.emod_eq_of_lt (a := n - mode.firstWeek year) (b := 4294967296) (by omega) (by omega)]
    exact week_of_days (by omega) (by rw [hweekday]; omega)

theorem firstWeek_mono (mode : WeekMode) : Monotone mode.firstWeek := by
  apply monotone_nat_of_le_succ
  intro year
  have hsucc := firstWeek_succ mode year
  omega

theorem year_of_week (h : mode.firstWeek year ≤ n ∧ n < mode.firstWeek (year + 1))
    (h' : mode.firstWeek y ≤ n ∧ n < mode.firstWeek (y + 1)) : year = y := by
  rcases lt_trichotomy year y with hlt | heq | hgt
  · have hmono : mode.firstWeek (year + 1) ≤ mode.firstWeek y := firstWeek_mono mode hlt
    omega
  · exact heq
  · have hmono : mode.firstWeek (y + 1) ≤ mode.firstWeek year := firstWeek_mono mode hgt
    omega

/-- The days of a week have one number; the numbers go from 1 to 52 or 53, and week 1 is the first
one that the mode takes for the year. -/
theorem calcWeek_numbers (hmode : mode.weekYear = true) (h : IsDate year month day) :
    let start := mode.weekStart (calcDaynr year month day)
    let r := mode.calcWeek year month day
    (∃ first next, mode.IsFirstWeek r.2 first ∧ mode.IsFirstWeek (r.2 + 1) next ∧
      (next = first + 7 * 52 ∨ next = first + 7 * 53) ∧
      1 ≤ r.1 ∧ start = first + 7 * (r.1 - 1) ∧ start < next) ∧
    ∀ y m d, IsDate y m d →
      (mode.weekStart (calcDaynr y m d) = start → mode.calcWeek y m d = r) ∧
      (mode.weekStart (calcDaynr y m d) = start + 7 →
        mode.calcWeek y m d = (r.1 + 1, r.2) ∨
          mode.calcWeek y m d = (1, r.2 + 1) ∧ (r.1 = 52 ∨ r.1 = 53)) := by
  obtain ⟨s, hs, hweekday⟩ := weekday_eq mode
  have hstart (y : ℕ) : (mode.firstWeek y + 5 + s) % 7 = 0 := by
    have hfirst := (isFirstWeek_firstWeek mode y).1.1
    rw [weekStart, hweekday] at hfirst
    omega
  obtain ⟨y₀, heq, hlow, hhigh⟩ := calcWeek_eq hmode h
  have hsucc := firstWeek_succ mode y₀
  have hmod' := hstart (y₀ + 1)
  simp only [heq, weekStart, hweekday]
  refine ⟨⟨_, _, isFirstWeek_firstWeek mode y₀, isFirstWeek_firstWeek mode (y₀ + 1), hsucc,
    by omega, by omega, by omega⟩, fun y m d hdate => ?_⟩
  obtain ⟨y₁, heq', hlow', hhigh'⟩ := calcWeek_eq hmode hdate
  have hmod₁ := hstart y₁
  have hmod₂ := hstart (y₁ + 1)
  rw [heq']
  refine ⟨fun hsame => ?_, fun hnext => ?_⟩
  · obtain rfl : y₀ = y₁ := year_of_week
      ⟨hlow, hhigh⟩ ⟨by omega, by omega⟩
    exact congrArg (·, _) (by omega)
  · by_cases hlast : calcDaynr y m d < mode.firstWeek (y₀ + 1)
    · obtain rfl : y₀ = y₁ := year_of_week ⟨by omega, hlast⟩ ⟨hlow', hhigh'⟩
      exact .inl (congrArg (·, _) (by omega))
    · have hsucc' := firstWeek_succ mode (y₀ + 1)
      obtain rfl : y₀ + 1 = y₁ := year_of_week ⟨not_lt.mp hlast, by omega⟩ ⟨hlow', hhigh'⟩
      exact .inr ⟨congrArg (·, _) (by omega), by omega⟩

/-- The first of January 2010 is in the last week of 2009 after ISO 8601, and the Monday after it in
the first week of 2010. -/
theorem calcWeek_numbers_new_year :
    let mode : WeekMode := ⟨true, true, false⟩
    mode.calcWeek 2010 1 1 = (53, 2009) ∧ mode.calcWeek 2010 1 4 = (1, 2010) ∧
      (mode.weekStart (calcDaynr 2010 1 4) = mode.weekStart (calcDaynr 2010 1 1) + 7 →
        mode.calcWeek 2010 1 4 = (54, 2009) ∨
          mode.calcWeek 2010 1 4 = (1, 2010) ∧ ((53 : ℤ) = 52 ∨ (53 : ℤ) = 53)) :=
  ⟨by decide, by decide, ((@calcWeek_numbers ⟨true, true, false⟩ 2010 1 1 rfl
    ⟨by decide, by decide, by decide⟩).2 2010 1 4 ⟨by decide, by decide, by decide⟩).2⟩

end WeekMode

end MySQL.Sql
