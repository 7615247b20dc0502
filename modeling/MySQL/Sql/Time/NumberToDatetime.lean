import MySQL.Sql.Time.Calendar

/-!
# Date-times as numbers

A number with two digits or four for the year, with or without the time of day, becomes a number
`YYYYMMDDhhmmss`.  A `long` has 64 bits, so that the quotient of any `longlong` fits into `part1`.
-/

namespace MySQL.Sql

/-- The bits of `flags`. -/
structure TimeFlags where
  fuzzyDate : Bool
  noZeroInDate : Bool
  noZeroDate : Bool
  invalidDates : Bool

structure DateTime where
  year : ℕ
  month : ℕ
  day : ℕ
  hour : ℕ
  minute : ℕ
  second : ℕ
  deriving DecidableEq

/-- `enum_mysql_timestamp_type`, as far as numbers have it. -/
inductive TimestampType
  | date | datetime
  deriving DecidableEq

/-- `check_date`: whether the date is wrong. -/
def checkDate (t : DateTime) (notZeroDate : Bool) (flags : TimeFlags) : Bool :=
  if notZeroDate then
    (flags.noZeroInDate || !flags.fuzzyDate) && (t.month == 0 || t.day == 0) ||
      !flags.invalidDates && t.month != 0 && decide (t.day > daysInMonth.getD (t.month - 1) 0) &&
        (t.month != 2 || calcDaysInYear t.year != 366 || t.day != 29)
  else flags.noZeroDate

/-- The number with four digits for the year and with the time of day, unless the number is
between the ranges. -/
def expandNumber (flags : TimeFlags) (nr : ℤ) : Option ℤ × TimestampType :=
  if nr = 0 ∨ nr ≥ 10000101000000 then (some nr, .datetime)
  else if nr < 101 then (none, .date)
  else if nr ≤ (70 - 1) * 10000 + 1231 then (some ((nr + 20000000) * 1000000), .date)
  else if nr < 70 * 10000 + 101 then (none, .date)
  else if nr ≤ 991231 then (some ((nr + 19000000) * 1000000), .date)
  else if nr < 10000101 ∧ flags.fuzzyDate = false then (none, .date)
  else if nr ≤ 99991231 then (some (nr * 1000000), .date)
  else if nr < 101000000 then (none, .date)
  else if nr ≤ (70 - 1) * 10000000000 + 1231235959 then (some (nr + 20000000000000), .datetime)
  else if nr < 70 * 10000000000 + 101000000 then (none, .datetime)
  else if nr ≤ 991231235959 then (some (nr + 19000000000000), .datetime)
  else (some nr, .datetime)

def splitNumber (nr : ℤ) : DateTime :=
  let part1 := (nr / 1000000).toNat
  let part2 := (nr % 1000000).toNat
  ⟨part1 / 10000, part1 % 10000 / 100, part1 % 10000 % 100,
    part2 / 10000, part2 % 10000 / 100, part2 % 10000 % 100⟩

structure NumberResult where
  value : ℤ
  time : DateTime
  timeType : TimestampType
  wasCut : ℕ

def DateTime.InLimits (t : DateTime) : Prop :=
  t.year ≤ 9999 ∧ t.month ≤ 12 ∧ t.day ≤ 31 ∧ t.hour ≤ 23 ∧ t.minute ≤ 59 ∧ t.second ≤ 59

instance (t : DateTime) : Decidable t.InLimits := inferInstanceAs (Decidable (_ ∧ _))

/-- `number_to_datetime`. -/
def numberToDatetime (nr : ℤ) (flags : TimeFlags) : NumberResult :=
  match expandNumber flags nr with
  | (none, type) => ⟨-1, ⟨0, 0, 0, 0, 0, 0⟩, type, 1⟩
  | (some nr, type) =>
    let t := splitNumber nr
    if t.InLimits ∧ checkDate t (nr ≠ 0) flags = false then ⟨nr, t, type, 0⟩
    else ⟨-1, t, type, if nr = 0 ∧ flags.noZeroDate = true then 0 else 1⟩

/-- `TIME_to_ulonglong_datetime`. -/
def DateTime.toUlonglong (t : DateTime) : ℕ :=
  (t.year * 10000 + t.month * 100 + t.day) * 1000000 +
    (t.hour * 10000 + t.minute * 100 + t.second)

variable {nr n : ℤ} {flags : TimeFlags}

theorem toUlonglong_splitNumber (h : 0 ≤ nr) : ((splitNumber nr).toUlonglong : ℤ) = nr := by
  simp only [DateTime.toUlonglong, splitNumber]
  omega

theorem expandNumber_kept (h : n = 0 ∨ 991231235959 < n) : (expandNumber flags n).1 = some n := by
  unfold expandNumber
  by_cases hfull : n = 0 ∨ n ≥ 10000101000000
  · rw [if_pos hfull]
  · rw [if_neg hfull]
    iterate 10 rw [if_neg (by omega)]

/-- A number is kept when it comes again, or is a date after 991231 that has six digits. -/
def Expanded (nr n : ℤ) : Prop :=
  n = 0 ∨ 991231235959 < n ∨ n = nr * 1000000 ∧ 991231 < nr ∧ nr < 1000000

theorem expanded_of_mem : ∀ n ∈ (expandNumber flags nr).1, Expanded nr n := by
  iterate 11
    refine iteInduction (motive := fun r : Option ℤ × TimestampType => ∀ n ∈ r.1, Expanded nr n)
      (fun h => ?_) fun h => ?_
    · rintro _ ⟨⟩ <;> unfold Expanded <;> omega
  rintro _ ⟨⟩
  unfold Expanded
  omega

/-- A number that is a date-time is not expanded again. -/
theorem expandNumber_idem {type : TimestampType} (h : expandNumber flags nr = (some n, type))
    (hlimits : (splitNumber n).InLimits) : 0 ≤ n ∧ (expandNumber flags n).1 = some n := by
  have hlarge : n = 0 ∨ 991231235959 < n := by
    rcases expanded_of_mem n (by rw [h]; rfl) with hzero | hlarge | ⟨rfl, hlow, hhigh⟩
    · exact .inl hzero
    · exact .inr hlarge
    · -- No month and day are left for a year of two digits after 991231.
      obtain ⟨-, hmonth, hday, -⟩ := hlimits
      omega
  exact ⟨by omega, expandNumber_kept hlarge⟩

theorem numberToDatetime_cases (nr : ℤ) (flags : TimeFlags) :
    (numberToDatetime nr flags).value = -1 ∨
      ∃ n type, expandNumber flags nr = (some n, type) ∧ (splitNumber n).InLimits ∧
        checkDate (splitNumber n) (n ≠ 0) flags = false ∧
        numberToDatetime nr flags = ⟨n, splitNumber n, type, 0⟩ := by
  unfold numberToDatetime
  split
  case h_1 => exact .inl rfl
  case h_2 n type heq =>
    dsimp only
    split
    case isTrue hok => exact .inr ⟨n, type, heq, hok.1, hok.2, rfl⟩
    case isFalse => exact .inl rfl

/-- A number that `number_to_datetime` returns is the one of the time, and returned again. -/
theorem numberToDatetime_canonical (nr : ℤ) (flags : TimeFlags)
    (h : (numberToDatetime nr flags).value ≠ -1) :
    let r := numberToDatetime nr flags
    r.value = r.time.toUlonglong ∧ r.time.InLimits ∧
      checkDate r.time (r.value ≠ 0) flags = false ∧
      (numberToDatetime r.value flags).value = r.value ∧
      (numberToDatetime r.value flags).time = r.time := by
  obtain ⟨n, type, hexpand, hlimits, hcheck, heq⟩ :=
    (numberToDatetime_cases nr flags).resolve_left h
  obtain ⟨hnonneg, hagain⟩ := expandNumber_idem hexpand hlimits
  have hpair : expandNumber flags n = (some n, (expandNumber flags n).2) := by rw [← hagain]
  have hsecond : numberToDatetime n flags =
      ⟨n, splitNumber n, (expandNumber flags n).2, 0⟩ := by
    unfold numberToDatetime
    rw [hpair]
    exact if_pos ⟨hlimits, hcheck⟩
  simp only [heq, hsecond]
  exact ⟨(toUlonglong_splitNumber hnonneg).symm, hlimits, hcheck, trivial, trivial⟩

/-- The number `691231` is the last day of 2069. -/
theorem numberToDatetime_canonical_short :
    let r := numberToDatetime 691231 ⟨false, false, false, false⟩
    r.value ≠ -1 ∧ r.value = 20691231000000 ∧ r.value = r.time.toUlonglong ∧
      (numberToDatetime r.value ⟨false, false, false, false⟩).value = r.value := by
  have h := numberToDatetime_canonical 691231 ⟨false, false, false, false⟩ (by decide)
  exact ⟨by decide, by decide, h.1, h.2.2.2.1⟩

end MySQL.Sql
