import Mathlib

/-!
# The Gregorian calendar

Days are counted from the last day before the year one on.  A day is in exactly one year, and is one
date of it.
-/

namespace MySQL.Lib.Calendar

def isLeap (y : ℤ) : Bool := y % 4 = 0 ∧ (y % 100 ≠ 0 ∨ y % 400 = 0)

def yearLength (y : ℤ) : ℤ := if isLeap y then 366 else 365

def yearStart (y : ℤ) : ℤ := 365 * (y - 1) + (y - 1) / 4 - (y - 1) / 100 + (y - 1) / 400

variable {y y' n : ℤ}

theorem isLeap_iff : isLeap y = true ↔ y % 4 = 0 ∧ (y % 100 ≠ 0 ∨ y % 400 = 0) :=
  decide_eq_true_iff

theorem yearLength_cases (y : ℤ) : yearLength y = 365 ∨ yearLength y = 366 := by
  unfold yearLength
  split
  · exact .inr rfl
  · exact .inl rfl

theorem yearStart_succ (y : ℤ) : yearStart (y + 1) = yearStart y + yearLength y := by
  unfold yearStart yearLength
  simp only [isLeap_iff]
  split <;> omega

theorem yearStart_lt_succ (y : ℤ) : yearStart y < yearStart (y + 1) := by
  have hlength := yearLength_cases y
  rw [yearStart_succ]
  omega

theorem yearStart_mono (h : y ≤ y') : yearStart y ≤ yearStart y' := by
  induction y', h using Int.leInduction with
  | base => exact le_rfl
  | succ y' _ ih => exact ih.trans (yearStart_lt_succ y').le

theorem year_unique (h : yearStart y < n ∧ n ≤ yearStart (y + 1))
    (h' : yearStart y' < n ∧ n ≤ yearStart (y' + 1)) : y = y' := by
  rcases lt_trichotomy y y' with hlt | heq | hgt
  · have hmono := yearStart_mono (Int.add_one_le_iff.mpr hlt)
    omega
  · exact heq
  · have hmono := yearStart_mono (Int.add_one_le_iff.mpr hgt)
    omega

/-! ## Months -/

def monthLengths (leap : Bool) : List ℕ :=
  [31, if leap then 29 else 28, 31, 30, 31, 30, 31, 31, 30, 31, 30, 31]

def monthLength (leap : Bool) (m : ℕ) : ℕ := (monthLengths leap).getD (m - 1) 0

def monthStart (leap : Bool) (m : ℕ) : ℕ := ((monthLengths leap).take (m - 1)).sum

def IsDay (leap : Bool) (m d : ℕ) : Prop := 1 ≤ m ∧ m ≤ 12 ∧ 1 ≤ d ∧ d ≤ monthLength leap m

instance (leap : Bool) (m d : ℕ) : Decidable (IsDay leap m d) :=
  inferInstanceAs (Decidable (_ ∧ _))

theorem monthStart_succ (leap : Bool) {m : ℕ} (h : 1 ≤ m) (h' : m ≤ 11) :
    monthStart leap (m + 1) = monthStart leap m + monthLength leap m := by
  cases leap <;> interval_cases m <;> decide

theorem monthStart_add_le {leap : Bool} {m d : ℕ} (h : IsDay leap m d) :
    monthStart leap m + d ≤ if leap then 366 else 365 := by
  obtain ⟨hm, hm', -, hd⟩ := h
  have hend : monthStart leap m + monthLength leap m ≤ if leap then 366 else 365 := by
    cases leap <;> interval_cases m <;> decide
  omega

def dayNumber (y : ℤ) (m d : ℕ) : ℤ := yearStart y + monthStart (isLeap y) m + d

theorem dayNumber_bounds {m d : ℕ} (h : IsDay (isLeap y) m d) :
    yearStart y < dayNumber y m d ∧ dayNumber y m d ≤ yearStart (y + 1) := by
  have hle := monthStart_add_le h
  have hd := h.2.2.1
  rw [yearStart_succ, dayNumber, yearLength]
  split at hle <;> simp_all <;> omega

def nextDay (leap : Bool) (m d : ℕ) : ℕ × ℕ × ℕ :=
  if d < monthLength leap m then (0, m, d + 1)
  else if m < 12 then (0, m + 1, 1)
  else (1, 1, 1)

theorem month_nextDay {leap : Bool} {m d : ℕ} (h : IsDay leap m d) :
    1 ≤ (nextDay leap m d).2.1 ∧ (nextDay leap m d).2.1 ≤ 12 := by
  obtain ⟨hm, hm', -⟩ := h
  unfold nextDay
  split_ifs
  · exact ⟨hm, hm'⟩
  · next hlast => exact ⟨Nat.succ_pos m, hlast⟩
  · exact ⟨le_rfl, by decide⟩

theorem dayNumber_nextDay {m d : ℕ} (h : IsDay (isLeap y) m d) :
    dayNumber (y + (nextDay (isLeap y) m d).1) (nextDay (isLeap y) m d).2.1
        (nextDay (isLeap y) m d).2.2 = dayNumber y m d + 1 := by
  obtain ⟨hm, hm', hd, hd'⟩ := h
  unfold nextDay
  split_ifs with hlt hmonth
  · simp only [dayNumber, Nat.cast_zero, add_zero]
    omega
  · have hsucc := monthStart_succ (isLeap y) hm (by omega)
    simp only [dayNumber, Nat.cast_zero, add_zero]
    omega
  · obtain rfl : m = 12 := by omega
    have hlength : monthStart (isLeap y) 12 + monthLength (isLeap y) 12 =
        if isLeap y then 366 else 365 := by
      cases isLeap y <;> decide
    have hfirst : monthStart (isLeap (y + 1)) 1 = 0 := by cases isLeap (y + 1) <;> decide
    simp only [dayNumber, Nat.cast_one, hfirst, yearStart_succ, yearLength]
    split at hlength <;> simp_all <;> omega

end MySQL.Lib.Calendar
