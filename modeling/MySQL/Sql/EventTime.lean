import MySQL.Sql.Time.Calendar

/-!
# The next execution of a recurring event

`get_next_time` estimates the next time by a division and corrects the estimate.  The time zone has
a constant offset, and the hour, minute and second of a time are one number.
-/

namespace MySQL.Sql.Events

open Lib Calendar

/-- `interval_type`. -/
inductive IntervalType
  | year | quarter | month | week | day | hour | minute | second | microsecond
  | yearMonth | dayHour | dayMinute | daySecond | hourMinute | hourSecond | minuteSecond
  | dayMicrosecond | hourMicrosecond | minuteMicrosecond | secondMicrosecond

/-- The unit of an interval, in months or in seconds. -/
inductive Scale
  | months (n : ℤ)
  | seconds (n : ℤ)

def IntervalType.scale : IntervalType → Option Scale
  | year => some (.months 12)
  | quarter | yearMonth | month => some (.months 1)
  | week | day => some (.seconds 86400)
  | dayHour | hour => some (.seconds 3600)
  | dayMinute | hourMinute | minute => some (.seconds 60)
  | daySecond | hourSecond | minuteSecond | second => some (.seconds 1)
  | _ => none

/-- `MYSQL_TIME`. -/
structure MysqlTime where
  year : ℕ
  month : ℕ
  day : ℕ
  secs : ℕ
  deriving DecidableEq

/-- A product of type `int`. -/
def wrap (x : ℤ) : ℤ := (x + 2147483648) % 4294967296 - 2147483648

/-- `calc_daynr` of the first day of the epoch. -/
def epoch : ℤ := 719528

/-- `gmt_sec_to_TIME`. -/
def gmtSecToTime (offset t : ℤ) : MysqlTime :=
  let (y, m, d) := getDateFromDaynr ((t + offset) / 86400 + epoch)
  ⟨y, m, d, ((t + offset) % 86400).toNat⟩

/-- The seconds from the epoch on in local time. -/
def MysqlTime.toSec (l : MysqlTime) : ℤ :=
  (calcDaynr l.year l.month l.day - epoch) * 86400 + l.secs

variable (offset : ℤ) (l : MysqlTime)

/-- `TIME_to_gmt_sec`, which gives 0 for times that are no timestamps. -/
def timeToGmtSec : ℤ :=
  if 1 ≤ l.toSec - offset ∧ l.toSec - offset ≤ 2147483647 then l.toSec - offset else 0

/-- `date_add_interval` for seconds. -/
def MysqlTime.addSeconds (x : ℤ) : Option MysqlTime :=
  let sec := ((l.day : ℤ) - 1) * 86400 + l.secs + x
  let daynr := calcDaynr l.year l.month 1 + sec / 86400
  if 0 ≤ daynr ∧ daynr ≤ 3652424 then
    let (y, m, d) := getDateFromDaynr daynr
    some ⟨y, m, d, (sec % 86400).toNat⟩
  else none

def MysqlTime.period : ℤ := l.year * 12 + l.month - 1

def daysIn (year month : ℕ) : ℕ :=
  daysInMonth.getD (month - 1) 0 + if month = 2 ∧ isLeapYear year then 1 else 0

/-- `date_add_interval` for months: a day that the month does not have becomes its last one. -/
def MysqlTime.addMonths (x : ℤ) : Option MysqlTime :=
  let period := l.period + x
  if 0 ≤ period ∧ period < 120000 then
    let year := (period / 12).toNat
    let month := (period % 12).toNat + 1
    let day := if daysInMonth.getD (month - 1) 0 < l.day then daysIn year month else l.day
    some ⟨year, month, day, l.secs⟩
  else none

/-- `add_interval`. -/
def addInterval (l : Option MysqlTime) : ℤ := (l.map (timeToGmtSec offset)).getD 0

/-- The loop for times that a zone passes twice. -/
def secondsLoop (offset now seconds : ℤ) : ℕ → MysqlTime → Option ℤ
  | 0, _ => none
  | n + 1, l =>
    match l.addSeconds seconds with
    | none => none
    | some l =>
      let next := timeToGmtSec offset l
      if next = 0 then none
      else if next ≤ now then secondsLoop offset now seconds n l
      else some next

/-- `get_next_time` for intervals in seconds. -/
def nextBySeconds (offset start now seconds : ℤ) : Option ℤ :=
  let localStart := gmtSecToTime offset start
  let diff := (gmtSecToTime offset now).toSec - localStart.toSec
  if diff < 0 then secondsLoop offset now seconds 2147483648 localStart
  else
    let l := localStart.addSeconds (diff - Int.tmod diff seconds + seconds)
    let next := addInterval offset l
    if next = 0 then none
    else if next ≤ now then l.bind (secondsLoop offset now seconds 2147483648)
    else some next

/-- The months up to the estimate. -/
def estimate (offset start now months : ℤ) : ℤ :=
  let diff := (gmtSecToTime offset now).period - (gmtSecToTime offset start).period
  diff - Int.tmod diff months

/-- `get_next_time` for intervals in months. -/
def nextByMonths (offset start now months : ℤ) : Option ℤ :=
  let l := (gmtSecToTime offset start).addMonths (estimate offset start now months)
  let next := addInterval offset l
  if next = 0 then none
  else if next ≤ now then
    let next := addInterval offset (l.bind (·.addMonths months))
    if next = 0 then none else some next
  else some next

/-- How `get_next_time` ends.  An interval that is 0 as an `int` is taken for one in months, and
the remainder by it kills the server. -/
inductive Outcome
  | next (t : ℤ)
  | error
  | divisionByZero
  deriving DecidableEq

/-- `get_next_time`. -/
def getNextTime (offset start now value : ℤ) (type : IntervalType) : Outcome :=
  match type.scale with
  | none => .error
  | some (.seconds n) =>
    if wrap (value * n) = 0 then .divisionByZero
    else (nextBySeconds offset start now (wrap (value * n))).elim .error .next
  | some (.months n) =>
    if wrap (value * n) = 0 then .divisionByZero
    else (nextByMonths offset start now (wrap (value * n))).elim .error .next

/-! ## The schedule -/

/-- `start + k * interval`, or 0. -/
def occurrence (offset start value : ℤ) : Scale → ℕ → ℤ
  | .seconds n, k =>
    addInterval offset ((gmtSecToTime offset start).addSeconds (k * (value * n)))
  | .months n, k => addInterval offset ((gmtSecToTime offset start).addMonths (k * (value * n)))

/-- The first time of a schedule after `now`. -/
structure IsNext (times : ℕ → ℤ) (now next : ℤ) : Prop where
  scheduled : ∃ k, times k = next
  after : now < next
  first : ∀ k, now < times k → next ≤ times k

/-- The number of days of a month. -/
def monthDays (period : ℤ) : ℕ := daysIn (period / 12).toNat ((period % 12).toNat + 1)

/-- The last whole interval up to the month of `now` ends after `now`, or its month has the day
that the schedule wants of the month after the next interval. -/
def DayKept (offset start now months : ℤ) : Prop :=
  let localStart := gmtSecToTime offset start
  let e := estimate offset start now months
  now < addInterval offset (localStart.addMonths e) ∨
    min localStart.day (monthDays (localStart.period + e + months)) ≤
      monthDays (localStart.period + e)

instance (offset start now months : ℤ) : Decidable (DayKept offset start now months) :=
  inferInstanceAs (Decidable (_ ∨ _))

/-! ## Times of the calendar -/

structure MysqlTime.Valid (l : MysqlTime) : Prop where
  date : IsDate l.year l.month l.day
  secs_lt : l.secs < 86400

variable {l l' : MysqlTime} {offset start now t x : ℤ}

theorem isDate_getDateFromDaynr {n : ℤ} (hlow : 366 ≤ n) (hhigh : n ≤ 3652424) :
    ∃ y m d, getDateFromDaynr n = (y, m, d) ∧ IsDate y m d ∧ calcDaynr y m d = n := by
  obtain ⟨y, m, d, heq, hy, hday, hnum⟩ := getDateFromDaynr_spec hlow (by omega)
  refine ⟨y, m, d, heq, ⟨hy, ?_, ?_⟩, ?_⟩
  · by_contra hlt
    have hbounds := dayNumber_bounds hday
    have hmono : yearStart 10000 ≤ yearStart y :=
      yearStart_mono (by omega)
    have hend : yearStart 10000 = 3652059 := by decide
    omega
  · rwa [isLeapYear_eq hy]
  · rw [calcDaynr_eq d hy ⟨hday.1, hday.2.1⟩]
    omega

theorem gmtSecToTime_spec (ht : -86400 ≤ t + offset) (ht' : t + offset < 2147570048) :
    (gmtSecToTime offset t).Valid ∧ (gmtSecToTime offset t).toSec = t + offset := by
  have hlow : 366 ≤ (t + offset) / 86400 + epoch := by
    unfold epoch
    omega
  have hhigh : (t + offset) / 86400 + epoch ≤ 3652424 := by
    unfold epoch
    omega
  obtain ⟨y, m, d, heq, hdate, hnum⟩ := isDate_getDateFromDaynr hlow hhigh
  unfold gmtSecToTime
  rw [heq]
  refine ⟨⟨hdate, ?_⟩, ?_⟩
  · dsimp only
    omega
  · unfold MysqlTime.toSec
    dsimp only
    omega

theorem MysqlTime.Valid.calcDaynr_eq_first (h : l.Valid) :
    calcDaynr l.year l.month l.day = calcDaynr l.year l.month 1 + (l.day - 1) := by
  have hmonth : 1 ≤ l.month ∧ l.month ≤ 12 := ⟨h.date.2.2.1, h.date.2.2.2.1⟩
  rw [calcDaynr_eq _ h.date.1 hmonth, calcDaynr_eq _ h.date.1 hmonth, dayNumber,
    dayNumber]
  omega

/-- Seconds are added right, but for days before the calendar begins. -/
theorem addSeconds_spec (h : l.Valid) (heq : l.addSeconds x = some l') :
    l'.toSec = l.toSec + x ∨ l'.toSec < -86400 := by
  have hfirst := h.calcDaynr_eq_first
  unfold MysqlTime.addSeconds at heq
  dsimp only at heq
  split at heq
  next hrange =>
    obtain rfl := Option.some.inj heq
    by_cases hlow : calcDaynr l.year l.month 1 +
        (((l.day : ℤ) - 1) * 86400 + l.secs + x) / 86400 ≤ 365
    · have hzero : getDateFromDaynr (calcDaynr l.year l.month 1 +
          (((l.day : ℤ) - 1) * 86400 + l.secs + x) / 86400) = (0, 0, 0) := if_pos (.inl hlow)
      have hdaynr : calcDaynr 0 0 0 = 0 := rfl
      unfold MysqlTime.toSec epoch
      simp only [hzero, hdaynr]
      omega
    · obtain ⟨y, m, d, heq, -, hnum⟩ := isDate_getDateFromDaynr (Int.not_le.mp hlow) hrange.2
      unfold MysqlTime.toSec
      simp only [heq, hnum, hfirst]
      omega
  · exact nomatch heq

theorem addInterval_ne_zero {o : Option MysqlTime} (hne : addInterval offset o ≠ 0) :
    ∃ l, o = some l ∧ addInterval offset o = l.toSec - offset ∧ 1 ≤ l.toSec - offset ∧
      l.toSec - offset ≤ 2147483647 := by
  cases o with
  | none => exact absurd rfl hne
  | some l =>
    simp only [addInterval, Option.map_some, Option.getD_some, timeToGmtSec] at hne ⊢
    split at hne
    · next hts => exact ⟨l, rfl, if_pos hts, hts⟩
    · exact absurd rfl hne

/-- If the sum is a timestamp, it is the right one. -/
theorem addInterval_addSeconds (h : l.Valid) (hoffset : -86400 < offset)
    (hne : addInterval offset (l.addSeconds x) ≠ 0) :
    addInterval offset (l.addSeconds x) = l.toSec + x - offset ∧
      l.toSec + x - offset ≤ 2147483647 := by
  obtain ⟨l', heq, hadd, hlow, hhigh⟩ := addInterval_ne_zero hne
  rcases addSeconds_spec h heq with hsec | hsec
  · rw [hadd, hsec]
    exact ⟨rfl, hsec ▸ hhigh⟩
  · omega

theorem daysIn_eq {year month : ℕ} (h : 1 ≤ month ∧ month ≤ 12) :
    daysIn year month = monthLength (isLeapYear year) month := by
  obtain ⟨hlow, hhigh⟩ := h
  unfold daysIn
  cases isLeapYear year <;> interval_cases month <;> decide

theorem daysInMonth_le {year month : ℕ} (h : 1 ≤ month ∧ month ≤ 12) :
    1 ≤ daysInMonth.getD (month - 1) 0 ∧ daysInMonth.getD (month - 1) 0 ≤ daysIn year month ∧
      daysIn year month ≤ daysInMonth.getD (month - 1) 0 + 1 := by
  refine ⟨?_, Nat.le_add_right _ _, ?_⟩
  · obtain ⟨hlow, hhigh⟩ := h
    interval_cases month <;> decide
  · unfold daysIn
    split <;> omega

theorem monthDays_bounds (period : ℤ) :
    1 ≤ daysInMonth.getD ((period % 12).toNat + 1 - 1) 0 ∧
      daysInMonth.getD ((period % 12).toNat + 1 - 1) 0 ≤ monthDays period ∧
      monthDays period ≤ daysInMonth.getD ((period % 12).toNat + 1 - 1) 0 + 1 :=
  daysInMonth_le (by omega)

/-- A day that is too late for the month becomes its last one. -/
theorem addMonths_eq (l : MysqlTime) (x : ℤ) : l.addMonths x =
    if 0 ≤ l.period + x ∧ l.period + x < 120000 then
      some ⟨((l.period + x) / 12).toNat, ((l.period + x) % 12).toNat + 1,
        min l.day (monthDays (l.period + x)), l.secs⟩
    else none := by
  obtain ⟨-, hle, hle'⟩ := monthDays_bounds (l.period + x)
  have hmin : (if daysInMonth.getD (((l.period + x) % 12).toNat + 1 - 1) 0 < l.day then
      monthDays (l.period + x) else l.day) = min l.day (monthDays (l.period + x)) := by
    split
    · rw [min_eq_right (by omega)]
    · rw [min_eq_left (by omega)]
  rw [← hmin]
  rfl

/-- A sum with months has the month that is expected, and the day unless it is too late. -/
theorem addMonths_spec (h : l.Valid) (hx : 0 ≤ x) (heq : l.addMonths x = some l') :
    l'.Valid ∧ l'.period = l.period + x ∧ l'.secs = l.secs ∧
      l'.day = min l.day (monthDays (l.period + x)) := by
  rw [addMonths_eq] at heq
  split at heq
  next hrange =>
    obtain rfl := Option.some.inj heq
    obtain ⟨hyear, -, hmonth, hmonth', hday, -⟩ := h.date
    have hperiod : 12 ≤ l.period + x := by
      unfold MysqlTime.period
      omega
    have hrange' : 1 ≤ ((l.period + x) % 12).toNat + 1 ∧ ((l.period + x) % 12).toNat + 1 ≤ 12 := by
      omega
    obtain ⟨hpos, hle, -⟩ := monthDays_bounds (l.period + x)
    refine ⟨⟨⟨?_, ?_, hrange'.1, hrange'.2, ?_, ?_⟩, h.secs_lt⟩, ?_, rfl, rfl⟩
    · dsimp only
      omega
    · dsimp only
      omega
    · exact le_min hday (hpos.trans hle)
    · rw [← daysIn_eq hrange']
      exact min_le_right _ _
    · rw [MysqlTime.period]
      dsimp only
      omega
  · exact nomatch heq

theorem monthStart_lt {leap : Bool} {m m' d : ℕ} (h : Calendar.IsDay leap m d) (hlt : m < m')
    (hm' : m' ≤ 12) : monthStart leap m + d ≤ monthStart leap m' := by
  have hall : ∀ leap : Bool, ∀ m < 12, ∀ m' < 13, 1 ≤ m → m < m' →
      monthStart leap m + monthLength leap m ≤ monthStart leap m' := by
    decide
  have hle := hall leap m (by omega) m' (by omega) h.1 hlt
  have hd := h.2.2.2
  omega

/-- Times of an earlier month are earlier. -/
theorem toSec_lt (h : l.Valid) (h' : l'.Valid) (hlt : l.period < l'.period) :
    l.toSec < l'.toSec := by
  have hday := h.date.isDay
  have hday' := h'.date.isDay
  have hsecs := h.secs_lt
  obtain ⟨heq, -, -⟩ := h.date.calcDaynr_bounds
  obtain ⟨heq', -, -⟩ := h'.date.calcDaynr_bounds
  have hnum : dayNumber l.year l.month l.day <
      dayNumber l'.year l'.month l'.day := by
    unfold MysqlTime.period at hlt
    obtain ⟨-, hm₂, hd₂, -⟩ := hday'
    rcases Nat.lt_trichotomy l.year l'.year with hyear | hyear | hyear
    · have hmono : yearStart (l.year + 1) ≤ yearStart l'.year :=
        yearStart_mono (by omega)
      have hbounds := dayNumber_bounds h.date.isDay
      have hbounds' := dayNumber_bounds h'.date.isDay
      omega
    · have hmonth := @monthStart_lt _ _ l'.month _ h.date.isDay (by omega) hm₂
      unfold dayNumber
      rw [← hyear]
      omega
    · omega
  unfold MysqlTime.toSec
  omega

theorem period_le (h : l.Valid) (h' : l'.Valid) (hle : l.toSec ≤ l'.toSec) :
    l.period ≤ l'.period := by
  by_contra hlt
  exact absurd (toSec_lt h' h (Int.not_le.mp hlt)) (Int.not_lt.mpr hle)

theorem toSec_eq (h : l.Valid) (h' : l'.Valid) (hperiod : l.period = l'.period)
    (hsecs : l.secs = l'.secs) : l'.toSec = l.toSec + ((l'.day : ℤ) - l.day) * 86400 := by
  obtain ⟨-, -, hmonth, hmonth', -⟩ := h.date
  obtain ⟨-, -, hmonth₂, hmonth₂', -⟩ := h'.date
  unfold MysqlTime.period at hperiod
  have hyear : l.year = l'.year := by omega
  have hmonth : l.month = l'.month := by omega
  unfold MysqlTime.toSec
  rw [h.calcDaynr_eq_first, h'.calcDaynr_eq_first, hyear, hmonth]
  omega

/-! ## The next time -/

theorem IsNext.of_least {times : ℕ → ℤ} {q : ℕ} (hafter : now < times q)
    (hfirst : ∀ k, now < times k → q ≤ k)
    (hmono : ∀ k, q < k → now < times k → times q ≤ times k) : IsNext times now (times q) where
  scheduled := ⟨q, rfl⟩
  after := hafter
  first := by
    intro k hk
    rcases Nat.eq_or_lt_of_le (hfirst k hk) with rfl | hlt
    · exact le_rfl
    · exact hmono k hlt hk

theorem wrap_eq (hlow : 0 ≤ x) (hhigh : x < 2147483648) : wrap x = x := by
  unfold wrap
  omega

theorem mul_add_le {j k : ℕ} (hx : 0 ≤ x) (hlt : j < k) : j * x + x ≤ k * x := by
  have hmul : ((j + 1 : ℕ) : ℤ) * x ≤ k * x := Int.mul_le_mul_of_nonneg_right (by omega) hx
  rwa [Nat.cast_succ, Int.add_mul, Int.one_mul] at hmul

/-- The interval `x`, as often as it fits. -/
theorem exists_quotient (hx : 0 < x) (ht : 0 ≤ t) :
    ∃ q : ℕ, t - Int.tmod t x = q * x ∧ q * x ≤ t ∧ t < q * x + x := by
  obtain ⟨q, hq⟩ : ∃ q : ℕ, t / x = q := Int.eq_ofNat_of_zero_le (Int.ediv_nonneg ht hx.le)
  have hdiv := Int.mul_ediv_add_emod t x
  have hmod := Int.emod_nonneg t hx.ne'
  have hmod' := Int.emod_lt_of_pos t hx
  rw [hq, Int.mul_comm] at hdiv
  refine ⟨q, ?_, by omega, by omega⟩
  rw [Int.tmod_eq_emod_of_nonneg ht]
  omega

/-- What the arguments of `get_next_time` are in a zone with constant offset. -/
structure Call (offset start now value : ℤ) : Prop where
  start_pos : 1 ≤ start
  start_le : start ≤ now
  now_le : now ≤ 2147483647
  offset_gt : -86400 < offset
  offset_lt : offset < 86400
  value_pos : 0 < value
  value_lt : value < 2147483648

theorem IntervalType.scale_pos {type : IntervalType} {s : Scale} (h : type.scale = some s) :
    ∃ n, 1 ≤ n ∧ (s = .months n ∨ s = .seconds n) := by
  cases type with
  | microsecond | dayMicrosecond | hourMicrosecond | minuteMicrosecond | secondMicrosecond =>
    exact nomatch h
  | year => exact ⟨12, by decide, .inl (Option.some.inj h).symm⟩
  | quarter | yearMonth | month => exact ⟨1, by decide, .inl (Option.some.inj h).symm⟩
  | week | day => exact ⟨86400, by decide, .inr (Option.some.inj h).symm⟩
  | dayHour | hour => exact ⟨3600, by decide, .inr (Option.some.inj h).symm⟩
  | dayMinute | hourMinute | minute => exact ⟨60, by decide, .inr (Option.some.inj h).symm⟩
  | daySecond | hourSecond | minuteSecond | second =>
    exact ⟨1, by decide, .inr (Option.some.inj h).symm⟩

section

variable {value n next : ℤ} (hcall : Call offset start now value)

include hcall

theorem Call.localStart : (gmtSecToTime offset start).Valid ∧
    (gmtSecToTime offset start).toSec = start + offset := by
  obtain ⟨hpos, hle, hnow, hoffset, hoffset', -, -⟩ := hcall
  exact gmtSecToTime_spec (by omega) (by omega)

theorem Call.localNow : (gmtSecToTime offset now).Valid ∧
    (gmtSecToTime offset now).toSec = now + offset := by
  obtain ⟨hpos, hle, hnow, hoffset, hoffset', -, -⟩ := hcall
  exact gmtSecToTime_spec (by omega) (by omega)

theorem Call.occurrence_seconds {k : ℕ} (hne : occurrence offset start value (.seconds n) k ≠ 0) :
    occurrence offset start value (.seconds n) k = start + k * (value * n) ∧
      start + k * (value * n) ≤ 2147483647 := by
  obtain ⟨hvalid, hsec⟩ := hcall.localStart
  obtain ⟨heq, hle⟩ := addInterval_addSeconds hvalid hcall.offset_gt hne
  exact ⟨heq.trans (by omega), by omega⟩

theorem Call.occurrence_months (hn : 0 ≤ value * n) {k : ℕ}
    (hne : occurrence offset start value (.months n) k ≠ 0) :
    ∃ l : MysqlTime, l.Valid ∧ l.period = (gmtSecToTime offset start).period + k * (value * n) ∧
      l.secs = (gmtSecToTime offset start).secs ∧
      l.day ≤ (gmtSecToTime offset start).day ∧
      occurrence offset start value (.months n) k = l.toSec - offset := by
  obtain ⟨l, heq, hadd, -, -⟩ := addInterval_ne_zero hne
  have hpos : 0 ≤ k * (value * n) := Int.mul_nonneg (Int.natCast_nonneg k) hn
  obtain ⟨hvalid, hperiod, hsecs, hday⟩ := addMonths_spec hcall.localStart.1 hpos heq
  exact ⟨l, hvalid, hperiod, hsecs, hday ▸ min_le_left _ _, hadd⟩

theorem Call.isNext_seconds (hn : 0 < value * n)
    (heq : nextBySeconds offset start now (value * n) = some next) :
    IsNext (occurrence offset start value (.seconds n)) now next := by
  obtain ⟨hvalid, hsec⟩ := hcall.localStart
  obtain ⟨-, hsec'⟩ := hcall.localNow
  have hle := hcall.start_le
  have hpos := hcall.start_pos
  -- the seconds added are the interval, once more often than it fits
  obtain ⟨q, hq, hq', hlt⟩ := exists_quotient hn (show 0 ≤ now - start by omega)
  have hcast : ((q + 1 : ℕ) : ℤ) * (value * n) = q * (value * n) + value * n := by
    rw [Nat.cast_succ, Int.add_mul, Int.one_mul]
  unfold nextBySeconds at heq
  dsimp only at heq
  rw [hsec, hsec', Int.add_sub_add_right, if_neg (by omega), hq, ← hcast] at heq
  split at heq
  · exact nomatch heq
  · next hne =>
    obtain ⟨hval, -⟩ := hcall.occurrence_seconds hne
    change (if occurrence offset start value (.seconds n) (q + 1) ≤ now then _ else
      some (occurrence offset start value (.seconds n) (q + 1))) = _ at heq
    rw [if_neg (by omega)] at heq
    obtain rfl := Option.some.inj heq
    refine IsNext.of_least (by omega) ?_ ?_
    · intro k hk
      obtain ⟨hval', -⟩ := hcall.occurrence_seconds (n := n) (k := k) (by omega)
      by_contra hlt
      have hmul := mul_add_le hn.le (Nat.lt_of_not_le hlt)
      omega
    · intro k hlt hk
      obtain ⟨hval', -⟩ := hcall.occurrence_seconds (n := n) (k := k) (by omega)
      have hmul := mul_add_le hn.le hlt
      omega

/-- The occurrences up to the one before the month of `now` are over, and they ascend. -/
theorem Call.months_order (hn : 0 < value * n) :
    ∃ q : ℕ, estimate offset start now (value * n) = q * (value * n) ∧
      (∀ k, now < occurrence offset start value (.months n) k → q ≤ k) ∧
      (∀ k, q < k → occurrence offset start value (.months n) k ≠ 0 →
        now < occurrence offset start value (.months n) k) ∧
      ∀ j k, j < k → occurrence offset start value (.months n) j ≠ 0 →
        occurrence offset start value (.months n) k ≠ 0 →
        occurrence offset start value (.months n) j < occurrence offset start value (.months n) k
    := by
  obtain ⟨hvalid, hsec⟩ := hcall.localStart
  obtain ⟨hvalid', hsec'⟩ := hcall.localNow
  have hle := hcall.start_le
  have hpos := hcall.start_pos
  have hperiod := period_le hvalid hvalid' (by omega)
  generalize hdiff : (gmtSecToTime offset now).period - (gmtSecToTime offset start).period = diff
  obtain ⟨q, hq, hq', hlt⟩ := exists_quotient hn (show 0 ≤ diff by omega)
  refine ⟨q, ?_, ?_, ?_, ?_⟩
  · unfold estimate
    rw [hdiff, hq]
  · intro k hk
    obtain ⟨l, hl, hlperiod, -, -, hval⟩ := hcall.occurrence_months hn.le (k := k) (by omega)
    by_contra hlt
    have hmul := mul_add_le hn.le (Nat.lt_of_not_le hlt)
    have hlt := toSec_lt hl hvalid' (by omega)
    omega
  · intro k hlt hne
    obtain ⟨l, hl, hlperiod, -, -, hval⟩ := hcall.occurrence_months hn.le hne
    have hmul := mul_add_le hn.le hlt
    have hlt := toSec_lt hvalid' hl (by omega)
    omega
  · intro j k hlt hne hne'
    obtain ⟨l, hl, hlperiod, -, -, hval⟩ := hcall.occurrence_months hn.le hne
    obtain ⟨l', hl', hlperiod', -, -, hval'⟩ := hcall.occurrence_months hn.le hne'
    have hmul := mul_add_le hn.le hlt
    have hlt := toSec_lt hl hl' (by omega)
    omega

section

variable (hn : 0 < value * n) {q : ℕ} {t : ℤ} (hne : t ≠ 0)
  (ht : addInterval offset (((gmtSecToTime offset start).addMonths (q * (value * n))).bind
    (·.addMonths (value * n))) = t)
include hn hne ht

/-- An occurrence at the time that two additions give is the one of that month. -/
theorem Call.eq_succ_of_two {k : ℕ} (hk : occurrence offset start value (.months n) k = t) :
    k = q + 1 := by
  subst ht
  obtain ⟨l, hl, hlperiod, -, -, hval⟩ := hcall.occurrence_months (k := k) hn.le (by omega)
  obtain ⟨l₂, heq₂, hadd, -, -⟩ := addInterval_ne_zero hne
  obtain ⟨l₁, heq₁, heq₂⟩ := Option.bind_eq_some_iff.mp heq₂
  have hmul : 0 ≤ (q : ℤ) * (value * n) := Int.mul_nonneg (Int.natCast_nonneg q) hn.le
  obtain ⟨hl₁, hperiod₁, -, -⟩ := addMonths_spec hcall.localStart.1 hmul heq₁
  obtain ⟨hl₂, hperiod₂, -, -⟩ := addMonths_spec hl₁ hn.le heq₂
  have hle := period_le hl hl₂ (by omega)
  have hge := period_le hl₂ hl (by omega)
  have heq : (k : ℤ) * (value * n) = (q + 1) * (value * n) := by
    rw [Int.add_mul]
    omega
  have hcast := Int.eq_of_mul_eq_mul_right hn.ne' heq
  omega

/-- Two additions give that occurrence if and only if the first one does not lose the day. -/
theorem Call.succ_eq_two_iff :
    occurrence offset start value (.months n) (q + 1) = t ↔
      min (gmtSecToTime offset start).day
          (monthDays ((gmtSecToTime offset start).period + q * (value * n) + value * n)) ≤
        monthDays ((gmtSecToTime offset start).period + q * (value * n)) := by
  subst ht
  obtain ⟨l₂, heq₂, hadd, hlow, hhigh⟩ := addInterval_ne_zero hne
  obtain ⟨l₁, heq₁, heq₂'⟩ := Option.bind_eq_some_iff.mp heq₂
  have hmul : 0 ≤ (q : ℤ) * (value * n) := Int.mul_nonneg (Int.natCast_nonneg q) hn.le
  have hsucc : ((q + 1 : ℕ) : ℤ) * (value * n) = q * (value * n) + value * n := by
    rw [Nat.cast_succ, Int.add_mul, Int.one_mul]
  obtain ⟨hl₁, hperiod₁, hsecs₁, hday₁⟩ := addMonths_spec hcall.localStart.1 hmul heq₁
  obtain ⟨hl₂, hperiod₂, hsecs₂, hday₂⟩ := addMonths_spec hl₁ hn.le heq₂'
  rw [hperiod₁] at hperiod₂ hday₂
  -- the sum of both with the start differs in the day only
  obtain ⟨l, heq⟩ : ∃ l, (gmtSecToTime offset start).addMonths (q * (value * n) + value * n) =
      some l := by
    rw [addMonths_eq, hperiod₁] at heq₂'
    rw [addMonths_eq, ← Int.add_assoc]
    split at heq₂'
    next hrange => exact ⟨_, if_pos hrange⟩
    next => exact nomatch heq₂'
  obtain ⟨hl, hperiod, hsecs, hday⟩ := addMonths_spec hcall.localStart.1 (by omega) heq
  have hsec := toSec_eq hl hl₂ (by omega) (by omega)
  have hocc : occurrence offset start value (.months n) (q + 1) = timeToGmtSec offset l := by
    rw [occurrence, hsucc, heq, addInterval, Option.map_some, Option.getD_some]
  rw [← Int.add_assoc] at hday
  rw [hadd, hocc, timeToGmtSec]
  constructor
  · intro hsame
    split at hsame <;> omega
  · intro hle
    rw [if_pos (by omega)]
    omega

end

/-- With months the result is right if the estimate is not over, or if its month has the day that
the schedule wants after one interval more. -/
theorem Call.isNext_months_iff (hn : 0 < value * n)
    (heq : nextByMonths offset start now (value * n) = some next) :
    IsNext (occurrence offset start value (.months n)) now next ↔
      DayKept offset start now (value * n) := by
  have hpos := hcall.start_pos
  have hle := hcall.start_le
  obtain ⟨q, hest, hfirst, hafter, hmono⟩ := hcall.months_order hn
  unfold nextByMonths at heq
  unfold DayKept
  dsimp only at heq ⊢
  rw [hest] at heq ⊢
  change (if occurrence offset start value (.months n) q = 0 then none else
    if occurrence offset start value (.months n) q ≤ now then _ else
    some (occurrence offset start value (.months n) q)) = _ at heq
  change _ ↔ now < occurrence offset start value (.months n) q ∨ _
  split at heq
  · exact nomatch heq
  next hne =>
  split at heq
  · next hover =>
    split at heq
    · exact nomatch heq
    next hne' =>
    obtain rfl := Option.some.inj heq
    rw [← hcall.succ_eq_two_iff hn hne' rfl, or_iff_right (by omega)]
    constructor
    · intro hnext
      obtain ⟨k, hk⟩ := hnext.scheduled
      obtain rfl := hcall.eq_succ_of_two hn hne' rfl hk
      exact hk
    · intro hsame
      rw [← hsame] at hne' ⊢
      refine IsNext.of_least (hafter _ (Nat.lt_succ_self q) hne') ?_ ?_
      · intro k hk
        rcases Nat.eq_or_lt_of_le (hfirst k hk) with rfl | hlt
        · omega
        · exact hlt
      · intro k hlt hk
        exact (hmono _ _ hlt hne' (by omega)).le
  · next hover =>
    obtain rfl := Option.some.inj heq
    have hlt := Int.not_le.mp hover
    refine iff_of_true (IsNext.of_least hlt hfirst ?_) (.inl hlt)
    intro k hlt hk
    exact (hmono _ _ hlt hne (by omega)).le

/-- No occurrence after `now` is a timestamp if the interval is no `int`. -/
theorem Call.occurrence_le {s : Scale} (hn : 2147483648 ≤ value * n)
    (hs : s = .months n ∨ s = .seconds n) (k : ℕ) : occurrence offset start value s k ≤ now := by
  have hpos := hcall.start_pos
  have hle := hcall.start_le
  by_contra hlt
  rcases hs with rfl | rfl
  · obtain ⟨l, hl, hperiod, hsecs, hday, hval⟩ :=
      hcall.occurrence_months (n := n) (k := k) (by omega) (by omega)
    obtain ⟨hvalid, hsec⟩ := hcall.localStart
    cases k with
    | zero =>
      rw [Nat.cast_zero, Int.zero_mul, Int.add_zero] at hperiod
      have hsec' := toSec_eq hl hvalid hperiod hsecs
      omega
    | succ k =>
      have hmul := mul_add_le (by omega : 0 ≤ value * n) (show 0 < k + 1 by omega)
      have hyear := hl.date.2.1
      have hmonth := hl.date.2.2.2.1
      have hstart : 0 ≤ (gmtSecToTime offset start).period := by
        unfold MysqlTime.period
        have hmonth := hvalid.date.2.2.1
        omega
      unfold MysqlTime.period at hperiod hstart
      omega
  · obtain ⟨hval, hmax⟩ := hcall.occurrence_seconds (n := n) (k := k) (by omega)
    cases k with
    | zero => omega
    | succ k =>
      have hmul := mul_add_le (by omega : 0 ≤ value * n) (show 0 < k + 1 by omega)
      omega

end

/-- The condition on an interval: it is an `int`, and months do not lose the day. -/
def Exact (offset start now value : ℤ) : Scale → Prop
  | .seconds n => value * n < 2147483648
  | .months n => value * n < 2147483648 ∧ DayKept offset start now (value * n)

theorem elim_eq_next {o : Option ℤ} {t : ℤ} (h : o.elim .error .next = Outcome.next t) :
    o = some t := by
  cases o with
  | none => exact nomatch h
  | some t' => rw [Outcome.next.inj h]

/-- A time that `get_next_time` finds is the first one of the schedule after `now` if and only if
the interval is an `int` and, with months, the day is not lost in the month of the estimate. -/
theorem getNextTime_isNext_iff {value next : ℤ} {type : IntervalType} {s : Scale}
    (hcall : Call offset start now value) (hscale : type.scale = some s)
    (hnext : getNextTime offset start now value type = .next next) :
    IsNext (occurrence offset start value s) now next ↔ Exact offset start now value s := by
  obtain ⟨n, hn, hs⟩ := type.scale_pos hscale
  have hpos : 0 < value * n := Int.mul_pos hcall.value_pos (by omega)
  rcases lt_or_ge (value * n) 2147483648 with hlt | hge
  · have hwrap := wrap_eq hpos.le hlt
    unfold getNextTime at hnext
    rcases hs with rfl | rfl
    · simp only [hscale, hwrap, if_neg hpos.ne'] at hnext
      rw [hcall.isNext_months_iff hpos (elim_eq_next hnext), Exact]
      exact (and_iff_right hlt).symm
    · simp only [hscale, hwrap, if_neg hpos.ne'] at hnext
      exact iff_of_true (hcall.isNext_seconds hpos (elim_eq_next hnext)) hlt
  · refine iff_of_false ?_ ?_
    · rintro ⟨⟨k, rfl⟩, hafter, -⟩
      have hle := hcall.occurrence_le hge hs k
      omega
    · rcases hs with rfl | rfl
      · exact fun h => Int.not_lt.mpr hge h.1
      · exact Int.not_lt.mpr hge

/-- Every month from 31 January 1970 on: after the execution of July comes the one of August. -/
theorem getNextTime_isNext_august : Call 0 2592000 18230400 1 ∧
    getNextTime 0 2592000 18230400 1 .month = .next 20908800 ∧
    IsNext (occurrence 0 2592000 1 (.months 1)) 18230400 20908800 := by
  have hcall : Call 0 2592000 18230400 1 := by constructor <;> decide
  have hnext : getNextTime 0 2592000 18230400 1 .month = .next 20908800 := by decide +kernel
  have hexact : Exact 0 2592000 18230400 1 (.months 1) := ⟨by decide, by decide +kernel⟩
  exact ⟨hcall, hnext, (getNextTime_isNext_iff hcall rfl hnext).mpr hexact⟩

/-- Every month from 31 January 1970 on: after the execution on 28 February the next one is found on
28 March, and not on 31 March. -/
theorem getNextTime_loses_day : Call 0 2592000 5011200 1 ∧
    occurrence 0 2592000 1 (.months 1) 1 = 5011200 ∧
    getNextTime 0 2592000 5011200 1 .month = .next 7430400 ∧
    occurrence 0 2592000 1 (.months 1) 2 = 7689600 ∧
    ¬ IsNext (occurrence 0 2592000 1 (.months 1)) 5011200 7430400 := by
  have hcall : Call 0 2592000 5011200 1 := by constructor <;> decide
  have hnext : nextByMonths 0 2592000 5011200 (1 * 1) = some 7430400 := by decide +kernel
  have hlost : ¬ DayKept 0 2592000 5011200 (1 * 1) := by decide +kernel
  refine ⟨hcall, by decide +kernel, by decide +kernel, by decide +kernel, ?_⟩
  exact fun h => hlost ((hcall.isNext_months_iff (by decide) hnext).mp h)

end MySQL.Sql.Events
