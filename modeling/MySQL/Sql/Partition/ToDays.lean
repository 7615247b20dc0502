import MySQL.Sql.Partition.Mapping
import MySQL.Sql.Time.Calendar

/-!
# Partitioning by TO_DAYS

`TO_DAYS` of a DATE column is NULL for the dates without a month or a day, such dates are
between others in the order of the column, and the end of an interval can be one of them.
-/

namespace MySQL.Sql.Partition

/-- A value of `Field_newdate`: five bits for the day, four for the month, the rest is the
year. -/
abbrev NewDate := Fin (2 ^ 24)

namespace NewDate

variable (d : NewDate)

def day : ℕ := d.val % 32

def month : ℕ := d.val / 32 % 16

def year : ℕ := d.val / 512

end NewDate

def newDateField : KeyField NewDate where
  packLengthInRec := 3
  realMaybeNull := false
  setKeyImage ptr := Fin.ofNat _ (ptr.foldr (fun b n => b.toNat + 256 * n) 0)

/-- `check_date` with the flags of `val_int_endpoint`: true if the date is not a real one. -/
def checkDate (d : NewDate) : Bool :=
  if d.year ≠ 0 ∨ d.month ≠ 0 ∨ d.day ≠ 0 then
    (d.month = 0 ∨ d.day = 0) ∨
      (d.month ≠ 0 ∧ daysInMonth.getD (d.month - 1) 0 < d.day ∧
        (d.month ≠ 2 ∨ isLeapYear d.year = false ∨ d.day ≠ 29))
  else true

/-- `Item_func_to_days` for a column of type DATE. -/
def toDays : PartExpr NewDate where
  valInt := WithBot.recBotCoe ⊥ fun d =>
    if d.month = 0 ∨ d.day = 0 then ⊥
    else (BitVec.ofInt 64 (calcDaynr d.year d.month d.day) : Longlong)
  isError _ := false
  valIntEndpoint c _ incl := WithBot.recBotCoe ⟨longlongMin, true, incl⟩
    (fun d => ⟨BitVec.ofInt 64 (calcDaynr d.year d.month d.day), checkDate d, incl⟩) c
  unsignedFlag := false
  monotonicityInfo := .strictIncreasingNotNull
  valInt_bot := rfl

/-- `PARTITION BY RANGE (TO_DAYS(d)) (PARTITION p0 VALUES LESS THAN (TO_DAYS('2001-01-01')))`. -/
def toDaysTable : PartitionInfo NewDate where
  field := newDateField
  partExpr := toDays
  table := .range ⟨[730851], false, by decide, by decide, by decide⟩

/-- `d >= '2001-05-05'`. -/
def fromMay : Interval := ⟨⟨false, true, false, false⟩, some [0xa5, 0xa2, 0x0f], some []⟩

theorem le_calcDaynr (year month day : ℕ) (hm : 0 < month ∧ month < 16) (hd : 0 < day ∧ day < 32)
    (hy : year < 2 ^ 15) (h : 2001 < year ∨ (year = 2001 ∧ (5 < month ∨ (month = 5 ∧ 5 ≤ day)))) :
    730975 ≤ calcDaynr year month day ∧ calcDaynr year month day < 2 ^ 32 := by
  rw [calcDaynr_of_pos (by omega)]
  rcases h with hyear | ⟨rfl, hmonth⟩
  · split_ifs <;> omega
  · split_ifs <;> omega

theorem number_toDays {d : NewDate} (h : 1024677 ≤ d.val) (hm : d.month ≠ 0) (hd : d.day ≠ 0) :
    730975 ≤ number false (BitVec.ofInt 64 (calcDaynr d.year d.month d.day)) := by
  obtain ⟨hge, hbound⟩ := le_calcDaynr d.year d.month d.day
    ⟨by omega, by simp only [NewDate.month]; omega⟩ ⟨by omega, by simp only [NewDate.day]; omega⟩
    (by simp only [NewDate.year]; omega)
    (by simp only [NewDate.year, NewDate.month, NewDate.day]; omega)
  rw [number, BitVec.toInt_ofInt,
    Int.bmod_eq_of_le (by omega) (by omega)]
  exact hge

theorem boundsEnds_fromMay : toDaysTable.BoundsEnds fromMay := by
  refine ⟨fun _ => PartExpr.boundsAt_of_notNull rfl fun x v hx hv => ?_,
    fun h => absurd h (by decide)⟩
  induction x using WithBot.recBotCoe with
  | bot => exact absurd hv WithBot.bot_ne_coe
  | coe d =>
    have hge : (1024677 : NewDate) ≤ d := WithBot.coe_le_coe.mp hx
    have hval : (if d.month = 0 ∨ d.day = 0 then ⊥
        else ((BitVec.ofInt 64 (calcDaynr d.year d.month d.day) : Longlong) :
          WithBot Longlong)) = v := hv
    split_ifs at hval with hnull
    · exact absurd hval WithBot.bot_ne_coe
    · obtain ⟨hm, hd⟩ := not_or.mp hnull
      rw [← WithBot.coe_inj.mp hval]
      exact number_toDays hge hm hd

/-- `'2002-00-00'`. -/
def noMonth : WithBot NewDate := ((1025024 : NewDate) : WithBot NewDate)

theorem contains_noMonth : toDaysTable.field.Contains fromMay noMonth :=
  ⟨fun _ => WithBot.coe_le_coe.mpr (by decide), fun h => absurd h (by decide)⟩

theorem getPartitionId_noMonth : toDaysTable.getPartitionId noMonth = some 0 := by
  decide +kernel

/-- The row is in the first partition and in the interval, but no partition is used. -/
theorem not_finds_fromMay :
    toDaysTable.BoundsEnds fromMay ∧ toDaysTable.field.Contains fromMay noMonth ∧
      toDaysTable.getPartitionId noMonth = some 0 ∧ ¬ toDaysTable.Finds fromMay 0 := by
  refine ⟨boundsEnds_fromMay, contains_noMonth, getPartitionId_noMonth, ?_⟩
  have hnone : toDaysTable.getPartIterForIntervalViaMapping fromMay = .noPartitions := rfl
  exact id

theorem finds_iff_fromMay :
    toDaysTable.Finds fromMay 0 ↔
      (toDaysTable.partExpr.valInt noMonth = ⊥ → toDaysTable.ReachesNull fromMay) ∧
        (toDaysTable.partExpr.valInt noMonth ≠ ⊥ →
          toDaysTable.SingleNull fromMay → 0 = toDaysTable.table.nullPartId) :=
  PartitionInfo.finds_iff boundsEnds_fromMay contains_noMonth getPartitionId_noMonth

end MySQL.Sql.Partition
