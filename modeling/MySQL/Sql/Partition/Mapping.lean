import MySQL.Sql.Partition.Ids

/-!
# Pruning by mapping

For `PARTITION BY RANGE` or `LIST` of a monotonic function of one column, an interval of the
column is mapped to a part of the array of bounds or of listed values.
-/

namespace MySQL.Sql.Partition

open Lib

inductive PartTable where
  | range (t : RangeTable)
  | list (t : ListTable)

/-- `partition_info`, as far as it is used here. -/
structure PartitionInfo (β : Type*) where
  field : KeyField β
  partExpr : PartExpr β
  table : PartTable

namespace PartTable

/-- `max_endpoint_val`. -/
def maxEndpointVal : PartTable → ℕ
  | range t => t.numParts
  | list t => t.numListValues

def isRange : PartTable → Bool
  | range _ => true
  | list _ => false

def hasNullValue : PartTable → Bool
  | range _ => false
  | list t => t.hasNullValue

/-- The partition of the entry `i` of the array. -/
def idAt : PartTable → ℕ → ℕ
  | range _ => id
  | list t => fun i => (t.listAt i).partitionId

def nullPartId : PartTable → ℕ
  | range _ => 0
  | list t => t.hasNullPartId

end PartTable

namespace PartitionInfo

variable {β : Type*} (pi : PartitionInfo β) (iv : Interval)

/-- `get_partition_id_range` or `get_partition_id_list`. -/
def getPartitionId : WithBot β → Option ℕ :=
  match pi.table with
  | .range t => getPartitionIdRange t pi.partExpr
  | .list t => getPartitionIdList t pi.partExpr

/-- The function `get_endpoint` points to. -/
def getEndpoint : Bool → Bool → WithBot β → ℕ :=
  match pi.table with
  | .range t => getPartitionIdRangeForEndpoint t pi.partExpr
  | .list t => getListArrayIdxForEndpoint t pi.partExpr

/-- `get_next_partition_id_range` or `get_next_partition_id_list`. -/
def getNext : PartIter → Option ℕ × PartIter :=
  getNextPartitionId pi.table.idAt pi.table.nullPartId

/-! ## The conditions of the function -/

def canMatchMultipleValues : Bool :=
  iv.flags.any || iv.minValue.isNone || iv.maxValue.isNone ||
    decide ((iv.minValue.getD []).take pi.field.packLengthInRec ≠
      (iv.maxValue.getD []).take pi.field.packLengthInRec)

def addsNullPart : Bool :=
  pi.canMatchMultipleValues iv && (pi.table.isRange || pi.table.hasNullValue) &&
    pi.partExpr.monotonicityInfo.notNull

/-- The left bound is `NULL <= X`, and NULL is listed. -/
def fromNull : Bool :=
  pi.field.realMaybeNull && pi.table.hasNullValue && !(iv.flags.noMinRange || iv.flags.nearMin) &&
    decide ((iv.minValue.getD []).headD 0 ≠ 0)

def findMaximum (start : ℕ) (retNullPart : Bool) : Pruning PartIter :=
  if iv.flags.noMaxRange then
    .iterator ⟨start, start, pi.table.maxEndpointVal, retNullPart, retNullPart⟩
  else
    let stop := pi.getEndpoint false (!iv.flags.nearMax) (pi.field.maxOf iv)
    if stop ≤ start ∧ retNullPart = false then .noPartitions
    else .iterator ⟨start, start, stop, retNullPart, retNullPart⟩

/-- `get_part_iter_for_interval_via_mapping`. -/
def getPartIterForIntervalViaMapping : Pruning PartIter :=
  if pi.table.isRange = false ∧ pi.table.maxEndpointVal = 0 then .allPartitions
  else if pi.fromNull iv then
    if iv.flags.noMaxRange = false ∧ (iv.maxValue.getD []).headD 0 ≠ 0 then
      .iterator ⟨0, 0, 0, true, true⟩
    else pi.findMaximum iv 0 true
  else if iv.flags.noMinRange then pi.findMaximum iv 0 (pi.addsNullPart iv)
  else
    let incl := !iv.flags.nearMin
    let start := pi.getEndpoint true incl (pi.field.minOf iv)
    if pi.canMatchMultipleValues iv = false ∧
        (pi.partExpr.valIntEndpoint (pi.field.minOf iv) true incl).nullValue then
      -- `col = x` and the function of `x` is NULL
      .iterator ⟨0, 0, 0, true, true⟩
    else if start = pi.table.maxEndpointVal then .noPartitions
    else pi.findMaximum iv start (pi.addsNullPart iv)

/-! ## What is found -/

def Finds (p : ℕ) : Prop := (pi.getPartIterForIntervalViaMapping iv).Covers pi.getNext p

/-- `val_int_endpoint` keeps its contract at the ends of the interval. -/
def BoundsEnds [LT β] [LE β] : Prop :=
  (iv.flags.noMinRange = false →
      pi.partExpr.BoundsAt true (!iv.flags.nearMin) (pi.field.minOf iv)) ∧
    (iv.flags.noMaxRange = false →
      pi.partExpr.BoundsAt false (!iv.flags.nearMax) (pi.field.maxOf iv))

def startIdx : ℕ :=
  if pi.fromNull iv || iv.flags.noMinRange then 0
  else pi.getEndpoint true (!iv.flags.nearMin) (pi.field.minOf iv)

def stopIdx : ℕ :=
  if iv.flags.noMaxRange then pi.table.maxEndpointVal
  else pi.getEndpoint false (!iv.flags.nearMax) (pi.field.maxOf iv)

def takenForNullValue : Bool :=
  !(pi.fromNull iv) && !iv.flags.noMinRange && !(pi.canMatchMultipleValues iv) &&
    (pi.partExpr.valIntEndpoint (pi.field.minOf iv) true (!iv.flags.nearMin)).nullValue

/-- The interval is `IS NULL`, and NULL is listed. -/
def isNullInterval : Bool :=
  pi.fromNull iv && !iv.flags.noMaxRange && decide ((iv.maxValue.getD []).headD 0 ≠ 0)

def InSubArray (p : ℕ) : Prop :=
  ∃ i, pi.startIdx iv ≤ i ∧ i < pi.stopIdx iv ∧ pi.table.idAt i = p

/-! ## Rows for which the function is NULL -/

/-- The interval begins with NULL itself, which is listed. -/
def BeginsWithNull : Prop :=
  pi.table.hasNullValue = true ∧ iv.flags.noMinRange = false ∧ iv.flags.nearMin = false ∧
    pi.field.minOf iv = ⊥

/-- The images of the ends say that the interval is one value, and the function is NULL for it. -/
def SingleNull : Prop :=
  ¬pi.BeginsWithNull iv ∧ pi.canMatchMultipleValues iv = false ∧
    (pi.partExpr.valIntEndpoint (pi.field.minOf iv) true (!iv.flags.nearMin)).nullValue = true

/-- Values of the entry `i` of the array are not below the left end. -/
def AtLeast (i : ℕ) : Prop :=
  let p := pi.partExpr.valIntEndpoint (pi.field.minOf iv) true (!iv.flags.nearMin)
  let v := signFlip pi.partExpr.unsignedFlag p.value
  iv.flags.noMinRange = true ∨
    p.nullValue = true ∧ pi.partExpr.monotonicityInfo.notNull = false ∨
      match pi.table with
      | .range t => (if p.inclEndp then v else v + 1).toInt < (t.rangeAt i).toInt ∨
          i + 1 = t.numParts ∧ t.definedMaxValue = true
      | .list t => Inside true p.inclEndp v.toInt (t.listAt i).listValue.toInt

/-- Values of the entry `i` of the array are not above the right end. -/
def AtMost (i : ℕ) : Prop :=
  let p := pi.partExpr.valIntEndpoint (pi.field.maxOf iv) false (!iv.flags.nearMax)
  let v := signFlip pi.partExpr.unsignedFlag p.value
  iv.flags.noMaxRange = true ∨
    match pi.table with
    | .range t => i = 0 ∨ Inside false p.inclEndp v.toInt (t.rangeAt (i - 1)).toInt
    | .list t => ¬(p.nullValue = true ∧ pi.partExpr.monotonicityInfo.notNull = false) ∧
        Inside false p.inclEndp v.toInt (t.listAt i).listValue.toInt

/-- The partition of the rows with NULL is wanted: because the interval has NULL, because it has
some values of the array and the function may be NULL between them, or for another value. -/
def ReachesNull : Prop :=
  pi.table.isRange = false ∧ pi.table.maxEndpointVal = 0 ∨ pi.BeginsWithNull iv ∨
    pi.SingleNull iv ∨
    pi.partExpr.monotonicityInfo.notNull = true ∧ pi.canMatchMultipleValues iv = true ∧
      (∃ i < pi.table.maxEndpointVal, pi.AtLeast iv i) ∨
    ∃ i < pi.table.maxEndpointVal, pi.table.idAt i = pi.table.nullPartId ∧ pi.AtLeast iv i ∧
      pi.AtMost iv i

variable {pi iv} {p : ℕ}

theorem covers_findMaximum {start : ℕ} {ret : Bool} :
    (pi.findMaximum iv start ret).Covers pi.getNext p ↔
      (∃ i, start ≤ i ∧ i < pi.stopIdx iv ∧ pi.table.idAt i = p) ∨
        (ret = true ∧ p = pi.table.nullPartId) := by
  simp only [findMaximum, stopIdx]
  split_ifs with hmax hempty
  · exact yields_getNextPartitionId _
  · obtain ⟨hle, rfl⟩ := hempty
    simp only [Pruning.Covers, false_iff, not_or, not_exists, Bool.false_eq_true, false_and,
      not_false_eq_true, and_true]
    omega
  · exact yields_getNextPartitionId _

theorem maxEndpointVal_pos (h : ¬ (pi.table.isRange = false ∧ pi.table.maxEndpointVal = 0)) :
    0 < pi.table.maxEndpointVal := by
  cases ht : pi.table with
  | range t => exact t.pos
  | list t =>
    rw [ht] at h
    exact Nat.pos_of_ne_zero fun hzero => h ⟨rfl, hzero⟩

theorem yields_nullPart : Yields pi.getNext ⟨0, 0, 0, true, true⟩ p ↔ p = pi.table.nullPartId := by
  rw [getNext, yields_getNextPartitionId]
  simp

theorem finds_iff_conditions (hlist : ¬ (pi.table.isRange = false ∧ pi.table.maxEndpointVal = 0)) :
    pi.Finds iv p ↔
      if pi.isNullInterval iv || pi.takenForNullValue iv then p = pi.table.nullPartId
      else pi.startIdx iv ≠ pi.table.maxEndpointVal ∧
        (pi.InSubArray iv p ∨
          ((pi.fromNull iv || pi.addsNullPart iv) = true ∧ p = pi.table.nullPartId)) := by
  have hpos := maxEndpointVal_pos hlist
  rw [Finds, getPartIterForIntervalViaMapping, if_neg hlist]
  cases hfrom : pi.fromNull iv with
  | true =>
    have htaken : pi.takenForNullValue iv = false := by simp [takenForNullValue, hfrom]
    have hstart : pi.startIdx iv = 0 := by simp [startIdx, hfrom]
    rw [if_pos rfl, htaken]
    by_cases hnull : iv.flags.noMaxRange = false ∧ (iv.maxValue.getD []).headD 0 ≠ 0
    · rw [if_pos hnull, if_pos (by simpa [isNullInterval, hfrom] using hnull)]
      exact yields_nullPart
    · rw [if_neg hnull, if_neg (by simpa [isNullInterval, hfrom] using hnull), InSubArray, hstart]
      exact covers_findMaximum.trans (by simp [hpos.ne])
  | false =>
    have hint : pi.isNullInterval iv = false := by simp [isNullInterval, hfrom]
    rw [hint, Bool.false_or]
    cases hmin : iv.flags.noMinRange with
    | true =>
      have htaken : pi.takenForNullValue iv = false := by simp [takenForNullValue, hmin]
      have hstart : pi.startIdx iv = 0 := by simp [startIdx, hmin]
      rw [htaken, InSubArray, hstart]
      exact covers_findMaximum.trans (by simp [hpos.ne])
    | false =>
      have hstart : pi.startIdx iv =
          pi.getEndpoint true (!iv.flags.nearMin) (pi.field.minOf iv) := by
        simp [startIdx, hfrom, hmin]
      have htaken : pi.takenForNullValue iv = true ↔ pi.canMatchMultipleValues iv = false ∧
          (pi.partExpr.valIntEndpoint (pi.field.minOf iv) true (!iv.flags.nearMin)).nullValue :=
        by simp [takenForNullValue, hfrom, hmin]
      dsimp only
      rw [← hstart]
      by_cases hnull : pi.takenForNullValue iv = true
      · rw [if_pos (htaken.mp hnull), if_pos hnull]
        exact yields_nullPart
      · rw [if_neg (mt htaken.mpr hnull), if_neg hnull]
        by_cases hend : pi.startIdx iv = pi.table.maxEndpointVal
        · simp [Pruning.Covers, hend]
        · rw [if_neg hend]
          exact covers_findMaximum.trans (by simp [hend, InSubArray])

/-! ## Rows with a value -/

variable [LT β] [LE β] {x : WithBot β} {v : Longlong}

theorem inSubArray_of_value (hb : pi.BoundsEnds iv) (hx : pi.field.Contains iv x)
    (hv : pi.partExpr.valInt x = v) (hp : pi.getPartitionId x = some p) :
    pi.startIdx iv < pi.table.maxEndpointVal ∧ pi.InSubArray iv p := by
  obtain ⟨i, hi, hid, hleft, hright⟩ : ∃ i, i < pi.table.maxEndpointVal ∧ pi.table.idAt i = p ∧
      (∀ incl c, pi.partExpr.BoundsAt true incl c → Inside true incl c x →
        pi.getEndpoint true incl c ≤ i) ∧
      (∀ incl c, pi.partExpr.BoundsAt false incl c → Inside false incl c x →
        i < pi.getEndpoint false incl c) := by
    cases ht : pi.table with
    | range t =>
      simp only [getPartitionId, getEndpoint, ht] at hp ⊢
      have hholds := holds_of_getPartitionIdRange hv hp
      exact ⟨p, hholds.1, rfl, fun incl c hb hx => rangeForEndpoint_le hb hx hv hholds,
        fun incl c hb hx => lt_rangeForEndpoint hb hx hv hholds⟩
    | list t =>
      simp only [getPartitionId, getEndpoint, ht] at hp ⊢
      obtain ⟨i, hi, hplace, hid⟩ := exists_of_getPartitionIdList hv hp
      exact ⟨i, hi, hid, fun incl c hb hx => listIdxForEndpoint_le hb hx hv hi hplace,
        fun incl c hb hx => lt_listIdxForEndpoint hb hx hv hi hplace⟩
  have hstart : pi.startIdx iv ≤ i := by
    rw [startIdx]
    split_ifs with hzero
    · exact Nat.zero_le i
    · have hmin : iv.flags.noMinRange = false := by
        cases h : iv.flags.noMinRange <;> simp_all
      exact hleft _ _ (hb.1 hmin) (hx.1 hmin)
  have hstop : i < pi.stopIdx iv := by
    rw [stopIdx]
    split_ifs with hmax
    · exact hi
    · have hmax := Bool.eq_false_iff.mpr hmax
      exact hright _ _ (hb.2 hmax) (hx.2 hmax)
  exact ⟨hstart.trans_lt hi, i, hstart, hstop, hid⟩

theorem eq_bot_of_isNullInterval (h : pi.isNullInterval iv = true) (hx : pi.field.Contains iv x) :
    x = ⊥ := by
  simp only [isNullInterval, fromNull, Bool.and_eq_true, Bool.not_eq_true', decide_eq_true_eq] at h
  obtain ⟨⟨⟨⟨⟨hnull, -⟩, -⟩, -⟩, hmax⟩, hhead⟩ := h
  have hbot : pi.field.maxOf iv = ⊥ := by
    rw [KeyField.maxOf, KeyField.storeKeyImage, if_pos hnull, if_pos hhead]
  have hin := hx.2 hmax
  rw [hbot] at hin
  induction x using WithBot.recBotCoe with
  | bot => rfl
  | coe b =>
    cases hnear : iv.flags.nearMax with
    | true =>
      rw [hnear] at hin
      exact absurd hin (WithBot.not_lt_bot _)
    | false =>
      rw [hnear] at hin
      exact absurd hin (WithBot.not_coe_le_bot b)

theorem finds_iff_of_value (hb : pi.BoundsEnds iv) (hx : pi.field.Contains iv x)
    (hv : pi.partExpr.valInt x = v) (hp : pi.getPartitionId x = some p) :
    pi.Finds iv p ↔ (pi.takenForNullValue iv = true → p = pi.table.nullPartId) := by
  obtain ⟨hstart, hsub⟩ := inSubArray_of_value hb hx hv hp
  have hint : pi.isNullInterval iv = false := by
    rw [Bool.eq_false_iff]
    intro hnull
    rw [eq_bot_of_isNullInterval hnull hx, pi.partExpr.valInt_bot] at hv
    exact WithBot.bot_ne_coe hv
  rw [finds_iff_conditions fun hempty => by omega, hint]
  split_ifs with htaken
  · exact ⟨fun hp _ => hp, fun hp => hp htaken⟩
  · exact iff_of_true ⟨hstart.ne, .inl hsub⟩ fun h => absurd h htaken

omit [LT β] [LE β] in
theorem eq_nullPartId (hv : pi.partExpr.valInt x = ⊥) (hp : pi.getPartitionId x = some p) :
    p = pi.table.nullPartId := by
  rw [getPartitionId] at hp
  cases ht : pi.table with
  | range t =>
    simp only [ht, getPartitionIdRange, partValInt, hv] at hp
    cases herr : pi.partExpr.isError x <;> simp_all [PartTable.nullPartId]
  | list t =>
    simp only [ht, getPartitionIdList, partValInt, hv] at hp
    cases herr : pi.partExpr.isError x <;> simp_all [PartTable.nullPartId]

omit [LT β] [LE β] in
theorem fromNull_iff : pi.fromNull iv = true ↔ pi.BeginsWithNull iv := by
  have hbot : pi.field.minOf iv = ⊥ ↔
      pi.field.realMaybeNull = true ∧ (iv.minValue.getD []).headD 0 ≠ 0 := by
    rw [KeyField.minOf, KeyField.storeKeyImage]
    split_ifs with hnull hhead <;> simp_all
  simp only [fromNull, BeginsWithNull, hbot, Bool.and_eq_true, Bool.not_eq_true',
    Bool.or_eq_false_iff, decide_eq_true_eq]
  tauto

omit [LT β] [LE β] in
theorem takenForNullValue_iff : pi.takenForNullValue iv = true ↔ pi.SingleNull iv := by
  have hflags (h : pi.canMatchMultipleValues iv = false) : iv.flags.noMinRange = false := by
    simp only [canMatchMultipleValues, RangeFlags.any, Bool.or_eq_false_iff] at h
    exact h.1.1.1.1.1.1
  simp only [takenForNullValue, SingleNull, ← fromNull_iff, Bool.and_eq_true, Bool.not_eq_true',
    Bool.not_eq_true]
  tauto

omit [LT β] [LE β] in
theorem startIdx_le_iff {i : ℕ} (hi : i < pi.table.maxEndpointVal) :
    pi.startIdx iv ≤ i ↔ pi.BeginsWithNull iv ∨ pi.AtLeast iv i := by
  rw [startIdx, ← fromNull_iff, AtLeast]
  cases pi.fromNull iv with
  | true => simp
  | false =>
    cases iv.flags.noMinRange with
    | true => simp
    | false =>
      simp only [Bool.or_self, Bool.false_eq_true, if_false, false_or, getEndpoint]
      by_cases hnull : (pi.partExpr.valIntEndpoint (pi.field.minOf iv) true
          (!iv.flags.nearMin)).nullValue = true ∧ pi.partExpr.monotonicityInfo.notNull = false
      · cases pi.table <;> simp [getPartitionIdRangeForEndpoint, getListArrayIdxForEndpoint, hnull]
      rw [or_iff_right hnull]
      cases ht : pi.table with
      | range t =>
        rw [ht] at hi
        dsimp only
        rw [← RangeTable.leftEndpoint_le_iff hi]
        simp only [getPartitionIdRangeForEndpoint, if_neg hnull, if_true]
      | list t =>
        rw [ht] at hi
        exact (listIdxForEndpoint_le_iff hnull hi).trans (by rw [Bool.true_beq])

omit [LT β] [LE β] in
theorem getEndpoint_le (hpos : 0 < pi.table.maxEndpointVal) (left incl : Bool) (c : WithBot β) :
    pi.getEndpoint left incl c ≤ pi.table.maxEndpointVal := by
  rw [getEndpoint]
  cases ht : pi.table with
  | range t =>
    have hlt (v : Longlong) := (t.searchFrom_spec v).1
    simp only [getPartitionIdRangeForEndpoint, RangeTable.leftEndpoint, RangeTable.rightEndpoint,
      PartTable.maxEndpointVal]
    split_ifs
    all_goals first | exact t.pos | exact Nat.zero_le _ | exact hlt _ | exact (hlt _).le | omega
  | list t =>
    rw [ht] at hpos
    simp only [getListArrayIdxForEndpoint, PartTable.maxEndpointVal]
    split_ifs
    · exact Nat.zero_le _
    · exact bisectIdx_le (t.ascending_place _) (t.place_ne_eq _) _ hpos

omit [LT β] [LE β] in
theorem startIdx_ne_iff (hpos : 0 < pi.table.maxEndpointVal) :
    pi.startIdx iv ≠ pi.table.maxEndpointVal ↔
      pi.BeginsWithNull iv ∨ ∃ i < pi.table.maxEndpointVal, pi.AtLeast iv i := by
  have hle : pi.startIdx iv ≤ pi.table.maxEndpointVal := by
    rw [startIdx]
    split_ifs
    · exact Nat.zero_le _
    · exact getEndpoint_le hpos ..
  constructor
  · intro hne
    have hlast : pi.table.maxEndpointVal - 1 < pi.table.maxEndpointVal := by omega
    exact ((startIdx_le_iff hlast).mp (by omega)).imp_right fun h => ⟨_, hlast, h⟩
  · rintro (hbegin | ⟨i, hi, hleast⟩)
    · have hzero := (startIdx_le_iff hpos).mpr (.inl hbegin)
      omega
    · have hstart := (startIdx_le_iff hi).mpr (.inr hleast)
      omega

/-- The partition of a row for which the function is NULL ends behind the right end. -/
theorem lt_stopIdx_iff {i : ℕ} (hb : pi.BoundsEnds iv) (hx : pi.field.Contains iv x)
    (hv : pi.partExpr.valInt x = ⊥) (hi : i < pi.table.maxEndpointVal)
    (hid : pi.table.idAt i = pi.table.nullPartId) : i < pi.stopIdx iv ↔ pi.AtMost iv i := by
  rw [stopIdx, AtMost]
  cases hmax : iv.flags.noMaxRange with
  | true => simpa using hi
  | false =>
    simp only [Bool.false_eq_true, if_false, false_or, getEndpoint]
    have hb := hb.2 hmax x (hx.2 hmax)
    generalize hnear : (!iv.flags.nearMax) = incl at hb ⊢
    cases ht : pi.table with
    | range t =>
      rw [ht] at hid
      obtain rfl : i = 0 := hid
      refine iff_of_true ?_ (.inl rfl)
      simp only [getPartitionIdRangeForEndpoint, Bool.false_eq_true, if_false]
      split_ifs with hnull hincl
      · exact Nat.one_pos
      · -- NULL is not in front of NULL
        have hexcl : (pi.partExpr.valIntEndpoint (pi.field.maxOf iv) false incl).inclEndp = false :=
          by simpa using hincl
        rw [hnull.2, if_neg Bool.false_ne_true, PartExpr.bound, if_pos hnull.1, PartExpr.func, hv,
          WithBot.map_bot, hexcl] at hb
        exact absurd hb (lt_irrefl _)
      · exact Nat.succ_pos _
    | list t =>
      rw [ht] at hi
      dsimp only
      by_cases hnull :
          (pi.partExpr.valIntEndpoint (pi.field.maxOf iv) false incl).nullValue = true ∧
            pi.partExpr.monotonicityInfo.notNull = false
      · simp [getListArrayIdxForEndpoint, hnull]
      · rw [and_iff_right hnull, ← not_le, listIdxForEndpoint_le_iff hnull hi, Bool.false_beq,
          not_inside_true]

theorem finds_nullPart_iff (hb : pi.BoundsEnds iv) (hx : pi.field.Contains iv x)
    (hv : pi.partExpr.valInt x = ⊥) (hp : pi.getPartitionId x = some p) :
    pi.Finds iv pi.table.nullPartId ↔ pi.ReachesNull iv := by
  by_cases hempty : pi.table.isRange = false ∧ pi.table.maxEndpointVal = 0
  · refine iff_of_true ?_ (.inl hempty)
    rw [Finds, getPartIterForIntervalViaMapping, if_pos hempty]
    trivial
  have hpos := maxEndpointVal_pos hempty
  have hstop : pi.stopIdx iv ≤ pi.table.maxEndpointVal := by
    rw [stopIdx]
    split_ifs
    · exact le_rfl
    · exact getEndpoint_le hpos ..
  have hsub : pi.InSubArray iv pi.table.nullPartId ↔ ∃ i < pi.table.maxEndpointVal,
      pi.table.idAt i = pi.table.nullPartId ∧ (pi.BeginsWithNull iv ∨ pi.AtLeast iv i) ∧
        pi.AtMost iv i := by
    constructor
    · rintro ⟨i, hstart, hi, hid⟩
      have hmax := hi.trans_le hstop
      exact ⟨i, hmax, hid, (startIdx_le_iff hmax).mp hstart,
        (lt_stopIdx_iff hb hx hv hmax hid).mp hi⟩
    · rintro ⟨i, hmax, hid, hstart, hi⟩
      exact ⟨i, (startIdx_le_iff hmax).mpr hstart, (lt_stopIdx_iff hb hx hv hmax hid).mpr hi, hid⟩
  have hnull : (pi.table.isRange || pi.table.hasNullValue) = true := by
    rw [getPartitionId] at hp
    cases ht : pi.table with
    | range t => rfl
    | list t =>
      simp only [ht, getPartitionIdList, partValInt, hv] at hp
      cases herr : pi.partExpr.isError x <;> simp_all [PartTable.hasNullValue]
  have hadds : pi.addsNullPart iv = true ↔
      pi.partExpr.monotonicityInfo.notNull = true ∧ pi.canMatchMultipleValues iv = true := by
    rw [addsNullPart, hnull, Bool.and_true, Bool.and_eq_true, and_comm]
  rw [finds_iff_conditions hempty, startIdx_ne_iff hpos, hsub, ReachesNull, or_iff_right hempty]
  by_cases hbegin : pi.BeginsWithNull iv
  · have hfrom := fromNull_iff.mpr hbegin
    refine iff_of_true ?_ (.inl hbegin)
    split_ifs
    · rfl
    · exact ⟨.inl hbegin, .inr ⟨by simp [hfrom], rfl⟩⟩
  · have hfrom : pi.fromNull iv = false := by
      rw [← Bool.not_eq_true, fromNull_iff]
      exact hbegin
    have hint : pi.isNullInterval iv = false := by simp [isNullInterval, hfrom]
    rw [hint, Bool.false_or]
    by_cases hsingle : pi.SingleNull iv
    · simp [hsingle, takenForNullValue_iff.mpr hsingle]
    · rw [if_neg (mt takenForNullValue_iff.mp hsingle)]
      simp only [hbegin, hsingle, false_or, hfrom, Bool.false_or, hadds, and_true]
      constructor
      · rintro ⟨hleast, hin | ⟨hnot, hmulti⟩⟩
        · exact .inr hin
        · exact .inl ⟨hnot, hmulti, hleast⟩
      · rintro (⟨hnot, hmulti, hleast⟩ | ⟨i, hi, hid, hleast, hmost⟩)
        · exact ⟨hleast, .inr ⟨hnot, hmulti⟩⟩
        · exact ⟨⟨i, hi, hleast⟩, .inl ⟨i, hi, hid, hleast, hmost⟩⟩

/-- A row of the interval is found, unless the function is NULL for it and the partition of such
rows is not wanted, or the interval is taken for a single value for which it is NULL. -/
theorem finds_iff (hb : pi.BoundsEnds iv) (hx : pi.field.Contains iv x)
    (hp : pi.getPartitionId x = some p) :
    pi.Finds iv p ↔
      (pi.partExpr.valInt x = ⊥ → pi.ReachesNull iv) ∧
        (pi.partExpr.valInt x ≠ ⊥ → pi.SingleNull iv → p = pi.table.nullPartId) := by
  cases hv : pi.partExpr.valInt x with
  | bot =>
    rw [eq_nullPartId hv hp, finds_nullPart_iff hb hx hv hp]
    simp
  | coe v =>
    rw [finds_iff_of_value hb hx hv hp, takenForNullValue_iff]
    simp

end PartitionInfo

end MySQL.Sql.Partition
