import MySQL.Sql.Partition.Columns

/-!
# Pruning for RANGE COLUMNS and LIST COLUMNS

The ends of an interval are tuples of the first columns.  An endpoint is searched as if the
other columns held the least or the greatest values.
-/

namespace MySQL.Sql.Partition

open Lib

/-! ## The searches -/

/-- The loop of `get_partition_id_cols_range_for_endpoint` with the look at the next bound;
`f i` is the comparison with the bound `i`. -/
def colsRangeLoc (f : ℕ → Ordering) (numParts : ℕ) : ℕ :=
  let maxPartition := numParts - 1
  let loc := bisectCeil (fun i => decide (f i ≠ .lt)) numParts 0 maxPartition
  if loc < maxPartition ∧ f (loc + 1) ≠ .lt then loc + 1 else loc

def colsRangeSearch (f : ℕ → Ordering) (numParts : ℕ) (left incl : Bool) : ℕ :=
  let loc := colsRangeLoc f numParts
  if left then if f loc ≠ .lt then loc + 1 else loc
  else
    (if loc < numParts - 1 then
      match f loc with
      | .eq => if incl then loc + 1 else loc
      | .gt => loc + 1
      | .lt => loc
    else loc) + 1

section

variable {f : ℕ → Ordering} {n k : ℕ} {incl : Bool}

theorem colsRangeLoc_spec (hk : IsCut (fun i => f i ≠ .lt) n k) (hn : 0 < n) :
    colsRangeLoc f n ≤ k ∧ k ≤ colsRangeLoc f n + 1 ∧ colsRangeLoc f n ≤ n - 1 := by
  have hcut : IsCut (fun i => decide (f i ≠ .lt) = true) n k := by
    simpa only [decide_eq_true_eq] using hk
  have hspec := bisectCeil_spec hcut n 0 (n - 1) (by omega) (Nat.zero_le k)
    (by have := hk.le; omega) (by omega) (by omega)
  rw [colsRangeLoc, if_neg]
  · exact hspec
  · rintro ⟨hlt, hnext⟩
    exact hk.above _ hspec.2.1 (by omega) hnext

theorem colsRangeSearch_left (hk : IsCut (fun i => f i ≠ .lt) n k) (hn : 0 < n) :
    colsRangeSearch f n true incl = k := by
  obtain ⟨hle, hge, hmax⟩ := colsRangeLoc_spec hk hn
  simp only [colsRangeSearch, if_true]
  generalize colsRangeLoc f n = h at hle hge hmax ⊢
  have hat := hk.lt_iff (i := h) (by omega)
  split_ifs with hnb
  · have := hat.mpr hnb
    omega
  · have := mt hat.mp hnb
    omega

theorem lt_colsRangeSearch_right (hk : IsCut (fun i => f i ≠ .lt) n k) {p : ℕ} (hp : p < n)
    (hpk : p ≤ k) (hex : incl = false → ∀ i, i < n → f i = .eq → p ≤ i) :
    p < colsRangeSearch f n false incl := by
  obtain ⟨hle, hge, hmax⟩ := colsRangeLoc_spec hk (Nat.zero_lt_of_lt hp)
  simp only [colsRangeSearch, Bool.false_eq_true, if_false]
  generalize colsRangeLoc f n = h at hle hge hmax ⊢
  have hat := hk.lt_iff (i := h) (by omega)
  apply Nat.lt_succ_of_le
  by_cases hlast : h < n - 1
  · rw [if_pos hlast]
    cases hf : f h with
    | lt =>
      have hkh : ¬ h < k := fun hlt => hat.mp hlt hf
      exact hpk.trans (Nat.not_lt.mp hkh)
    | gt => exact hpk.trans hge
    | eq =>
      cases incl with
      | true => exact hpk.trans hge
      | false => exact hex rfl h (by omega) hf
  · rw [if_neg hlast]
    omega

end

section

variable {α : Type*} {c : ℕ → α → α → Ordering}

namespace TupleArray

variable (t : TupleArray c)

/-- `get_partition_id_cols_range_for_endpoint`. -/
def getPartitionIdColsRangeForEndpoint (left incl : Bool) (fields : List (WithBot α)) : ℕ :=
  let tailf := !(left ^^ incl)
  colsRangeSearch (fun i => cmpRecAndTuplePrune c t.numColumns fields (t.tupleAt i) tailf) t.size
    left incl

/-- `get_partition_id_cols_list_for_endpoint`. -/
def getPartitionIdColsListForEndpoint (left incl : Bool) (fields : List (WithBot α)) : ℕ :=
  let tailf := !(left ^^ incl)
  bisectIdx tailf
    (bisect (fun i => (cmpRecAndTuplePrune c t.numColumns fields (t.tupleAt i) tailf).swap) t.size 0
      (t.size - 1))

end TupleArray

def TupleInside (c : ℕ → α → α → Ordering) (left incl : Bool) (fields row : List (WithBot α)) :
    Prop :=
  let o := tupleCmp c fields (row.map ColVal.ofField)
  match left, incl with
  | true, true => o.isLE
  | true, false => o = .lt
  | false, true => o.isGE
  | false, false => o = .gt

namespace TupleArray

variable {t : TupleArray c} [∀ i, Std.TransCmp (c i)] {fields row : List (WithBot α)}
  {left incl tailf : Bool} {i p : ℕ}

section

variable (hlen : fields.length ≤ t.numColumns) (hrow : row.length = t.numColumns) (hi : i < t.size)

include hlen hrow hi

/-! ### A record between the endpoint and a tuple of the array -/

theorem lt_of_lt_of_isLE (h : tupleCmp c fields (row.map ColVal.ofField) = .lt)
    (hval : (tupleCmp c row (t.tupleAt i)).isLE) : tupleCmp c fields (t.tupleAt i) = .lt := by
  refine headCmp_lt_of_lt_of_isLE ?_ ?_ h hval
  · simpa [hrow] using hlen
  · simp [hrow, length_tupleAt hi]

theorem isLE_of_isLE (h : (tupleCmp c fields (row.map ColVal.ofField)).isLE)
    (hval : (tupleCmp c row (t.tupleAt i)).isLE) : (tupleCmp c fields (t.tupleAt i)).isLE := by
  refine headCmp_isLE_trans ?_ ?_ h hval
  · simpa [hrow] using hlen
  · simp [hrow, length_tupleAt hi]

theorem gt_of_gt_of_isGE (h : tupleCmp c fields (row.map ColVal.ofField) = .gt)
    (hval : (tupleCmp c row (t.tupleAt i)).isGE) : tupleCmp c fields (t.tupleAt i) = .gt := by
  refine headCmp_gt_of_gt_of_isGE ?_ ?_ h hval
  · simpa [hrow] using hlen
  · simp [hrow, length_tupleAt hi]

theorem isGE_of_isGE (h : (tupleCmp c fields (row.map ColVal.ofField)).isGE)
    (hval : (tupleCmp c row (t.tupleAt i)).isGE) : (tupleCmp c fields (t.tupleAt i)).isGE := by
  refine headCmp_isGE_trans ?_ ?_ h hval
  · simpa [hrow] using hlen
  · simp [hrow, length_tupleAt hi]

end

section

variable (hlen : fields.length ≤ t.numColumns)

include hlen

theorem prune_lt_mono {i j : ℕ} (hij : i ≤ j)
    (hj : j < t.size) (h : cmpRecAndTuplePrune c t.numColumns fields (t.tupleAt i) tailf = .lt) :
    cmpRecAndTuplePrune c t.numColumns fields (t.tupleAt j) tailf = .lt := by
  rw [prune_eq_lt] at h ⊢
  rcases h with hlt | ⟨heq, htail⟩
  · exact .inl (tupleCmp_lt_mono hlen hj hij hlt)
  · have hle := tupleCmp_isLE_mono hlen hj hij (Ordering.isLE_of_eq_eq heq)
    rcases Ordering.isLE_iff_eq_lt_or_eq_eq.mp hle with hlt | heq
    · exact .inl hlt
    · exact .inr ⟨heq, htail⟩

theorem exists_pruneCut (tailf : Bool) :
    ∃ k, IsCut (fun i => cmpRecAndTuplePrune c t.numColumns fields (t.tupleAt i) tailf ≠ .lt)
      t.size k :=
  IsCut.exists_of_closed t.size fun _ _ hij hj h hlt => h (prune_lt_mono hlen hij hj hlt)

section

variable (hrow : row.length = t.numColumns)

include hrow

theorem prune_eq_lt_of_left (hi : i < t.size) (hin : TupleInside c true incl fields row)
    (hval : tupleCmp c row (t.tupleAt i) = .lt) :
    cmpRecAndTuplePrune c t.numColumns fields (t.tupleAt i) incl = .lt := by
  rw [prune_eq_lt]
  cases incl with
  | false => exact .inl (lt_of_lt_of_isLE hlen hrow hi hin (Ordering.isLE_of_eq_lt hval))
  | true =>
    rcases hlen.lt_or_eq with hlt | hfull
    · have hle := isLE_of_isLE hlen hrow hi hin (Ordering.isLE_of_eq_lt hval)
      rcases Ordering.isLE_iff_eq_lt_or_eq_eq.mp hle with h | h
      · exact .inl h
      · exact .inr ⟨h, rfl, hlt⟩
    · left
      refine headCmp_lt_of_isLE_of_lt ?_ ?_ hin hval
      · simp [hfull, hrow]
      · simp [hrow, length_tupleAt hi]

theorem lt_of_prune_eq_lt (hi : i < t.size) (hin : TupleInside c false incl fields row)
    (hval : cmpRecAndTuplePrune c t.numColumns fields (t.tupleAt i) (!incl) = .lt) :
    tupleCmp c row (t.tupleAt i) = .lt := by
  by_contra hne
  have hge : (tupleCmp c row (t.tupleAt i)).isGE := by
    simpa [Ordering.isGE_iff_ne_lt] using hne
  rw [prune_eq_lt] at hval
  cases incl with
  | false =>
    have hgt := gt_of_gt_of_isGE hlen hrow hi hin hge
    rw [hgt] at hval
    simp at hval
  | true =>
    have hge := isGE_of_isGE hlen hrow hi hin hge
    rcases hval with hlt | ⟨-, hfalse, -⟩
    · rw [hlt] at hge
      cases hge
    · cases hfalse

theorem colsRangeForEndpoint_le (hin : TupleInside c true incl fields row) (hp : p < t.size)
    (hval : tupleCmp c row (t.tupleAt p) = .lt) :
    t.getPartitionIdColsRangeForEndpoint true incl fields ≤ p := by
  obtain ⟨k, hk⟩ := t.exists_pruneCut hlen incl
  have hstart : t.getPartitionIdColsRangeForEndpoint true incl fields = k := by
    rw [getPartitionIdColsRangeForEndpoint, Bool.true_xor, Bool.not_not]
    exact colsRangeSearch_left hk t.pos
  rw [hstart]
  by_contra hlt
  exact hk.below p (Nat.not_le.mp hlt) (prune_eq_lt_of_left hlen hrow hp hin hval)

theorem lt_colsRangeForEndpoint (hin : TupleInside c false incl fields row)
    (hp : p < t.size) (hval : ∀ i, i < p → tupleCmp c row (t.tupleAt i) ≠ .lt) :
    p < t.getPartitionIdColsRangeForEndpoint false incl fields := by
  obtain ⟨k, hk⟩ := t.exists_pruneCut hlen (!incl)
  rw [getPartitionIdColsRangeForEndpoint, Bool.false_xor]
  refine lt_colsRangeSearch_right hk hp ?_ ?_
  · by_contra hlt
    have hkp := Nat.not_le.mp hlt
    have hkn := hkp.trans hp
    exact hval k hkp (lt_of_prune_eq_lt hlen hrow hkn hin (not_not.mp (hk.above k le_rfl hkn)))
  · rintro rfl i hi heq
    by_contra hlt
    -- the bound is the end of the interval, which is above all its records
    have hge : (tupleCmp c row (t.tupleAt i)).isGE := by
      simpa [Ordering.isGE_iff_ne_lt] using hval i (Nat.not_le.mp hlt)
    rw [prune_eq, gt_of_gt_of_isGE hlen hrow hi hin hge] at heq
    cases heq

end

end

/-! ### Listed tuples -/

variable (t) in
def NoMaxValue : Prop := ∀ i, i < t.size → ColVal.maxValue ∉ t.tupleAt i

omit [∀ i, Std.TransCmp (c i)] in
theorem prune_eq_gt (hmax : t.NoMaxValue) (hi : i < t.size) :
    cmpRecAndTuplePrune c t.numColumns fields (t.tupleAt i) tailf = .gt ↔
      tupleCmp c fields (t.tupleAt i) = .gt ∨
        (tupleCmp c fields (t.tupleAt i) = .eq ∧ tailf = false ∧
          fields.length < t.numColumns) := by
  rw [prune_eq, Ordering.then_eq_gt, pruneTail_eq_gt (hmax i hi), Nat.sub_pos_iff_lt]

section

variable (hmax : t.NoMaxValue) (hlen : fields.length ≤ t.numColumns)

include hmax hlen

theorem ascending_prune :
    Ascending (fun i => (cmpRecAndTuplePrune c t.numColumns fields (t.tupleAt i) tailf).swap)
      t.size := by
  constructor
  · intro i j hij hj h
    rw [Ordering.swap_eq_lt, prune_eq_gt hmax hj] at h
    rw [Ordering.swap_eq_lt, prune_eq_gt hmax (hij.trans_lt hj)]
    rcases h with hgt | ⟨heq, htail⟩
    · have := (ascending_tupleCmp hlen).lt i j hij hj (by rw [hgt]; rfl)
      exact .inl (Ordering.swap_eq_lt.mp this)
    · cases hc : tupleCmp c fields (t.tupleAt i) with
      | gt => exact .inl rfl
      | eq => exact .inr ⟨rfl, htail⟩
      | lt =>
        rw [tupleCmp_lt_mono hlen hj hij hc] at heq
        cases heq
  · intro i j hij hj h
    rw [Ordering.swap_eq_gt] at h ⊢
    exact prune_lt_mono hlen hij hj h

theorem swap_prune_ne_eq (i j : ℕ) (hij : i < j) (hj : j < t.size)
    (hi : (cmpRecAndTuplePrune c t.numColumns fields (t.tupleAt i) tailf).swap = .eq) :
    (cmpRecAndTuplePrune c t.numColumns fields (t.tupleAt j) tailf).swap ≠ .eq := by
  -- only a full tuple is equal to an entry
  rw [Ordering.swap_eq_eq] at hi
  have hfull : fields.length = t.numColumns := by
    by_contra hne
    have hlt : fields.length < t.numColumns := by omega
    rw [prune_eq, Ordering.then_eq_eq] at hi
    cases tailf with
    | true => rw [pruneTail_eq_lt.mpr ⟨rfl, Nat.sub_pos_of_lt hlt⟩] at hi; cases hi.2
    | false =>
      rw [(pruneTail_eq_gt (hmax i (hij.trans hj))).mpr ⟨rfl, Nat.sub_pos_of_lt hlt⟩] at hi
      cases hi.2
  rw [prune_eq, Ordering.then_eq_eq] at hi
  intro h
  rw [Ordering.swap_eq_eq, prune_eq, Ordering.then_eq_eq] at h
  have hne := swap_tupleCmp_ne_eq hfull i j hij hj (by rw [hi.1]; rfl)
  rw [h.1] at hne
  exact hne rfl

theorem colsListForEndpoint_le (hrow : row.length = t.numColumns)
    (hin : TupleInside c true incl fields row) (hi : i < t.size)
    (heq : tupleCmp c row (t.tupleAt i) = .eq) :
    t.getPartitionIdColsListForEndpoint true incl fields ≤ i := by
  rw [getPartitionIdColsListForEndpoint, Bool.true_xor, Bool.not_not,
    bisectIdx_le_iff (ascending_prune hmax hlen) (swap_prune_ne_eq hmax hlen) _ hi]
  cases incl with
  | true =>
    have hle := isLE_of_isLE hlen hrow hi hin (Ordering.isLE_of_eq_eq heq)
    rw [ne_eq, Ordering.swap_eq_lt, prune_eq_gt hmax hi]
    rintro (hgt | ⟨-, hfalse, -⟩)
    · rw [hgt] at hle
      cases hle
    · cases hfalse
  | false =>
    have hlt := lt_of_lt_of_isLE hlen hrow hi hin (Ordering.isLE_of_eq_eq heq)
    simp [Ordering.swap_eq_gt, prune_eq_lt, hlt]

theorem lt_colsListForEndpoint (hrow : row.length = t.numColumns)
    (hin : TupleInside c false incl fields row) (hi : i < t.size)
    (heq : tupleCmp c row (t.tupleAt i) = .eq) :
    i < t.getPartitionIdColsListForEndpoint false incl fields := by
  have hge : (tupleCmp c row (t.tupleAt i)).isGE := by rw [heq]; rfl
  rw [← not_le, getPartitionIdColsListForEndpoint, Bool.false_xor,
    bisectIdx_le_iff (ascending_prune hmax hlen) (swap_prune_ne_eq hmax hlen) _ hi]
  cases incl with
  | true =>
    have hge := isGE_of_isGE hlen hrow hi hin hge
    rw [Bool.not_true, Ordering.swap_eq_gt, prune_eq_lt]
    rintro (hlt | ⟨-, hfalse, -⟩)
    · rw [hlt] at hge
      cases hge
    · cases hfalse
  | false =>
    have hgt := gt_of_gt_of_isGE hlen hrow hi hin hge
    simp [Ordering.swap_eq_lt, prune_eq_gt hmax hi, hgt]

end

end TupleArray

/-! ## The interval -/

inductive ColPartType where
  | range
  | list
  deriving DecidableEq

variable (c) in
/-- `partition_info` of a table that is partitioned by columns. -/
structure ColPartitionInfo where
  fields : List (KeyField α)
  array : TupleArray c
  partType : ColPartType
  /-- For LIST the partitions of the tuples. -/
  partitionIds : List ℕ
  hasNullPartId : ℕ
  fields_length : fields.length = array.numColumns
  noMaxValue : partType = .list → array.NoMaxValue

/-- An interval, its ends in the format of `opt_range` with the lengths of the fields. -/
structure ColInterval where
  flags : RangeFlags
  minValue : List UInt8
  maxValue : List UInt8
  storeLengths : List ℕ

/-- `store_tuple_to_record`; the number of the fields is the length of the result. -/
def storeTupleToRecord : List (KeyField α) → List ℕ → List UInt8 → List (WithBot α)
  | field :: fields, len :: lens, b :: value =>
    field.storeKeyImage (b :: value) ::
      storeTupleToRecord fields lens ((b :: value).drop len)
  | _, _, _ => []

theorem length_storeTupleToRecord (fields : List (KeyField α)) (lens : List ℕ)
    (value : List UInt8) : (storeTupleToRecord fields lens value).length ≤ fields.length := by
  induction fields generalizing lens value with
  | nil => simp [storeTupleToRecord]
  | cons field fields ih =>
    rcases lens with _ | ⟨len, lens⟩
    · simp [storeTupleToRecord]
    · rcases value with _ | ⟨b, value⟩
      · simp [storeTupleToRecord]
      · exact Nat.succ_le_succ (ih lens _)

namespace ColPartitionInfo

variable (pi : ColPartitionInfo c) (iv : ColInterval)

/-- `get_partition_id_range_col` or `get_partition_id_list_col`. -/
def getPartitionId (row : List (WithBot α)) : Option ℕ :=
  match pi.partType with
  | .range => pi.array.getPartitionIdRangeCol row
  | .list => (pi.array.searchListCol row).map fun i => pi.partitionIds.getD i 0

/-- The function `get_col_endpoint` points to. -/
def getColEndpoint (left incl : Bool) (fields : List (WithBot α)) : ℕ :=
  match pi.partType with
  | .range => pi.array.getPartitionIdColsRangeForEndpoint left incl fields
  | .list => pi.array.getPartitionIdColsListForEndpoint left incl fields

/-- `get_next_partition_id_range` or `get_next_partition_id_list`. -/
def getNext : PartIter → Option ℕ × PartIter :=
  match pi.partType with
  | .range => getNextPartitionIdRange
  | .list => getNextPartitionId (fun i => pi.partitionIds.getD i 0) pi.hasNullPartId

def minTuple : List (WithBot α) := storeTupleToRecord pi.fields iv.storeLengths iv.minValue

def maxTuple : List (WithBot α) := storeTupleToRecord pi.fields iv.storeLengths iv.maxValue

/-- `get_part_iter_for_interval_cols_via_map`.  The flags for NULL of the iterator are left as
they were. -/
def getPartIterForIntervalColsViaMap (it : PartIter) : Pruning PartIter :=
  let start :=
    if iv.flags.noMinRange then 0
    else pi.getColEndpoint true (!iv.flags.nearMin) (pi.minTuple iv)
  let stop :=
    if iv.flags.noMaxRange then pi.array.size
    else pi.getColEndpoint false (!iv.flags.nearMax) (pi.maxTuple iv)
  if start = stop then .noPartitions
  else .iterator { it with start := start, cur := start, stop := stop }

def Contains (row : List (WithBot α)) : Prop :=
  (iv.flags.noMinRange = false → TupleInside c true (!iv.flags.nearMin) (pi.minTuple iv) row) ∧
    (iv.flags.noMaxRange = false → TupleInside c false (!iv.flags.nearMax) (pi.maxTuple iv) row)

variable {pi iv} [∀ i, Std.TransCmp (c i)] {row : List (WithBot α)} {p : ℕ}

section

variable (hrow : row.length = pi.array.numColumns)

include hrow

theorem exists_idx (hp : pi.getPartitionId row = some p) :
    ∃ i, i < pi.array.size ∧
      (∀ it : PartIter, it.cur ≤ i → i < it.stop → Yields pi.getNext it p) ∧
      ∀ (incl : Bool) (fields : List (WithBot α)), fields.length ≤ pi.array.numColumns →
        (TupleInside c true incl fields row → pi.getColEndpoint true incl fields ≤ i) ∧
          (TupleInside c false incl fields row → i < pi.getColEndpoint false incl fields) := by
  cases ht : pi.partType with
  | range =>
    simp only [getPartitionId, getColEndpoint, getNext, ht] at hp ⊢
    obtain ⟨hp, habove, hbelow⟩ := ((TupleArray.getPartitionIdRangeCol_spec hrow).1 p).mp hp
    refine ⟨p, hp, fun it hcur hstop => ?_, fun incl fields hlen => ⟨fun hin => ?_, fun hin => ?_⟩⟩
    · exact (yields_getNextPartitionId it).mpr (.inl ⟨p, hcur, hstop, rfl⟩)
    · exact TupleArray.colsRangeForEndpoint_le hlen hrow hin hp habove
    · exact TupleArray.lt_colsRangeForEndpoint hlen hrow hin hp hbelow
  | list =>
    simp only [getPartitionId, getColEndpoint, getNext, ht, Option.map_eq_some_iff] at hp ⊢
    obtain ⟨i, hi, hid⟩ := hp
    obtain ⟨hi, heq⟩ := (TupleArray.searchListCol_spec hrow i).mp hi
    have hmax := pi.noMaxValue ht
    refine ⟨i, hi, fun it hcur hstop => ?_, fun incl fields hlen => ⟨fun hin => ?_, fun hin => ?_⟩⟩
    · exact (yields_getNextPartitionId it).mpr (.inl ⟨i, hcur, hstop, hid⟩)
    · exact TupleArray.colsListForEndpoint_le hmax hlen hrow hin hi heq
    · exact TupleArray.lt_colsListForEndpoint hmax hlen hrow hin hi heq

theorem covers_of_contains (hx : pi.Contains iv row) (hp : pi.getPartitionId row = some p)
    (it : PartIter) : (pi.getPartIterForIntervalColsViaMap iv it).Covers pi.getNext p := by
  obtain ⟨i, hi, hyields, hends⟩ := exists_idx hrow hp
  have hlen : ∀ value, (storeTupleToRecord pi.fields iv.storeLengths value).length ≤
      pi.array.numColumns :=
    fun value => (length_storeTupleToRecord _ _ value).trans pi.fields_length.le
  have hstart : (if iv.flags.noMinRange then 0
      else pi.getColEndpoint true (!iv.flags.nearMin) (pi.minTuple iv)) ≤ i := by
    split_ifs with hmin
    · exact Nat.zero_le i
    · exact (hends _ _ (hlen _)).1 (hx.1 (Bool.eq_false_iff.mpr hmin))
  have hstop : i < (if iv.flags.noMaxRange then pi.array.size
      else pi.getColEndpoint false (!iv.flags.nearMax) (pi.maxTuple iv)) := by
    split_ifs with hmax
    · exact hi
    · exact (hends _ _ (hlen _)).2 (hx.2 (Bool.eq_false_iff.mpr hmax))
  simp only [getPartIterForIntervalColsViaMap]
  rw [if_neg (hstart.trans_lt hstop).ne]
  exact hyields _ hstart hstop

theorem getPartitionId_list (ht : pi.partType = .list) :
    (∀ p, pi.getPartitionId row = some p ↔
      ∃ i, i < pi.array.size ∧ tupleCmp c row (pi.array.tupleAt i) = .eq ∧
        pi.partitionIds.getD i 0 = p) ∧
      (pi.getPartitionId row = none ↔
        ∀ i, i < pi.array.size → tupleCmp c row (pi.array.tupleAt i) ≠ .eq) := by
  have hspec := TupleArray.searchListCol_spec hrow
  simp only [getPartitionId, ht, Option.map_eq_some_iff, Option.map_eq_none_iff, hspec, and_assoc]
  refine ⟨fun _ => trivial, ?_⟩
  rw [Option.eq_none_iff_forall_ne_some]
  exact forall_congr' fun i => by rw [ne_eq, hspec, not_and]

end

/-- The partition ids of tables that are partitioned by columns are those of the order of the
tuples, and no row of an interval is lost. -/
theorem columns_correct (pi : ColPartitionInfo c) (row : List (WithBot α))
    (hrow : row.length = pi.array.numColumns) :
    (pi.partType = .range →
      (∀ p, pi.getPartitionId row = some p ↔
        p < pi.array.size ∧ tupleCmp c row (pi.array.tupleAt p) = .lt ∧
          ∀ i, i < p → tupleCmp c row (pi.array.tupleAt i) ≠ .lt) ∧
        (pi.getPartitionId row = none ↔
          ∀ i, i < pi.array.size → tupleCmp c row (pi.array.tupleAt i) ≠ .lt)) ∧
    (pi.partType = .list →
      (∀ p, pi.getPartitionId row = some p ↔
        ∃ i, i < pi.array.size ∧ tupleCmp c row (pi.array.tupleAt i) = .eq ∧
          pi.partitionIds.getD i 0 = p) ∧
        (pi.getPartitionId row = none ↔
          ∀ i, i < pi.array.size → tupleCmp c row (pi.array.tupleAt i) ≠ .eq)) ∧
    ∀ (iv : ColInterval) (it : PartIter) (p : ℕ), pi.Contains iv row →
      pi.getPartitionId row = some p →
        (pi.getPartIterForIntervalColsViaMap iv it).Covers pi.getNext p := by
  refine ⟨fun ht => ?_, getPartitionId_list hrow, fun iv it p hx hp =>
    covers_of_contains hrow hx hp it⟩
  simp only [getPartitionId, ht]
  exact TupleArray.getPartitionIdRangeCol_spec hrow

end ColPartitionInfo

end

/-! ## An interval of a first column -/

def byteField : KeyField ℕ := ⟨1, false, fun ptr => (ptr.headD 0).toNat⟩

/-- `RANGE COLUMNS (a, b)` with the bounds `(5, MAXVALUE)` and `(9, 3)`. -/
def twoColumns : ColPartitionInfo (fun _ => compare : ℕ → ℕ → ℕ → Ordering) where
  fields := [byteField, byteField]
  array := ⟨2, [[.value 5, .maxValue], [.value 9, .value 3]], by decide, by decide, by decide⟩
  partType := .range
  partitionIds := []
  hasNullPartId := 0
  fields_length := rfl
  noMaxValue h := absurd h (by decide)

/-- `a <= 5`. -/
def upToFive : ColInterval := ⟨⟨true, false, false, false⟩, [], [5], [1, 1]⟩

theorem columns_correct_upToFive :
    twoColumns.Contains upToFive [(5 : ℕ), (7 : ℕ)] ∧
      (twoColumns.getPartIterForIntervalColsViaMap upToFive ⟨0, 0, 0, false, false⟩).Covers
        twoColumns.getNext 0 := by
  have hx : twoColumns.Contains upToFive [(5 : ℕ), (7 : ℕ)] := by
    refine ⟨fun h => absurd h (by decide), fun _ => ?_⟩
    rfl
  exact ⟨hx, (twoColumns.columns_correct _ rfl).2.2 upToFive _ 0 hx rfl⟩

end MySQL.Sql.Partition
