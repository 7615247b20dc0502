import MySQL.Lib.Bisect
import MySQL.Lib.Lex
import MySQL.Sql.Partition.Types

/-!
# RANGE COLUMNS and LIST COLUMNS

The bounds of the partitions and the listed values are tuples.  They are compared column by
column; NULL is below the values of a column, and MAXVALUE above them.
-/

namespace MySQL.Sql.Partition

open Lib

/-- `part_column_list_val`. -/
inductive ColVal (α : Type*) where
  | null
  | value (a : α)
  | maxValue

section

variable {α : Type*} (c : ℕ → α → α → Ordering)

/-! ## The comparisons of the source -/

/-- `cmp_rec_and_tuple`: the fields of the record, as many as are to be compared, against a
bound.  `c i` is the comparison of the column `i`. -/
def cmpRecAndTuple : ℕ → List (WithBot α) → List (ColVal α) → Ordering
  | _, [], _ => .eq
  | _, _ :: _, [] => .eq
  | _, _ :: _, .maxValue :: _ => .lt
  | i, ⊥ :: fields, .null :: val => cmpRecAndTuple (i + 1) fields val
  | _, ⊥ :: _, .value _ :: _ => .lt
  | _, (_ : α) :: _, .null :: _ => .gt
  | i, (a : α) :: fields, .value b :: val =>
    match c i a b with
    | .eq => cmpRecAndTuple (i + 1) fields val
    | res => res

/-- The loop of `cmp_rec_and_tuple_prune` over the columns that are not in the record.  It walks
along the bound from its first column. -/
def pruneTail (tailIsMin : Bool) : ℕ → List (ColVal α) → Ordering
  | 0, _ => .eq
  | n + 1, val =>
    if tailIsMin then .lt
    else
      match val with
      | .maxValue :: val => pruneTail tailIsMin n val
      | _ => .gt

/-- `cmp_rec_and_tuple_prune`. -/
def cmpRecAndTuplePrune (numColumns : ℕ) (fields : List (WithBot α)) (val : List (ColVal α))
    (tailIsMin : Bool) : Ordering :=
  match cmpRecAndTuple c 0 fields val with
  | .eq => pruneTail tailIsMin (numColumns - fields.length) val
  | res => res

/-- `partition_info_compare_column_values`. -/
def compareColumnValues : ℕ → List (ColVal α) → List (ColVal α) → Ordering
  | _, [], _ => .eq
  | _, _ :: _, [] => .eq
  | _, .maxValue :: _, .maxValue :: _ => .eq
  | _, _ :: _, .maxValue :: _ => .lt
  | _, .maxValue :: _, _ :: _ => .gt
  | i, .null :: first, .null :: second => compareColumnValues (i + 1) first second
  | _, .value _ :: _, .null :: _ => .gt
  | _, .null :: _, .value _ :: _ => .lt
  | i, .value a :: first, .value b :: second =>
    match c i a b with
    | .eq => compareColumnValues (i + 1) first second
    | res => res

/-! ## The order of the tuples -/

def ColVal.cmp (i : ℕ) : ColVal α → ColVal α → Ordering
  | .null, .null => .eq
  | .null, _ => .lt
  | .value _, .null => .gt
  | .value a, .value b => c i a b
  | .value _, .maxValue => .lt
  | .maxValue, .maxValue => .eq
  | .maxValue, _ => .gt

def ColVal.ofField : WithBot α → ColVal α := WithBot.recBotCoe .null .value

def tupleCmp (fields : List (WithBot α)) (val : List (ColVal α)) : Ordering :=
  headCmp (ColVal.cmp c) 0 (fields.map ColVal.ofField) val

variable {c} {i : ℕ}

instance instOrientedCmp [∀ i, Std.OrientedCmp (c i)] (i : ℕ) :
    Std.OrientedCmp (ColVal.cmp c i) where
  eq_swap {x y} := by
    cases x <;> cases y <;> try rfl
    change c i _ _ = (c i _ _).swap
    exact Std.OrientedCmp.eq_swap

instance instTransCmp [∀ i, Std.TransCmp (c i)] (i : ℕ) : Std.TransCmp (ColVal.cmp c i) where
  isLE_trans {x y z} hxy hyz := by
    cases x <;> cases y <;> cases z <;>
      first
        | rfl
        | exact absurd hxy Bool.false_ne_true
        | exact absurd hyz Bool.false_ne_true
        | skip
    change (c i _ _).isLE = true at hxy hyz ⊢
    exact Std.TransCmp.isLE_trans hxy hyz

theorem cmpRecAndTuple_eq (fields : List (WithBot α)) (val : List (ColVal α)) :
    cmpRecAndTuple c i fields val =
      headCmp (ColVal.cmp c) i (fields.map ColVal.ofField) val := by
  induction fields generalizing i val with
  | nil => rw [cmpRecAndTuple]; rfl
  | cons f fields ih =>
    cases val with
    | nil => rw [cmpRecAndTuple]; rfl
    | cons v val =>
      induction f using WithBot.recBotCoe with
      | bot =>
        cases v with
        | null => exact ih val
        | value b => rfl
        | maxValue => rfl
      | coe a =>
        cases v with
        | null => rfl
        | value b =>
          have hrec := ih (i := i + 1) val
          change (match c i a b with
            | .eq => cmpRecAndTuple c (i + 1) fields val
            | res => res) = (c i a b).then _
          cases c i a b with
          | eq => exact hrec
          | lt => rfl
          | gt => rfl
        | maxValue => rfl

theorem cmpRecAndTuple_zero (fields : List (WithBot α)) (val : List (ColVal α)) :
    cmpRecAndTuple c 0 fields val = tupleCmp c fields val :=
  cmpRecAndTuple_eq fields val

theorem headCmp_of_compareColumnValues {first second : List (ColVal α)}
    (h : compareColumnValues c i first second = .lt) :
    headCmp (ColVal.cmp c) i first second = .lt := by
  induction first generalizing i second with
  | nil => rw [compareColumnValues] at h; cases h
  | cons x first ih =>
    cases second with
    | nil => rw [compareColumnValues] at h; cases h
    | cons y second =>
      cases x with
      | null =>
        cases y with
        | null => exact ih h
        | value b => rfl
        | maxValue => rfl
      | value a =>
        cases y with
        | null => rw [compareColumnValues] at h; cases h
        | value b =>
          rw [compareColumnValues] at h
          change (c i a b).then _ = .lt
          cases hab : c i a b with
          | eq =>
            rw [hab] at h
            exact ih h
          | lt => rfl
          | gt =>
            rw [hab] at h
            cases h
        | maxValue => rfl
      | maxValue => cases y <;> exact absurd h (by simp [compareColumnValues])

variable (c) in
/-- Tuples in increasing order, as `check_range_constants` and `check_list_constants` leave
them. -/
structure TupleArray where
  numColumns : ℕ
  tuples : List (List (ColVal α))
  pos : 0 < tuples.length
  length_eq : ∀ i, i < tuples.length → (tuples.getD i []).length = numColumns
  increasing : ∀ i, i < tuples.length - 1 →
    compareColumnValues c 0 (tuples.getD i []) (tuples.getD (i + 1) []) = .lt

namespace TupleArray

variable (t : TupleArray c)

def size : ℕ := t.tuples.length

def tupleAt (i : ℕ) : List (ColVal α) := t.tuples.getD i []

variable {t} [∀ i, Std.TransCmp (c i)] {j : ℕ} {fields : List (WithBot α)}

omit [∀ i, Std.TransCmp (c i)] in
theorem length_tupleAt (hi : i < t.size) : (t.tupleAt i).length = t.numColumns := t.length_eq i hi

theorem tupleAt_lt (hij : i < j) (hj : j < t.size) :
    headCmp (ColVal.cmp c) 0 (t.tupleAt i) (t.tupleAt j) = .lt := by
  induction j with
  | zero => exact absurd hij (Nat.not_lt_zero i)
  | succ j ih =>
    have hstep := headCmp_of_compareColumnValues (t.increasing j (Nat.lt_sub_of_add_lt hj))
    rcases Nat.lt_succ_iff_lt_or_eq.mp hij with hlt | rfl
    · have hlen : ∀ k, k ≤ j + 1 → (t.tupleAt k).length = t.numColumns :=
        fun k hk => length_tupleAt (by omega)
      refine headCmp_lt_of_lt_of_isLE ?_ ?_ (ih hlt (by omega)) (Ordering.isLE_of_eq_lt hstep)
      · rw [hlen i (by omega), hlen j (by omega)]
      · rw [hlen j (by omega)]
        exact (hlen (j + 1) le_rfl).ge
    · exact hstep

section Mono

variable (hlen : fields.length ≤ t.numColumns) (hj : j < t.size)

include hlen hj

theorem tupleCmp_lt_mono (hij : i ≤ j) (h : tupleCmp c fields (t.tupleAt i) = .lt) :
    tupleCmp c fields (t.tupleAt j) = .lt := by
  rcases hij.lt_or_eq with hlt | rfl
  · refine headCmp_lt_of_lt_of_isLE ?_ ?_ h (Ordering.isLE_of_eq_lt (tupleAt_lt hlt hj))
    · rwa [List.length_map, length_tupleAt (hlt.trans hj)]
    · rw [length_tupleAt (hlt.trans hj), length_tupleAt hj]
  · exact h

theorem tupleCmp_isLE_mono (hij : i ≤ j) (h : (tupleCmp c fields (t.tupleAt i)).isLE) :
    (tupleCmp c fields (t.tupleAt j)).isLE := by
  rcases hij.lt_or_eq with hlt | rfl
  · refine headCmp_isLE_trans ?_ ?_ h (Ordering.isLE_of_eq_lt (tupleAt_lt hlt hj))
    · rwa [List.length_map, length_tupleAt (hlt.trans hj)]
    · rw [length_tupleAt (hlt.trans hj), length_tupleAt hj]
  · exact h

end Mono

theorem tupleCmp_lt_of_isLE (hlen : fields.length = t.numColumns) (hj : j < t.size)
    (hij : i < j) (h : (tupleCmp c fields (t.tupleAt i)).isLE) :
    tupleCmp c fields (t.tupleAt j) = .lt := by
  refine headCmp_lt_of_isLE_of_lt ?_ ?_ h (tupleAt_lt hij hj)
  · rw [List.length_map, hlen, length_tupleAt (hij.trans hj)]
  · rw [length_tupleAt (hij.trans hj), length_tupleAt hj]

end TupleArray

/-! ## Comparing a part of the columns -/

section Prune

variable {numColumns : ℕ} {fields : List (WithBot α)} {val : List (ColVal α)} {tailIsMin : Bool}

theorem pruneTail_eq_lt {n : ℕ} : pruneTail tailIsMin n val = .lt ↔ tailIsMin = true ∧ 0 < n := by
  induction n generalizing val with
  | zero => simp [pruneTail]
  | succ n ih =>
    cases tailIsMin with
    | true => simp [pruneTail]
    | false =>
      rcases val with _ | ⟨_ | _ | _, val⟩
      · simp [pruneTail]
      · simp [pruneTail]
      · simp [pruneTail]
      · simpa [pruneTail] using ih

theorem pruneTail_eq_gt {n : ℕ} (hmax : ColVal.maxValue ∉ val) :
    pruneTail tailIsMin n val = .gt ↔ tailIsMin = false ∧ 0 < n := by
  cases n with
  | zero => simp [pruneTail]
  | succ n =>
    rcases val with _ | ⟨_ | _ | _, val⟩
    · cases tailIsMin <;> simp [pruneTail]
    · cases tailIsMin <;> simp [pruneTail]
    · cases tailIsMin <;> simp [pruneTail]
    · exact absurd List.mem_cons_self hmax

theorem prune_eq :
    cmpRecAndTuplePrune c numColumns fields val tailIsMin =
      (tupleCmp c fields val).then (pruneTail tailIsMin (numColumns - fields.length) val) := by
  rw [cmpRecAndTuplePrune, cmpRecAndTuple_zero]
  cases tupleCmp c fields val <;> rfl

theorem prune_eq_lt :
    cmpRecAndTuplePrune c numColumns fields val tailIsMin = .lt ↔
      tupleCmp c fields val = .lt ∨
        (tupleCmp c fields val = .eq ∧ tailIsMin = true ∧ fields.length < numColumns) := by
  rw [prune_eq, Ordering.then_eq_lt, pruneTail_eq_lt, Nat.sub_pos_iff_lt]

end Prune

/-! ## Partition ids -/

namespace TupleArray

variable (t : TupleArray c) (fields : List (WithBot α))

/-- `get_partition_id_range_col`; the bounds are the tuples of the array. -/
def getPartitionIdRangeCol : Option ℕ :=
  let maxPartition := t.size - 1
  let notBelow := fun i => decide (cmpRecAndTuple c 0 fields (t.tupleAt i) ≠ .lt)
  let loc := bisectCeil notBelow t.size 0 maxPartition
  let loc := if loc ≠ maxPartition ∧ notBelow loc then loc + 1 else loc
  if loc = maxPartition ∧ notBelow loc then none else some loc

/-- The loop of `get_partition_id_list_col`; the index of the equal tuple, if there is one. -/
def searchListCol : Option ℕ :=
  match bisect (fun i => (cmpRecAndTuple c 0 fields (t.tupleAt i)).swap) t.size 0 (t.size - 1) with
  | (i, .eq) => some i
  | _ => none

variable {t fields} [∀ i, Std.TransCmp (c i)] {k p : ℕ}

theorem exists_cut (hlen : fields.length ≤ t.numColumns) :
    ∃ k, IsCut (fun i => tupleCmp c fields (t.tupleAt i) ≠ .lt) t.size k :=
  IsCut.exists_of_closed t.size fun _ _ hij hj h hlt => h (tupleCmp_lt_mono hlen hj hij hlt)

omit [∀ i, Std.TransCmp (c i)] in
theorem getPartitionIdRangeCol_eq
    (hk : IsCut (fun i => tupleCmp c fields (t.tupleAt i) ≠ .lt) t.size k) :
    t.getPartitionIdRangeCol fields = if k < t.size then some k else none := by
  have hpos : 0 < t.size := t.pos
  have hcut : IsCut (fun i => decide (cmpRecAndTuple c 0 fields (t.tupleAt i) ≠ .lt) = true)
      t.size k := by
    simpa only [cmpRecAndTuple_zero, decide_eq_true_eq] using hk
  obtain ⟨hle, hge, hmax⟩ := bisectCeil_spec hcut t.size 0 (t.size - 1) (by omega)
    (Nat.zero_le k) (by have := hk.le; omega) (by omega) (by omega)
  have hat : ∀ i, i < t.size →
      (decide (cmpRecAndTuple c 0 fields (t.tupleAt i) ≠ .lt) = true ↔ i < k) :=
    fun i hi => (hcut.lt_iff hi).symm
  simp only [getPartitionIdRangeCol]
  generalize bisectCeil _ t.size 0 (t.size - 1) = h at hle hge hmax ⊢
  -- the first repair moves to the cut unless the last partition was reached
  simp only [hat h (by omega)]
  have hloc : (if h ≠ t.size - 1 ∧ h < k then h + 1 else h) = min k (t.size - 1) := by
    split_ifs <;> omega
  simp only [hloc, hat (min k (t.size - 1)) (by omega)]
  split_ifs with hnone hlt hlt
  · omega
  · rfl
  · rw [Nat.min_eq_left (by omega)]
  · exact absurd ⟨by omega, by omega⟩ hnone

/-- `get_partition_id_range_col` returns the first partition with a bound above the record, and
none exactly if there is no such partition. -/
theorem getPartitionIdRangeCol_spec (hlen : fields.length = t.numColumns) :
    (∀ p, t.getPartitionIdRangeCol fields = some p ↔
      p < t.size ∧ tupleCmp c fields (t.tupleAt p) = .lt ∧
        ∀ i, i < p → tupleCmp c fields (t.tupleAt i) ≠ .lt) ∧
      (t.getPartitionIdRangeCol fields = none ↔
        ∀ i, i < t.size → tupleCmp c fields (t.tupleAt i) ≠ .lt) := by
  obtain ⟨k, hk⟩ := t.exists_cut hlen.le
  rw [getPartitionIdRangeCol_eq hk]
  refine ⟨fun p => ?_, ?_⟩
  · constructor
    · intro h
      split_ifs at h with hlt
      obtain rfl := Option.some.inj h
      exact ⟨hlt, not_not.mp (hk.above k le_rfl hlt), hk.below⟩
    · rintro ⟨hp, habove, hbelow⟩
      have hkp : k = p := by
        rcases Nat.lt_trichotomy k p with hlt | heq | hlt
        · exact absurd (hbelow k hlt) (hk.above k le_rfl (hlt.trans hp))
        · exact heq
        · exact absurd habove (hk.below p hlt)
      rw [hkp, if_pos hp]
  · constructor
    · intro h i hi
      split_ifs at h with hlt
      exact hk.below i (by omega)
    · intro h
      exact if_neg fun hlt => hk.above k le_rfl hlt (h k hlt)

theorem swap_tupleCmp_ne_eq (hlen : fields.length = t.numColumns) (i j : ℕ) (hij : i < j)
    (hj : j < t.size) (hi : (tupleCmp c fields (t.tupleAt i)).swap = .eq) :
    (tupleCmp c fields (t.tupleAt j)).swap ≠ .eq := by
  rw [Ordering.swap_eq_eq] at hi
  rw [tupleCmp_lt_of_isLE hlen hj hij (Ordering.isLE_of_eq_eq hi)]
  simp

theorem ascending_tupleCmp (hlen : fields.length ≤ t.numColumns) :
    Ascending (fun i => (tupleCmp c fields (t.tupleAt i)).swap) t.size := by
  constructor
  · intro i j hij hj h
    rw [Ordering.swap_eq_lt] at h ⊢
    by_contra hne
    have hle : (tupleCmp c fields (t.tupleAt i)).isLE := by
      simpa [Ordering.isLE_iff_ne_gt] using hne
    have hmono := tupleCmp_isLE_mono hlen hj hij hle
    rw [h] at hmono
    cases hmono
  · intro i j hij hj h
    rw [Ordering.swap_eq_gt] at h ⊢
    exact tupleCmp_lt_mono hlen hj hij h

theorem searchListCol_spec (hlen : fields.length = t.numColumns) (i : ℕ) :
    t.searchListCol fields = some i ↔ i < t.size ∧ tupleCmp c fields (t.tupleAt i) = .eq := by
  have hiff := bisect_eq_iff (ascending_tupleCmp hlen.le) (swap_tupleCmp_ne_eq hlen) t.pos i
  rw [Ordering.swap_eq_eq] at hiff
  rw [← hiff]
  simp only [searchListCol, cmpRecAndTuple_zero]
  split
  · rename_i j hb
    rw [hb]
    simp
  · rename_i hb
    exact iff_of_false (by simp) (hb i)

end TupleArray

end

end MySQL.Sql.Partition
