import MySQL.Lib.Enumerate

/-!
# Partitioned tables

The partitioning function is an expression in one column of the table.  Its value is a
`longlong` that is read with or without sign.  A NULL, of the column or of the function, is
below every other value and is written `⊥`.
-/

namespace MySQL.Sql.Partition

abbrev Longlong := BitVec 64

def longlongMax : Longlong := 0x7fffffffffffffff

def longlongMin : Longlong := 0x8000000000000000

/-- `enum_monotonicity_info`. -/
inductive MonotonicityInfo where
  | nonMonotonic
  | increasing
  | increasingNotNull
  | strictIncreasing
  | strictIncreasingNotNull
  deriving DecidableEq, Repr

def MonotonicityInfo.notNull : MonotonicityInfo → Bool
  | .increasingNotNull | .strictIncreasingNotNull => true
  | _ => false

/-- What `val_int_endpoint` returns, with the `null_value` of the item after the call. -/
structure Endpoint where
  value : Longlong
  nullValue : Bool
  inclEndp : Bool

/-- The item `part_expr`, as far as it is called here.  `β` are the values of the column that
are not NULL; the functions of one column in question are NULL where the column is. -/
structure PartExpr (β : Type*) where
  /-- `val_int`; `⊥` if `null_value` is set. -/
  valInt : WithBot β → WithBot Longlong
  /-- `thd->is_error()` after the evaluation. -/
  isError : WithBot β → Bool
  valIntEndpoint : WithBot β → Bool → Bool → Endpoint
  unsignedFlag : Bool
  monotonicityInfo : MonotonicityInfo
  valInt_bot : valInt ⊥ = ⊥

/-- The column of the partitioning function. -/
structure KeyField (β : Type*) where
  packLengthInRec : ℕ
  realMaybeNull : Bool
  /-- The value after `set_key_image`. -/
  setKeyImage : List UInt8 → β

/-- `store_key_image_to_rec`: if the column can be NULL, the image has a byte for it in front. -/
def KeyField.storeKeyImage {β : Type*} (field : KeyField β) (ptr : List UInt8) : WithBot β :=
  if field.realMaybeNull then
    if ptr.headD 0 ≠ 0 then ⊥ else field.setKeyImage (ptr.tail.take field.packLengthInRec)
  else field.setKeyImage (ptr.take field.packLengthInRec)

/-! ## The value of the function -/

/-- The number a `longlong` stands for. -/
def number (unsignedFlag : Bool) (v : Longlong) : ℤ := if unsignedFlag then v.toNat else v.toInt

/-- `part_func_value-= 0x8000000000000000ULL`, so that unsigned values can be compared as
signed ones. -/
def signFlip (unsignedFlag : Bool) (v : Longlong) : Longlong :=
  if unsignedFlag then v - 0x8000000000000000 else v

theorem toInt_signFlip (unsignedFlag : Bool) (v : Longlong) :
    (signFlip unsignedFlag v).toInt =
      number unsignedFlag v - if unsignedFlag then 2 ^ 63 else 0 := by
  cases unsignedFlag with
  | false => simp [signFlip, number]
  | true =>
    have hmin : (0x8000000000000000 : Longlong).toNat = 2 ^ 63 := by decide
    simp only [signFlip, number, if_true, BitVec.toInt_eq_toNat_cond, BitVec.toNat_sub, hmin]
    split_ifs <;> omega

variable {β : Type*}

/-- `part_val_int`: the outer `none` is an error. -/
def partValInt (e : PartExpr β) (x : WithBot β) : Option (WithBot Longlong) :=
  match e.valInt x with
  | ⊥ => if e.isError x then none else some ⊥
  | (v : Longlong) => some v

/-! ## Half intervals -/

/-- `x` is in the half interval with the end `c`, to the right of it or to the left. -/
def Inside {γ : Type*} [LT γ] [LE γ] (left incl : Bool) (c x : γ) : Prop :=
  match left, incl with
  | true, true => c ≤ x
  | true, false => c < x
  | false, true => x ≤ c
  | false, false => x < c

def PartExpr.func (e : PartExpr β) (x : WithBot β) : WithBot ℤ :=
  (e.valInt x).map (number e.unsignedFlag)

def PartExpr.bound (e : PartExpr β) (p : Endpoint) : WithBot ℤ :=
  if p.nullValue then ⊥ else (number e.unsignedFlag p.value : ℤ)

/-- The contract of `val_int_endpoint`: the half interval of the column is mapped into the half
interval of the function.  NULL is below everything else; only for the functions that are
monotonic where they are not NULL does the value count even if `null_value` is set, and then
it is a bound of the values that are not NULL. -/
def PartExpr.BoundsAt [LT β] [LE β] (e : PartExpr β) (left incl : Bool) (c : WithBot β) : Prop :=
  let p := e.valIntEndpoint c left incl
  ∀ x : WithBot β, Inside left incl c x →
    if e.monotonicityInfo.notNull then
      e.func x ≠ ⊥ → Inside left p.inclEndp ((number e.unsignedFlag p.value : ℤ) : WithBot ℤ)
        (e.func x)
    else Inside left p.inclEndp (e.bound p) (e.func x)

theorem not_inside_true {γ : Type*} [LinearOrder γ] {incl : Bool} {c x : γ} :
    ¬ Inside true (!incl) c x ↔ Inside false incl c x := by
  cases incl <;> simp [Inside]

theorem inside_signFlip {unsignedFlag left incl : Bool} {v w : Longlong} :
    Inside left incl (signFlip unsignedFlag v).toInt (signFlip unsignedFlag w).toInt ↔
      Inside left incl (number unsignedFlag v) (number unsignedFlag w) := by
  rw [toInt_signFlip, toInt_signFlip]
  cases left <;> cases incl <;> simp [Inside]

theorem inside_coe {γ : Type*} [Preorder γ] {left incl : Bool} {a b : γ} :
    Inside left incl (a : WithBot γ) (b : WithBot γ) ↔ Inside left incl a b := by
  cases left <;> cases incl <;> simp [Inside]

namespace PartExpr

variable {e : PartExpr β} {x c : WithBot β} {v : Longlong} {left incl : Bool}

theorem func_eq_coe (hv : e.valInt x = v) : e.func x = (number e.unsignedFlag v : ℤ) := by
  rw [func, hv, WithBot.map_coe]

theorem BoundsAt.inside [LT β] [LE β] (h : e.BoundsAt left incl c) (hx : Inside left incl c x)
    (hv : e.valInt x = v) (hval : ¬ ((e.valIntEndpoint c left incl).nullValue = true ∧
      e.monotonicityInfo.notNull = false)) :
    Inside left (e.valIntEndpoint c left incl).inclEndp
      (signFlip e.unsignedFlag (e.valIntEndpoint c left incl).value).toInt
      (signFlip e.unsignedFlag v).toInt := by
  apply inside_signFlip.mpr
  have hb := h x hx
  rw [func_eq_coe hv] at hb
  cases hm : e.monotonicityInfo.notNull with
  | true =>
    rw [hm] at hb
    exact inside_coe.mp (hb WithBot.coe_ne_bot)
  | false =>
    have hnull : (e.valIntEndpoint c left incl).nullValue = false :=
      Bool.eq_false_iff.mpr fun hn => hval ⟨hn, hm⟩
    rw [hm, bound, hnull] at hb
    exact inside_coe.mp hb

theorem boundsAt_of_notNull [LT β] [LE β] (hm : e.monotonicityInfo.notNull = true)
    (h : ∀ x v, Inside left incl c x → e.valInt x = (v : Longlong) →
      Inside left (e.valIntEndpoint c left incl).inclEndp
        (number e.unsignedFlag (e.valIntEndpoint c left incl).value) (number e.unsignedFlag v)) :
    e.BoundsAt left incl c := by
  intro x hx
  rw [if_pos hm]
  intro hne
  cases hv : e.valInt x with
  | bot => exact absurd (by rw [func, hv, WithBot.map_bot]) hne
  | coe v =>
    rw [func_eq_coe hv]
    exact inside_coe.mpr (h x v hx hv)

theorem BoundsAt.not_left_of_null [LT β] [LE β] (h : e.BoundsAt false incl c)
    (hx : Inside false incl c x) (hv : e.valInt x = v) :
    ¬ ((e.valIntEndpoint c false incl).nullValue = true ∧ e.monotonicityInfo.notNull = false) := by
  rintro ⟨hnull, hm⟩
  have hb := h x hx
  rw [func_eq_coe hv, hm, bound, if_pos hnull] at hb
  cases hincl : (e.valIntEndpoint c false incl).inclEndp with
  | true =>
    rw [hincl] at hb
    exact WithBot.not_coe_le_bot _ hb
  | false =>
    rw [hincl] at hb
    exact WithBot.not_lt_bot _ hb

end PartExpr

/-! ## Intervals and iterators -/

/-- The flags of an interval. -/
structure RangeFlags where
  noMinRange : Bool
  noMaxRange : Bool
  nearMin : Bool
  nearMax : Bool

/-- `flags != 0`. -/
def RangeFlags.any (f : RangeFlags) : Bool :=
  f.noMinRange || f.noMaxRange || f.nearMin || f.nearMax

/-- The interval of the column, its ends in the format of `opt_range`. -/
structure Interval where
  flags : RangeFlags
  minValue : Option (List UInt8)
  maxValue : Option (List UInt8)

namespace KeyField

variable (field : KeyField β) (iv : Interval)

def minOf : WithBot β := field.storeKeyImage (iv.minValue.getD [])

def maxOf : WithBot β := field.storeKeyImage (iv.maxValue.getD [])

def Contains [LT β] [LE β] (x : WithBot β) : Prop :=
  (iv.flags.noMinRange = false → Inside true (!iv.flags.nearMin) (field.minOf iv) x) ∧
    (iv.flags.noMaxRange = false → Inside false (!iv.flags.nearMax) (field.maxOf iv) x)

end KeyField

/-- The result of the interval analysis, `0`, `1` and `-1`. -/
inductive Pruning (ι : Type*) where
  | noPartitions
  | iterator (partIter : ι)
  | allPartitions

def Pruning.Covers {ι : Type*} (next : ι → Option ℕ × ι) (p : ℕ) : Pruning ι → Prop
  | .noPartitions => False
  | .iterator it => Lib.Yields next it p
  | .allPartitions => True

/-- `PARTITION_ITERATOR` with `part_nums`; `stop` is `end`. -/
structure PartIter where
  start : ℕ
  cur : ℕ
  stop : ℕ
  retNullPart : Bool
  retNullPartOrig : Bool

/-- The common text of `get_next_partition_id_range` and `get_next_partition_id_list`.  At the
end the iterator is set back to its start. -/
def getNextPartitionId (idAt : ℕ → ℕ) (nullPart : ℕ) (it : PartIter) : Option ℕ × PartIter :=
  if it.stop ≤ it.cur then
    if it.retNullPart then (some nullPart, { it with retNullPart := false })
    else (none, { it with cur := it.start, retNullPart := it.retNullPartOrig })
  else (some (idAt it.cur), { it with cur := it.cur + 1 })

def getNextPartitionIdRange : PartIter → Option ℕ × PartIter := getNextPartitionId id 0

section Iterator

variable {idAt : ℕ → ℕ} {nullPart p : ℕ} {it : PartIter}

theorem getNextPartitionId_inside (h : it.cur < it.stop) :
    getNextPartitionId idAt nullPart it =
      (some (idAt it.cur), { it with cur := it.cur + 1 }) :=
  if_neg (Nat.not_le.mpr h)

theorem getNextPartitionId_null (h : it.stop ≤ it.cur) (hret : it.retNullPart = true) :
    getNextPartitionId idAt nullPart it = (some nullPart, { it with retNullPart := false }) := by
  rw [getNextPartitionId, if_pos h, if_pos hret]

theorem getNextPartitionId_end (h : it.stop ≤ it.cur) (hret : it.retNullPart = false) :
    getNextPartitionId idAt nullPart it =
      (none, { it with cur := it.start, retNullPart := it.retNullPartOrig }) := by
  rw [getNextPartitionId, if_pos h, if_neg (Bool.eq_false_iff.mp hret)]

theorem yields_getNextPartitionId (it : PartIter) :
    Lib.Yields (getNextPartitionId idAt nullPart) it p ↔
      (∃ i, it.cur ≤ i ∧ i < it.stop ∧ idAt i = p) ∨ (it.retNullPart = true ∧ p = nullPart) := by
  induction hn : it.stop - it.cur generalizing it with
  | zero =>
    have hend : it.stop ≤ it.cur := by omega
    have hnone : ¬ ∃ i, it.cur ≤ i ∧ i < it.stop ∧ idAt i = p := by
      omega
    rw [or_iff_right hnone]
    cases hret : it.retNullPart with
    | false => simp [Lib.not_yields (getNextPartitionId_end hend hret)]
    | true =>
      have hlast : ¬ Lib.Yields (getNextPartitionId idAt nullPart)
          { it with retNullPart := false } p :=
        Lib.not_yields (getNextPartitionId_end hend rfl)
      rw [Lib.yields_iff (getNextPartitionId_null hend hret), or_iff_left hlast]
      simp
  | succ n ih =>
    rw [Lib.yields_iff (getNextPartitionId_inside (by omega)),
      ih { it with cur := it.cur + 1 } (by simp only; omega), ← or_assoc]
    refine or_congr_left ⟨?_, ?_⟩
    · rintro (rfl | ⟨i, hi, his, hid⟩)
      · exact ⟨it.cur, le_rfl, by omega, rfl⟩
      · exact ⟨i, Nat.le_of_succ_le hi, his, hid⟩
    · rintro ⟨i, hi, his, hid⟩
      rcases hi.lt_or_eq with hlt | rfl
      · exact .inr ⟨i, hlt, his, hid⟩
      · exact .inl hid.symm

end Iterator

end MySQL.Sql.Partition
