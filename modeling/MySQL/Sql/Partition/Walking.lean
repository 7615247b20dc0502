import MySQL.Sql.Partition.Ids

/-!
# Pruning by walking

For any function of one integer column the values of a short interval are stored in the column
one after another, and the partition of each of them is computed.
-/

namespace MySQL.Sql.Partition

open Lib

/-! ## Integer columns -/

inductive IntType where
  | tiny
  | short
  | medium
  | long
  | longlong
  deriving DecidableEq, Repr

def IntType.bytes : IntType → ℕ
  | tiny => 1
  | short => 2
  | medium => 3
  | long => 4
  | longlong => 8

structure IntField where
  type : IntType
  unsignedFlag : Bool
  realMaybeNull : Bool

/-- `Field_tiny::store` and the three functions like it.  The value that stands for an unsigned
number out of the range of `longlong` differs. -/
def storeNarrow (bits : ℕ) (overflow : ℤ) (unsignedFlag : Bool) (nr : Longlong)
    (unsignedVal : Bool) : ℤ :=
  if unsignedFlag then
    if nr.toInt < 0 ∧ unsignedVal = false then 0
    else if 2 ^ bits ≤ nr.toNat then 2 ^ bits - 1
    else nr.toNat
  else
    let n := if nr.toInt < 0 ∧ unsignedVal then overflow else nr.toInt
    if n < -2 ^ (bits - 1) then -2 ^ (bits - 1)
    else if 2 ^ (bits - 1) - 1 < n then 2 ^ (bits - 1) - 1
    else n

/-- `Field_longlong::store`. -/
def storeLonglong (unsignedFlag : Bool) (nr : Longlong) (unsignedVal : Bool) : ℤ :=
  number unsignedFlag
    (if nr.toInt < 0 ∧ unsignedFlag ≠ unsignedVal then
      if unsignedFlag then 0 else longlongMax
    else nr)

namespace IntField

variable (field : IntField)

/-- `store(longlong nr, bool unsigned_val)`: the value of the column afterwards. -/
def store : Longlong → Bool → ℤ :=
  match field.type with
  | .tiny => storeNarrow 8 256 field.unsignedFlag
  | .short => storeNarrow 16 65536 field.unsignedFlag
  | .medium => storeNarrow 24 (2 ^ 24) field.unsignedFlag
  | .long => storeNarrow 32 (2 ^ 31) field.unsignedFlag
  | .longlong => storeLonglong field.unsignedFlag

/-- `val_int`. -/
def valInt (v : ℤ) : Longlong := BitVec.ofInt 64 v

def keyField : KeyField ℤ where
  packLengthInRec := field.type.bytes
  realMaybeNull := field.realMaybeNull
  setKeyImage ptr :=
    let n : ℤ := (ptr.foldr (fun b n => b.toNat + 256 * n) 0 : ℕ)
    if field.unsignedFlag then n % 2 ^ (8 * field.type.bytes)
    else Int.bmod n (2 ^ (8 * field.type.bytes))

def InRange (v : ℤ) : Prop :=
  if field.unsignedFlag then 0 ≤ v ∧ v < 2 ^ (8 * field.type.bytes)
  else -2 ^ (8 * field.type.bytes - 1) ≤ v ∧ v < 2 ^ (8 * field.type.bytes - 1)

/-- An unsigned 64-bit value that is not a `longlong` is taken for a negative number. -/
def storedAsSigned (v : ℤ) : ℤ :=
  if field.type = .longlong ∧ field.unsignedFlag ∧ 2 ^ 63 ≤ v then 0 else v

variable {field}

theorem inRange_setKeyImage (ptr : List UInt8) :
    field.InRange (field.keyField.setKeyImage ptr) := by
  obtain ⟨type, unsignedFlag, realMaybeNull⟩ := field
  simp only [InRange, keyField]
  generalize ((ptr.foldr (fun b n => b.toNat + 256 * n) 0 : ℕ) : ℤ) = n
  split_ifs
  · cases type <;> simp only [IntType.bytes] <;> omega
  · have hpos : 0 < 2 ^ (8 * type.bytes) := Nat.two_pow_pos _
    have hle := Int.le_bmod (x := n) hpos
    have hlt := Int.bmod_lt (x := n) hpos
    cases type <;> simp only [IntType.bytes] at hle hlt ⊢ <;> omega

end IntField

theorem toInt_ofInt_of_lt {v : ℤ} (hle : -2 ^ 63 ≤ v) (hlt : v < 2 ^ 63) :
    (BitVec.ofInt 64 v).toInt = v := by
  rw [BitVec.toInt_ofInt, Int.bmod_eq_of_le (by omega) (by omega)]

theorem toNat_ofInt_of_nonneg {v : ℤ} (hle : 0 ≤ v) (hlt : v < 2 ^ 64) :
    ((BitVec.ofInt 64 v).toNat : ℤ) = v := by
  rw [BitVec.toNat_ofInt]
  omega

theorem storeNarrow_ofInt {bits : ℕ} {o v : ℤ} {unsignedFlag unsignedVal : Bool}
    (hbits : bits ≤ 32) (hval : unsignedFlag = false → unsignedVal = false)
    (h : if unsignedFlag then 0 ≤ v ∧ v < 2 ^ bits
      else -2 ^ (bits - 1) ≤ v ∧ v < 2 ^ (bits - 1)) :
    storeNarrow bits o unsignedFlag (BitVec.ofInt 64 v) unsignedVal = v := by
  have hpow : (2 : ℤ) ^ bits ≤ 2 ^ 32 := pow_le_pow_right₀ (by decide) hbits
  have hpow' : (2 : ℤ) ^ (bits - 1) ≤ 2 ^ 32 := pow_le_pow_right₀ (by decide) (by omega)
  cases unsignedFlag with
  | true =>
    obtain ⟨hle, hlt⟩ : 0 ≤ v ∧ v < 2 ^ bits := h
    have hnat := toNat_ofInt_of_nonneg hle (by omega)
    have hint : (BitVec.ofInt 64 v).toInt = v := toInt_ofInt_of_lt (by omega) (by omega)
    have hsmall : ¬ 2 ^ bits ≤ (BitVec.ofInt 64 v).toNat := by
      intro hge
      have : ((2 ^ bits : ℕ) : ℤ) ≤ v := by rw [← hnat]; exact_mod_cast hge
      push_cast at this
      omega
    rw [storeNarrow, if_pos rfl, if_neg (by omega), if_neg hsmall, hnat]
  | false =>
    obtain ⟨hle, hlt⟩ : -2 ^ (bits - 1) ≤ v ∧ v < 2 ^ (bits - 1) := h
    have hint : (BitVec.ofInt 64 v).toInt = v := toInt_ofInt_of_lt (by omega) (by omega)
    have hflag : ¬ (v < 0 ∧ unsignedVal = true) := by simp [hval rfl]
    simp only [storeNarrow, Bool.false_eq_true, if_false, hint, if_neg hflag]
    rw [if_neg (by omega), if_neg (by omega)]

namespace IntField

variable {field : IntField} {v : ℤ}

theorem store_valInt_self (h : field.InRange v) :
    field.store (valInt v) field.unsignedFlag = v := by
  obtain ⟨type, unsignedFlag, realMaybeNull⟩ := field
  cases type with
  | tiny => exact storeNarrow_ofInt (by decide) id h
  | short => exact storeNarrow_ofInt (by decide) id h
  | medium => exact storeNarrow_ofInt (by decide) id h
  | long => exact storeNarrow_ofInt (by decide) id h
  | longlong =>
    simp only [store, storeLonglong, ne_eq, not_true, and_false, if_false, valInt]
    cases unsignedFlag with
    | true => exact toNat_ofInt_of_nonneg h.1 h.2
    | false => exact toInt_ofInt_of_lt h.1 h.2

theorem store_valInt_false (h : field.InRange v) :
    field.store (valInt v) false = field.storedAsSigned v := by
  obtain ⟨type, unsignedFlag, realMaybeNull⟩ := field
  cases type with
  | tiny => exact storeNarrow_ofInt (by decide) (fun _ => rfl) h
  | short => exact storeNarrow_ofInt (by decide) (fun _ => rfl) h
  | medium => exact storeNarrow_ofInt (by decide) (fun _ => rfl) h
  | long => exact storeNarrow_ofInt (by decide) (fun _ => rfl) h
  | longlong =>
    cases unsignedFlag with
    | false => exact (store_valInt_self h).trans (by simp [storedAsSigned])
    | true =>
      obtain ⟨hle, hlt⟩ : 0 ≤ v ∧ v < 2 ^ 64 := h
      have hnat := toNat_ofInt_of_nonneg hle hlt
      have hneg : (BitVec.ofInt 64 v).toInt < 0 ↔ 2 ^ 63 ≤ v := by
        rw [BitVec.toInt_eq_toNat_cond]
        split_ifs <;> omega
      simp only [store, storeLonglong, valInt, storedAsSigned, hneg, number, if_true, ne_eq,
        Bool.true_eq_false, not_false_eq_true, and_true, true_and]
      split_ifs with hbig
      · rfl
      · exact hnat

end IntField

/-! ## Partitioning functions -/

/-- The functions that compute the id of a partition or of a subpartition. -/
inductive PartFunc (β : Type*) where
  | hash (e : PartExpr β) (numParts : ℕ)
  | linearHash (e : PartExpr β) (mask : BitVec 32) (numParts : ℕ)
  /-- KEY with `calculate_key_value` of the column. -/
  | key (value : WithBot β → BitVec 32) (numParts : ℕ)
  | linearKey (value : WithBot β → BitVec 32) (mask : BitVec 32) (numParts : ℕ)
  | range (t : RangeTable) (e : PartExpr β)
  | list (t : ListTable) (e : PartExpr β)

/-- The value of `part_val_int` for HASH, where NULL is LONGLONG_MIN. -/
def hashValue {β : Type*} (e : PartExpr β) (x : WithBot β) : Option Longlong :=
  (partValInt e x).map (WithBot.recBotCoe longlongMin id)

/-- The last two lines of `get_part_id_hash`. -/
def hashPartId (numParts : ℕ) (value : Longlong) : ℕ := (value.toInt.tmod numParts).natAbs

/-- `get_part_id_from_linear_hash`. -/
def linearHashPartId (mask : BitVec 32) (numParts : ℕ) (value : Longlong) : ℕ :=
  let partId := (value &&& mask.zeroExtend 64).toNat % 2 ^ 32
  if numParts ≤ partId then
    let newMask := ((mask + 1) >>> 1) - 1
    (value &&& newMask.zeroExtend 64).toNat % 2 ^ 32
  else partId

def PartFunc.partId {β : Type*} : PartFunc β → WithBot β → Option ℕ
  | hash e numParts, x => (hashValue e x).map (hashPartId numParts)
  | linearHash e mask numParts, x => (hashValue e x).map (linearHashPartId mask numParts)
  | key value numParts, x => some ((value x).toNat % numParts)
  | linearKey value mask numParts, x =>
    some (linearHashPartId mask numParts ((value x).zeroExtend 64))
  | range t e, x => getPartitionIdRange t e x
  | list t e, x => getPartitionIdList t e x

structure SubpartInfo where
  field : IntField
  func : PartFunc ℤ
  numSubparts : ℕ

/-- `partition_info` of a table with an integer column as the only column of its partitioning
function, and of its subpartitioning function if it has one. -/
structure WalkInfo where
  field : IntField
  func : PartFunc ℤ
  numParts : ℕ
  sub : Option SubpartInfo

namespace WalkInfo

variable (info : WalkInfo)

/-- `get_part_partition_id`. -/
def getPartPartitionId (x : WithBot ℤ) : Option ℕ := info.func.partId x

/-- `get_subpartition_id`. -/
def getSubpartitionId (y : WithBot ℤ) : Option ℕ := info.sub.bind fun s => s.func.partId y

/-- `get_partition_id` of a record with the value `x` of the partitioning column and `y` of the
subpartitioning column; with subpartitions it is `get_partition_id_with_sub`. -/
def getPartitionId (x y : WithBot ℤ) : Option ℕ :=
  match info.sub with
  | none => info.getPartPartitionId x
  | some s =>
    match info.getPartPartitionId x with
    | none => none
    | some locPartId => (info.getSubpartitionId y).map fun subPartId =>
        locPartId * s.numSubparts + subPartId

end WalkInfo

/-! ## The walk -/

/-- `PARTITION_ITERATOR` with `field_vals`. -/
structure FieldIter where
  start : Longlong
  cur : Longlong
  stop : Longlong

/-- The iterators that the analysis initializes. -/
inductive WalkIter where
  | single (it : PartIter)
  | parts (it : FieldIter)
  | subparts (it : FieldIter)

namespace FieldIter

variable (it : FieldIter)

def reset : FieldIter := { it with cur := it.start }

/-- The state after `cur++`. -/
def advance : FieldIter := { it with cur := it.cur + 1 }

def rest : ℕ := (it.stop - it.cur).toNat

end FieldIter

namespace WalkInfo

variable (info : WalkInfo)

/-- The loop of `get_next_partition_via_walking`, which skips the values without a partition.
There are at most as many steps as values. -/
def nextPart (y : WithBot ℤ) : ℕ → FieldIter → Option ℕ × FieldIter
  | 0, it => (none, it.reset)
  | n + 1, it =>
    if it.cur = it.stop then (none, it.reset)
    else
      let x := (info.field.store it.cur info.field.unsignedFlag : ℤ)
      match if info.sub.isSome then info.getPartPartitionId x else none with
      | some p => (some p, it.advance)
      | none =>
        match info.getPartitionId x y with
        | some p => (some p, it.advance)
        | none => nextPart y n it.advance

/-- `get_next_partition_via_walking`; `y` is what the record holds in the subpartitioning
column. -/
def getNextPartitionViaWalking (y : WithBot ℤ) (it : FieldIter) : Option ℕ × FieldIter :=
  info.nextPart y it.rest it

/-- `get_next_subpartition_via_walking`. -/
def getNextSubpartitionViaWalking (it : FieldIter) : Option ℕ × FieldIter :=
  match info.sub with
  | none => (none, it)
  | some s =>
    if it.cur = it.stop then (none, it.reset)
    else (info.getSubpartitionId (s.field.store it.cur false : ℤ), it.advance)

/-- The function `get_next` of the iterator. -/
def getNext (y : WithBot ℤ) : WalkIter → Option ℕ × WalkIter
  | .single it => (getNextPartitionIdRange it).map id .single
  | .parts it => (info.getNextPartitionViaWalking y it).map id .parts
  | .subparts it => (info.getNextSubpartitionViaWalking it).map id .subparts

variable (isSubpart : Bool)

def walkField : IntField :=
  if isSubpart then (info.sub.map SubpartInfo.field).getD info.field else info.field

/-- The id of the partition, or of the subpartition, of a row with the value `x` in the column
that is walked. -/
def walkId (x : WithBot ℤ) : Option ℕ :=
  if isSubpart then info.getSubpartitionId x else info.getPartPartitionId x

def totalParts : ℕ :=
  if isSubpart then (info.sub.map SubpartInfo.numSubparts).getD 0 else info.numParts

def maxRangeToWalk : ℕ := 32

/-- `get_part_iter_for_interval_via_walking`. -/
def getPartIterForIntervalViaWalking (iv : Interval) : Pruning WalkIter :=
  let field := info.walkField isSubpart
  let flags := iv.flags
  let minNull := (iv.minValue.getD []).headD 0 ≠ 0
  let maxNull := (iv.maxValue.getD []).headD 0 ≠ 0
  if field.realMaybeNull ∧ ¬ (flags.noMinRange ∨ flags.noMaxRange) ∧ minNull ∧ maxNull then
    match info.walkId isSubpart ⊥ with
    | some partId => .iterator (.single ⟨partId, partId, partId + 1, false, false⟩)
    | none => .noPartitions
  else if (field.realMaybeNull ∧
      ((flags.noMinRange = false ∧ minNull) ∨ (flags.noMaxRange = false ∧ maxNull))) ∨
      flags.noMinRange ∨ flags.noMaxRange then
    .allPartitions
  else
    let a := WithBot.recBotCoe 0 IntField.valInt (field.keyField.minOf iv)
    let b := WithBot.recBotCoe 0 IntField.valInt (field.keyField.maxOf iv)
    if b - a = -1 then .allPartitions
    else
      let a := a + if flags.nearMin then 1 else 0
      let b := b + if flags.nearMax then 0 else 1
      let nValues := (b - a).toNat
      if 2 * info.totalParts isSubpart % 2 ^ 32 < nValues ∧ maxRangeToWalk < nValues then
        .allPartitions
      else if isSubpart then .iterator (.subparts ⟨a, a, b⟩)
      else .iterator (.parts ⟨a, a, b⟩)

end WalkInfo

end MySQL.Sql.Partition
