import Mathlib

/-!
# Addition and subtraction of integers

A `longlong` stands for a signed or for an unsigned number, as the `unsigned_flag` of its item says.
An operator first finds out whether its result is a number with either sign, and then compares the
sign with the flag of the item.
-/

namespace MySQL.Sql.Item

/-- What the `val_int` of an argument gives. -/
structure Arg where
  val : BitVec 64
  unsignedFlag : Bool
  nullValue : Bool := false

inductive IntResult
  | null
  /-- `raise_integer_overflow`. -/
  | overflow
  | value (v : BitVec 64)
  deriving DecidableEq

def longlongMin : BitVec 64 := 0x8000000000000000#64

def longlongMax : BitVec 64 := 0x7FFFFFFFFFFFFFFF#64

def ulonglongMax : BitVec 64 := 0xFFFFFFFFFFFFFFFF#64

/-- `test_if_sum_overflows_ull`. -/
def testIfSumOverflowsUll (arg1 arg2 : BitVec 64) : Bool := (ulonglongMax - arg1).ult arg2

variable (unsignedFlag : Bool)

/-- `check_integer_overflow`. -/
def checkIntegerOverflow (value : BitVec 64) (valUnsigned : Bool) : IntResult :=
  if (unsignedFlag && !valUnsigned && value.slt 0) ||
      (!unsignedFlag && valUnsigned && longlongMax.ult value) then .overflow
  else .value value

/-- `Item_func_plus::int_op`. -/
def plusIntOp (arg0 arg1 : Arg) : IntResult :=
  let val0 := arg0.val
  let val1 := arg1.val
  let res := val0 + val1
  if arg0.nullValue || arg1.nullValue then .null
  else if arg0.unsignedFlag then
    if arg1.unsignedFlag || !val1.slt 0 then
      if testIfSumOverflowsUll val0 val1 then .overflow
      else checkIntegerOverflow unsignedFlag res true
    else checkIntegerOverflow unsignedFlag res (longlongMax.ult val0)
  else if arg1.unsignedFlag then
    if !val0.slt 0 then
      if testIfSumOverflowsUll val0 val1 then .overflow
      else checkIntegerOverflow unsignedFlag res true
    else checkIntegerOverflow unsignedFlag res (longlongMax.ult val1)
  else if !val0.slt 0 && !val1.slt 0 then checkIntegerOverflow unsignedFlag res true
  else if val0.slt 0 && val1.slt 0 && !res.slt 0 then .overflow
  else checkIntegerOverflow unsignedFlag res false

/-- `Item_func_minus::int_op`. -/
def minusIntOp (arg0 arg1 : Arg) : IntResult :=
  let val0 := arg0.val
  let val1 := arg1.val
  let res := val0 - val1
  if arg0.nullValue || arg1.nullValue then .null
  else if arg0.unsignedFlag then
    if arg1.unsignedFlag then
      if val0.ult val1 then
        if !res.slt 0 then .overflow else checkIntegerOverflow unsignedFlag res false
      else checkIntegerOverflow unsignedFlag res true
    else if !val1.slt 0 then checkIntegerOverflow unsignedFlag res (val1.ult val0)
    else if testIfSumOverflowsUll val0 (-val1) then .overflow
    else checkIntegerOverflow unsignedFlag res true
  else if arg1.unsignedFlag then
    if (val0 - longlongMin).ult val1 then .overflow
    else checkIntegerOverflow unsignedFlag res false
  else if BitVec.slt 0 val0 && val1.slt 0 then checkIntegerOverflow unsignedFlag res true
  else if val0.slt 0 && BitVec.slt 0 val1 && !res.slt 0 then .overflow
  else checkIntegerOverflow unsignedFlag res false

/-! ## The number that a `longlong` stands for -/

def valueOf (v : BitVec 64) : ℤ := if unsignedFlag then v.toNat else v.toInt

def Arg.value (a : Arg) : ℤ := valueOf a.unsignedFlag a.val

def Representable (z : ℤ) : Prop :=
  if unsignedFlag then 0 ≤ z ∧ z < 18446744073709551616
  else -9223372036854775808 ≤ z ∧ z < 9223372036854775808

def Returns (z : ℤ) (r : IntResult) : Prop :=
  (Representable unsignedFlag z → ∃ v, r = .value v ∧ valueOf unsignedFlag v = z) ∧
    (¬ Representable unsignedFlag z → r = .overflow)

variable {u w : Bool} {v v' : BitVec 64} {z : ℤ}

theorem valueOf_true (v : BitVec 64) : valueOf true v = v.toNat := rfl

theorem valueOf_false (v : BitVec 64) : valueOf false v =
    if v.toNat < 2 ^ 63 then (v.toNat : ℤ) else v.toNat - 2 ^ 64 := by
  rw [valueOf, if_neg Bool.false_ne_true, BitVec.toInt_eq_toNat_cond]
  split <;> split <;> omega

theorem slt_zero_iff (v : BitVec 64) : v.slt 0 = true ↔ 2 ^ 63 ≤ v.toNat := by
  rw [BitVec.slt_iff_toInt_lt, BitVec.toInt_eq_toNat_cond]
  simp
  split <;> omega

theorem zero_slt_iff (v : BitVec 64) : BitVec.slt 0 v = true ↔ 0 < v.toNat ∧ v.toNat < 2 ^ 63 := by
  rw [BitVec.slt_iff_toInt_lt, BitVec.toInt_eq_toNat_cond v]
  simp
  split <;> omega

theorem longlongMax_ult_iff (v : BitVec 64) : longlongMax.ult v = true ↔ 2 ^ 63 ≤ v.toNat := by
  rw [BitVec.ult_iff_lt]
  exact Iff.rfl

theorem testIfSumOverflowsUll_iff :
    testIfSumOverflowsUll v v' = true ↔ 2 ^ 64 ≤ v.toNat + v'.toNat := by
  have hmax : ulonglongMax.toNat = 18446744073709551615 := rfl
  rw [testIfSumOverflowsUll, BitVec.ult_iff_toNat_lt,
    BitVec.toNat_sub_of_le (by rw [BitVec.le_def]; omega)]
  omega

theorem representable_valueOf (u : Bool) (v : BitVec 64) : Representable u (valueOf u v) := by
  unfold Representable
  cases u with
  | true =>
    rw [if_pos rfl, valueOf_true]
    omega
  | false =>
    rw [if_neg Bool.false_ne_true, valueOf_false]
    split <;> omega

theorem valueOf_of_lt (h : v.toNat < 2 ^ 63) (u : Bool) : valueOf u v = v.toNat := by
  cases u with
  | true => rfl
  | false => rw [valueOf_false, if_pos h]

theorem returns_value (hz : valueOf u v = z) : Returns u z (.value v) := by
  subst hz
  exact ⟨fun _ => ⟨v, rfl, rfl⟩, fun h => absurd (representable_valueOf u v) h⟩

theorem returns_overflow (h : ¬ Representable u z) : Returns u z .overflow :=
  ⟨fun hz => absurd hz h, fun _ => rfl⟩

theorem not_representable_of_lt (h : z < -2 ^ 63) (u : Bool) : ¬ Representable u z := by
  unfold Representable
  split <;> omega

theorem not_representable_of_le (h : 2 ^ 64 ≤ z) (u : Bool) : ¬ Representable u z := by
  unfold Representable
  split <;> omega

theorem returns_overflow_of_lt (h : z < -2 ^ 63) : Returns u z .overflow :=
  returns_overflow (not_representable_of_lt h u)

theorem returns_overflow_of_le (h : 2 ^ 64 ≤ z) : Returns u z .overflow :=
  returns_overflow (not_representable_of_le h u)

theorem returns_checkIntegerOverflow (hz : valueOf w v = z) :
    Returns u z (checkIntegerOverflow u v w) := by
  subst hz
  have hneg := slt_zero_iff v
  have hmax := longlongMax_ult_iff v
  unfold checkIntegerOverflow
  by_cases hbig : 2 ^ 63 ≤ v.toNat
  · rw [hneg.mpr hbig, hmax.mpr hbig]
    cases u <;> cases w
    · exact returns_value rfl
    · refine returns_overflow ?_
      rw [Representable, if_neg Bool.false_ne_true, valueOf_true]
      omega
    · refine returns_overflow ?_
      rw [Representable, if_pos rfl, valueOf_false]
      omega
    · exact returns_value rfl
  · rw [Bool.eq_false_iff.mpr (mt hneg.mp hbig), Bool.eq_false_iff.mpr (mt hmax.mp hbig)]
    simp only [Bool.and_false, Bool.or_self, Bool.false_eq_true, if_false]
    refine returns_value ?_
    rw [valueOf_of_lt (by omega), valueOf_of_lt (by omega)]

theorem valueOf_false_of_le (h : 2 ^ 63 ≤ v.toNat) : valueOf false v = v.toNat - 2 ^ 64 := by
  rw [valueOf_false, if_neg (by omega)]

theorem valueOf_of_slt (h : v.slt 0 = false) : valueOf false v = v.toNat := by
  have hlt : ¬ 2 ^ 63 ≤ v.toNat := fun hle => by
    rw [(slt_zero_iff v).mpr hle] at h
    exact Bool.noConfusion h
  exact valueOf_of_lt (by omega) false

/-! ## Addition -/

theorem returns_sum_nonneg : Returns u (v.toNat + v'.toNat)
    (if testIfSumOverflowsUll v v' then .overflow else checkIntegerOverflow u (v + v') true) := by
  split
  · next h =>
    rw [testIfSumOverflowsUll_iff] at h
    exact returns_overflow_of_le (by omega)
  · next h =>
    rw [testIfSumOverflowsUll_iff] at h
    apply returns_checkIntegerOverflow
    rw [valueOf_true, BitVec.toNat_add]
    omega

theorem returns_sum_mixed (h : 2 ^ 63 ≤ v'.toNat) :
    Returns u (v.toNat + (v'.toNat - 2 ^ 64))
      (checkIntegerOverflow u (v + v') (longlongMax.ult v)) := by
  have hadd := BitVec.toNat_add v v'
  apply returns_checkIntegerOverflow
  by_cases hbig : longlongMax.ult v = true
  · rw [hbig, valueOf_true]
    rw [longlongMax_ult_iff] at hbig
    omega
  · rw [Bool.eq_false_iff.mpr hbig, valueOf_false]
    rw [longlongMax_ult_iff] at hbig
    split <;> omega

theorem returns_sum_signed : Returns u (valueOf false v + valueOf false v')
    (if !v.slt 0 && !v'.slt 0 then checkIntegerOverflow u (v + v') true
      else if v.slt 0 && v'.slt 0 && !(v + v').slt 0 then .overflow
      else checkIntegerOverflow u (v + v') false) := by
  have hadd := BitVec.toNat_add v v'
  simp only [Bool.and_eq_true, Bool.not_eq_true', ← Bool.not_eq_true, slt_zero_iff]
  split_ifs with hnonneg hlow
  · apply returns_checkIntegerOverflow
    rw [valueOf_true, valueOf_of_lt (by omega), valueOf_of_lt (by omega)]
    omega
  · apply returns_overflow_of_lt
    rw [valueOf_false_of_le hlow.1.1, valueOf_false_of_le hlow.1.2]
    omega
  · apply returns_checkIntegerOverflow
    simp only [valueOf_false]
    split_ifs <;> omega

theorem returns_plusIntOp (u u0 u1 : Bool) (v0 v1 : BitVec 64) :
    Returns u (valueOf u0 v0 + valueOf u1 v1) (plusIntOp u ⟨v0, u0, false⟩ ⟨v1, u1, false⟩) := by
  unfold plusIntOp
  cases u0 <;> cases u1 <;>
    simp only [Bool.or_self, Bool.false_eq_true, Bool.false_or, Bool.true_or, if_false, if_true]
  · exact returns_sum_signed
  · cases hsign : v0.slt 0 with
    | true =>
      have hneg := (slt_zero_iff v0).mp hsign
      rw [valueOf_false_of_le hneg, add_comm, BitVec.add_comm v0]
      exact returns_sum_mixed hneg
    | false =>
      rw [valueOf_of_slt hsign, if_pos Bool.not_false]
      exact returns_sum_nonneg
  · cases hsign : v1.slt 0 with
    | true =>
      have hneg := (slt_zero_iff v1).mp hsign
      rw [valueOf_false_of_le hneg, if_neg Bool.noConfusion]
      exact returns_sum_mixed hneg
    | false =>
      rw [valueOf_of_slt hsign, if_pos Bool.not_false]
      exact returns_sum_nonneg
  · exact returns_sum_nonneg

/-! ## Subtraction -/

theorem returns_diff_unsigned : Returns u (v.toNat - v'.toNat) (if v.ult v' then
        if !(v - v').slt 0 then .overflow else checkIntegerOverflow u (v - v') false
      else checkIntegerOverflow u (v - v') true) := by
  have hsub := BitVec.toNat_sub v v'
  simp only [Bool.not_eq_true', ← Bool.not_eq_true, slt_zero_iff, BitVec.ult_iff_toNat_lt]
  split_ifs with hlt hlow
  · apply returns_checkIntegerOverflow
    rw [valueOf_false_of_le hlow]
    omega
  · exact returns_overflow_of_lt (by omega)
  · apply returns_checkIntegerOverflow
    rw [valueOf_true]
    omega

theorem returns_diff_nonneg (h : v'.toNat < 2 ^ 63) : Returns u (v.toNat - v'.toNat)
    (checkIntegerOverflow u (v - v') (v'.ult v)) := by
  have hsub := BitVec.toNat_sub v v'
  apply returns_checkIntegerOverflow
  by_cases hlt : v'.ult v = true
  · rw [hlt, valueOf_true]
    rw [BitVec.ult_iff_toNat_lt] at hlt
    omega
  · rw [Bool.eq_false_iff.mpr hlt, valueOf_false]
    rw [BitVec.ult_iff_toNat_lt] at hlt
    split <;> omega

theorem returns_diff_neg (h : 2 ^ 63 ≤ v'.toNat) :
    Returns u (v.toNat - (v'.toNat - 2 ^ 64))
      (if testIfSumOverflowsUll v (-v') then .overflow
        else checkIntegerOverflow u (v - v') true) := by
  have hneg : (-v').toNat = 2 ^ 64 - v'.toNat := by
    rw [BitVec.toNat_neg]
    omega
  rw [show (v.toNat - (v'.toNat - 2 ^ 64) : ℤ) = v.toNat + (-v').toNat by omega,
    BitVec.sub_eq_add_neg]
  exact returns_sum_nonneg

theorem returns_diff_mixed : Returns u (valueOf false v - v'.toNat)
    (if (v - longlongMin).ult v' then .overflow else checkIntegerOverflow u (v - v') false) := by
  have hsub := BitVec.toNat_sub v v'
  have hmin : longlongMin.toNat = 2 ^ 63 := rfl
  have hshift := BitVec.toNat_sub v longlongMin
  simp only [BitVec.ult_iff_toNat_lt, hshift]
  split_ifs with hlow
  · apply returns_overflow_of_lt
    rw [valueOf_false]
    split <;> omega
  · apply returns_checkIntegerOverflow
    simp only [valueOf_false]
    split_ifs <;> omega

theorem returns_diff_signed_iff : Returns u (valueOf false v - valueOf false v')
    (if BitVec.slt 0 v && v'.slt 0 then checkIntegerOverflow u (v - v') true
      else if v.slt 0 && BitVec.slt 0 v' && !(v - v').slt 0 then .overflow
      else checkIntegerOverflow u (v - v') false) ↔ ¬ (v = 0 ∧ v' = longlongMin) := by
  have hv := v.isLt
  have hv' := v'.isLt
  have hsub := BitVec.toNat_sub v v'
  have hzero : v = 0 ↔ v.toNat = 0 := BitVec.toNat_inj.symm
  have hmin : v' = longlongMin ↔ v'.toNat = 2 ^ 63 := BitVec.toNat_inj.symm
  by_cases hbad : v = 0 ∧ v' = longlongMin
  · obtain ⟨rfl, rfl⟩ := hbad
    refine iff_of_false (fun hreturns => ?_) (fun hnot => hnot ⟨rfl, rfl⟩)
    have hdiff : valueOf false 0 - valueOf false longlongMin = 2 ^ 63 := by decide
    rw [hdiff] at hreturns
    cases u with
    | false =>
      have hoverflow := hreturns.2 (by rw [Representable, if_neg Bool.false_ne_true]; omega)
      exact absurd hoverflow (by decide)
    | true =>
      obtain ⟨w, hw, -⟩ := hreturns.1 (by rw [Representable, if_pos rfl]; omega)
      have hoverflow : IntResult.overflow = .value w := hw
      exact IntResult.noConfusion hoverflow
  · refine iff_of_true ?_ hbad
    rw [hzero, hmin] at hbad
    simp only [Bool.and_eq_true, Bool.not_eq_true', ← Bool.not_eq_true, slt_zero_iff,
      zero_slt_iff]
    split_ifs with hpos hlow
    · apply returns_checkIntegerOverflow
      rw [valueOf_true, valueOf_of_lt hpos.1.2, valueOf_false_of_le hpos.2]
      omega
    · apply returns_overflow_of_lt
      rw [valueOf_false_of_le hlow.1.1, valueOf_of_lt hlow.1.2.2]
      omega
    · apply returns_checkIntegerOverflow
      simp only [valueOf_false]
      split_ifs <;> omega

theorem returns_minusIntOp_iff (u u0 u1 : Bool) (v0 v1 : BitVec 64) :
    Returns u (valueOf u0 v0 - valueOf u1 v1) (minusIntOp u ⟨v0, u0, false⟩ ⟨v1, u1, false⟩) ↔
      ¬ (u0 = false ∧ u1 = false ∧ v0 = 0 ∧ v1 = longlongMin) := by
  unfold minusIntOp
  cases u0 <;> cases u1 <;>
    simp only [Bool.or_self, Bool.false_eq_true, if_false, if_true, true_and, reduceCtorEq,
      false_and, and_false, not_false_eq_true, iff_true]
  · exact returns_diff_signed_iff
  · exact returns_diff_mixed
  · cases hsign : v1.slt 0 with
    | true =>
      have hneg := (slt_zero_iff v1).mp hsign
      rw [valueOf_false_of_le hneg, if_neg Bool.noConfusion]
      exact returns_diff_neg hneg
    | false =>
      have hlt := mt (slt_zero_iff v1).mpr (Bool.eq_false_iff.mp hsign)
      rw [valueOf_of_slt hsign, if_pos Bool.not_false]
      exact returns_diff_nonneg (by omega)
  · exact returns_diff_unsigned

/-- Addition and subtraction are right but for `0 - LONGLONG_MIN` of signed arguments. -/
theorem returns_plusIntOp_minusIntOp_iff (u u0 u1 : Bool) (v0 v1 : BitVec 64) :
    (Returns u (valueOf u0 v0 + valueOf u1 v1) (plusIntOp u ⟨v0, u0, false⟩ ⟨v1, u1, false⟩) ∧
        Returns u (valueOf u0 v0 - valueOf u1 v1)
          (minusIntOp u ⟨v0, u0, false⟩ ⟨v1, u1, false⟩)) ↔
      ¬ (u0 = false ∧ u1 = false ∧ v0 = 0 ∧ v1 = longlongMin) := by
  rw [← returns_minusIntOp_iff u]
  exact and_iff_right (returns_plusIntOp u u0 u1 v0 v1)

/-- For a signed item the result is negative, and for an unsigned one it is an error. -/
theorem minusIntOp_longlongMin :
    minusIntOp false ⟨0, false, false⟩ ⟨longlongMin, false, false⟩ = .value longlongMin ∧
      minusIntOp true ⟨0, false, false⟩ ⟨longlongMin, false, false⟩ = .overflow ∧
      valueOf false 0 - valueOf false longlongMin = 9223372036854775808 := by
  decide

end MySQL.Sql.Item
