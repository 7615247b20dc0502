import MySQL.Sql.Item.IntOp

/-!
# Multiplication and division of integers

The operators work with absolute values, and put the sign back in the end.
-/

namespace MySQL.Sql.Item

/-- `a_negative`, `val0_negative` and so on. -/
def Arg.negative (a : Arg) : Bool := !a.unsignedFlag && a.val.slt 0

def Arg.magnitude (a : Arg) : BitVec 64 := if a.negative then -a.val else a.val

def mulMagnitudes (a b : BitVec 64) : Option (BitVec 64) :=
  let a0 := 0xFFFFFFFF#64 &&& a
  let a1 := a >>> 32
  let b0 := 0xFFFFFFFF#64 &&& b
  let b1 := b >>> 32
  if a1 ≠ 0 ∧ b1 ≠ 0 then none
  else
    let res1 := a1 * b0 + a0 * b1
    if BitVec.ult 0xFFFFFFFF#64 res1 then none
    else
      let res1 := res1 <<< 32
      let res0 := a0 * b0
      if testIfSumOverflowsUll res1 res0 then none else some (res1 + res0)

variable (unsignedFlag : Bool) (arg0 arg1 : Arg)

/-- `Item_func_mul::int_op`. -/
def mulIntOp : IntResult :=
  if arg0.nullValue || arg1.nullValue then .null
  else
    match mulMagnitudes arg0.magnitude arg1.magnitude with
    | none => .overflow
    | some res =>
      if arg0.negative != arg1.negative then
        if (longlongMin + 1).ult res then .overflow
        else checkIntegerOverflow unsignedFlag (-res) false
      else checkIntegerOverflow unsignedFlag res true

/-- `Item_func_int_div::val_int` for integers. -/
def intDivValInt : IntResult :=
  if arg0.nullValue || arg1.nullValue || arg1.val == 0 then .null
  else
    let res := arg0.magnitude / arg1.magnitude
    if arg0.negative != arg1.negative then
      if longlongMax.ult res then .overflow
      else checkIntegerOverflow unsignedFlag (-res) false
    else checkIntegerOverflow unsignedFlag res true

/-- `Item_func_mod::int_op`. -/
def modIntOp : IntResult :=
  if arg0.nullValue || arg1.nullValue || arg1.val == 0 then .null
  else
    let res := arg0.magnitude % arg1.magnitude
    checkIntegerOverflow unsignedFlag (if arg0.negative then -res else res) (!arg0.negative)

/-! ## Signs and absolute values -/

variable {u : Bool} {v v' : BitVec 64} {a b : Arg}

def signed (negative : Bool) (n : ℕ) : ℤ := if negative then -n else n

theorem Arg.value_eq (a : Arg) : a.value = signed a.negative a.magnitude.toNat := by
  obtain ⟨v, unsignedFlag, nullValue⟩ := a
  unfold Arg.value Arg.magnitude Arg.negative signed
  cases unsignedFlag with
  | true => rfl
  | false =>
    cases hsign : v.slt 0 with
    | false => exact valueOf_of_slt hsign
    | true =>
      have hneg := (slt_zero_iff v).mp hsign
      rw [valueOf_false_of_le hneg]
      simp only [Bool.not_false, Bool.and_self, if_true]
      rw [BitVec.toNat_neg]
      omega

theorem Arg.magnitude_of_negative (h : a.negative = true) : a.magnitude.toNat ≤ 2 ^ 63 := by
  have hsign : a.val.slt 0 = true := by
    rw [negative, Bool.and_eq_true] at h
    exact h.2
  have hneg := (slt_zero_iff a.val).mp hsign
  rw [magnitude, if_pos h, BitVec.toNat_neg]
  omega

variable (n n' : Bool) (k l : ℕ)

theorem signed_mul : signed n k * signed n' l = signed (n != n') (k * l) := by
  cases n <;> cases n' <;> simp [signed]

theorem valueOf_true_eq_signed (v : BitVec 64) : valueOf true v = signed false v.toNat := rfl

theorem valueOf_neg (h : v.toNat ≤ 2 ^ 63) : valueOf false (-v) = signed true v.toNat := by
  have hneg := BitVec.toNat_neg v
  rw [valueOf_false, signed, if_pos rfl]
  split <;> omega

/-! ## Multiplication -/

theorem toNat_low (v : BitVec 64) : (0xFFFFFFFF#64 &&& v).toNat = v.toNat % 2 ^ 32 := by
  rw [BitVec.toNat_and, Nat.and_comm]
  exact Nat.and_two_pow_sub_one_eq_mod v.toNat 32

theorem toNat_high (v : BitVec 64) : (v >>> 32).toNat = v.toNat / 2 ^ 32 := by
  rw [BitVec.toNat_ushiftRight, Nat.shiftRight_eq_div_pow]

theorem toNat_shift (v : BitVec 64) : (v <<< 32).toNat = v.toNat * 2 ^ 32 % 2 ^ 64 := by
  rw [BitVec.toNat_shiftLeft, Nat.shiftLeft_eq]

theorem mul_halves : k * l =
    k / 2 ^ 32 * (l / 2 ^ 32) * 2 ^ 64 +
      (k / 2 ^ 32 * (l % 2 ^ 32) + k % 2 ^ 32 * (l / 2 ^ 32)) * 2 ^ 32 +
      k % 2 ^ 32 * (l % 2 ^ 32) := by
  have hk := Nat.div_add_mod k (2 ^ 32)
  have hl := Nat.div_add_mod l (2 ^ 32)
  generalize k / 2 ^ 32 = k1 at *
  generalize k % 2 ^ 32 = k0 at *
  generalize l / 2 ^ 32 = l1 at *
  generalize l % 2 ^ 32 = l0 at *
  subst hk hl
  ring

theorem mul_lt_of_halves {k l : ℕ} (hk : k < 2 ^ 32) (hl : l < 2 ^ 32) : k * l < 2 ^ 64 := by
  have hmul := Nat.mul_lt_mul'' hk hl
  omega

theorem toNat_mul_of_lt (hv : v.toNat < 2 ^ 32) (hv' : v'.toNat < 2 ^ 32) :
    (v * v').toNat = v.toNat * v'.toNat := by
  rw [BitVec.toNat_mul, Nat.mod_eq_of_lt (mul_lt_of_halves hv hv')]

theorem toNat_cross (h : v.toNat / 2 ^ 32 = 0 ∨ v'.toNat / 2 ^ 32 = 0) :
    (v >>> 32 * (0xFFFFFFFF#64 &&& v') + (0xFFFFFFFF#64 &&& v) * v' >>> 32).toNat =
      v.toNat / 2 ^ 32 * (v'.toNat % 2 ^ 32) +
        v.toNat % 2 ^ 32 * (v'.toNat / 2 ^ 32) := by
  rw [BitVec.toNat_add, toNat_mul_of_lt (by rw [toNat_high]; omega) (by rw [toNat_low]; omega),
    toNat_mul_of_lt (by rw [toNat_low]; omega) (by rw [toNat_high]; omega), toNat_high, toNat_high,
    toNat_low, toNat_low]
  apply Nat.mod_eq_of_lt
  rcases h with h | h
  · rw [h, Nat.zero_mul, Nat.zero_add]
    exact mul_lt_of_halves (by omega) (by omega)
  · rw [h, Nat.mul_zero]
    exact mul_lt_of_halves (by omega) (by omega)

theorem mulMagnitudes_spec (v v' : BitVec 64) :
    (∃ r, mulMagnitudes v v' = some r ∧ r.toNat = v.toNat * v'.toNat) ∨
      (mulMagnitudes v v' = none ∧ 2 ^ 64 ≤ v.toNat * v'.toNat) := by
  have hhalves := mul_halves v.toNat v'.toNat
  have hlow : ((0xFFFFFFFF#64 &&& v) * (0xFFFFFFFF#64 &&& v')).toNat =
      v.toNat % 2 ^ 32 * (v'.toNat % 2 ^ 32) := by
    rw [toNat_mul_of_lt (by rw [toNat_low]; omega) (by rw [toNat_low]; omega), toNat_low, toNat_low]
  have hhigh (w : BitVec 64) : w >>> 32 ≠ 0 ↔ w.toNat / 2 ^ 32 ≠ 0 := by
    rw [← toNat_high]
    exact not_congr BitVec.toNat_inj.symm
  unfold mulMagnitudes
  by_cases hboth : v >>> 32 ≠ 0 ∧ v' >>> 32 ≠ 0
  · rw [if_pos hboth]
    rw [hhigh, hhigh] at hboth
    have hpos := Nat.mul_le_mul (Nat.one_le_iff_ne_zero.mpr hboth.1)
      (Nat.one_le_iff_ne_zero.mpr hboth.2)
    exact .inr ⟨rfl, by omega⟩
  rw [if_neg hboth]
  rw [hhigh, hhigh] at hboth
  have hshort : v.toNat / 2 ^ 32 = 0 ∨ v'.toNat / 2 ^ 32 = 0 := by omega
  have hzero : v.toNat / 2 ^ 32 * (v'.toNat / 2 ^ 32) = 0 := Nat.mul_eq_zero.mpr hshort
  have hcross := toNat_cross hshort
  generalize v >>> 32 * (0xFFFFFFFF#64 &&& v') + (0xFFFFFFFF#64 &&& v) * v' >>> 32 = cross at *
  generalize (0xFFFFFFFF#64 &&& v) * (0xFFFFFFFF#64 &&& v') = low at *
  have hmax : (0xFFFFFFFF#64).toNat = 4294967295 := rfl
  by_cases hlarge : BitVec.ult 0xFFFFFFFF#64 cross = true
  · rw [if_pos hlarge]
    rw [BitVec.ult_iff_toNat_lt] at hlarge
    exact .inr ⟨rfl, by omega⟩
  rw [if_neg hlarge]
  rw [BitVec.ult_iff_toNat_lt] at hlarge
  have hshift := toNat_shift cross
  have hadd := BitVec.toNat_add (cross <<< 32) low
  by_cases hsum : testIfSumOverflowsUll (cross <<< 32) low = true
  · rw [if_pos hsum]
    rw [testIfSumOverflowsUll_iff] at hsum
    exact .inr ⟨rfl, by omega⟩
  · rw [if_neg hsum]
    rw [testIfSumOverflowsUll_iff] at hsum
    exact .inl ⟨_, rfl, by omega⟩

theorem returns_negative_product_iff : Returns u (signed true v.toNat)
    (if (longlongMin + 1).ult v then .overflow else checkIntegerOverflow u (-v) false) ↔
      v.toNat ≠ 9223372036854775809 := by
  have hbound : (longlongMin + 1).toNat = 9223372036854775809 := by decide
  by_cases hle : v.toNat ≤ 2 ^ 63
  · rw [if_neg (by rw [BitVec.ult_iff_toNat_lt]; omega)]
    exact iff_of_true (returns_checkIntegerOverflow (valueOf_neg hle)) (by omega)
  have hlow : signed true v.toNat < -2 ^ 63 := by
    rw [signed, if_pos rfl]
    omega
  by_cases heq : v.toNat = 9223372036854775809
  · obtain rfl : v = longlongMin + 1 := BitVec.toNat_inj.mp (heq.trans hbound.symm)
    refine iff_of_false (fun hreturns => ?_) (fun hne => hne hbound)
    have hoverflow : checkIntegerOverflow u (-(longlongMin + 1)) false = .overflow :=
      hreturns.2 (not_representable_of_lt hlow u)
    cases u <;> exact absurd hoverflow (by decide)
  · rw [if_pos (by rw [BitVec.ult_iff_toNat_lt]; omega)]
    exact iff_of_true (returns_overflow_of_lt hlow) heq

theorem returns_mulIntOp_iff (ha : a.nullValue = false) (hb : b.nullValue = false) :
    Returns u (a.value * b.value) (mulIntOp u a b) ↔
      a.value * b.value ≠ -9223372036854775809 := by
  rw [a.value_eq, b.value_eq, signed_mul, mulIntOp, ha, hb, Bool.or_self]
  generalize (a.negative != b.negative) = negative
  rcases mulMagnitudes_spec a.magnitude b.magnitude with ⟨r, hr, hvalue⟩ | ⟨hnone, hlarge⟩
  · rw [hr, ← hvalue]
    cases negative with
    | false =>
      refine iff_of_true (returns_checkIntegerOverflow (valueOf_true_eq_signed r)) ?_
      rw [signed, if_neg Bool.false_ne_true]
      omega
    | true =>
      refine returns_negative_product_iff.trans (not_congr ?_)
      rw [signed, if_pos rfl]
      omega
  · rw [hnone]
    generalize a.magnitude.toNat * b.magnitude.toNat = n at *
    cases negative with
    | false =>
      rw [signed, if_neg Bool.false_ne_true]
      exact iff_of_true (returns_overflow_of_le (by omega)) (by omega)
    | true =>
      rw [signed, if_pos rfl]
      exact iff_of_true (returns_overflow_of_lt (by omega)) (by omega)

/-! ## Division -/

theorem signed_tdiv : (signed n k).tdiv (signed n' l) = signed (n != n') (k / l) := by
  cases n <;> cases n' <;> simp [signed, Int.neg_tdiv, Int.tdiv_neg]

theorem signed_tmod : (signed n k).tmod (signed n' l) = signed n (k % l) := by
  have hmod := Int.ofNat_tmod k l
  cases n <;> cases n' <;> simp [signed, Int.neg_tmod, Int.tmod_neg, hmod]

theorem returns_negative_quotient_iff : Returns u (signed true v.toNat)
    (if longlongMax.ult v then .overflow else checkIntegerOverflow u (-v) false) ↔
      ¬ (u = false ∧ v.toNat = 2 ^ 63) := by
  by_cases hle : 2 ^ 63 ≤ v.toNat
  · rw [if_pos ((longlongMax_ult_iff v).mpr hle), signed, if_pos rfl]
    by_cases hlow : u = false ∧ v.toNat = 2 ^ 63
    · obtain ⟨rfl, heq⟩ := hlow
      refine iff_of_false (fun hreturns => ?_) (fun hnot => hnot ⟨rfl, heq⟩)
      obtain ⟨w, hw, -⟩ := hreturns.1 (by rw [Representable, if_neg Bool.false_ne_true]; omega)
      exact IntResult.noConfusion hw
    · refine iff_of_true (returns_overflow ?_) hlow
      unfold Representable
      cases u with
      | false =>
        have hne : v.toNat ≠ 2 ^ 63 := fun heq => hlow ⟨rfl, heq⟩
        rw [if_neg Bool.false_ne_true]
        omega
      | true =>
        rw [if_pos rfl]
        omega
  · rw [if_neg (mt (longlongMax_ult_iff v).mp hle)]
    exact iff_of_true (returns_checkIntegerOverflow (valueOf_neg (by omega))) (by omega)

theorem divisor_ne_zero (h : b.value ≠ 0) : (b.val == 0) = false := by
  rw [beq_eq_false_iff_ne]
  intro hzero
  apply h
  rw [Arg.value, hzero]
  cases b.unsignedFlag <;> rfl

theorem returns_intDivValInt_iff (ha : a.nullValue = false) (hb : b.nullValue = false)
    (hzero : b.value ≠ 0) :
    Returns u (a.value.tdiv b.value) (intDivValInt u a b) ↔
      ¬ (u = false ∧ a.value.tdiv b.value = -2 ^ 63) := by
  rw [intDivValInt, ha, hb, divisor_ne_zero hzero, Bool.or_self, Bool.or_self,
    a.value_eq, b.value_eq, signed_tdiv, ← BitVec.toNat_udiv]
  generalize a.magnitude / b.magnitude = r
  generalize (a.negative != b.negative) = negative
  cases negative with
  | false =>
    refine iff_of_true (returns_checkIntegerOverflow (valueOf_true_eq_signed r)) ?_
    rw [signed, if_neg Bool.false_ne_true]
    omega
  | true =>
    refine returns_negative_quotient_iff.trans (not_congr (and_congr_right fun _ => ?_))
    rw [signed, if_pos rfl]
    omega

theorem returns_modIntOp (ha : a.nullValue = false) (hb : b.nullValue = false)
    (hzero : b.value ≠ 0) : Returns u (a.value.tmod b.value) (modIntOp u a b) := by
  rw [modIntOp, ha, hb, divisor_ne_zero hzero, Bool.or_self, Bool.or_self,
    a.value_eq, b.value_eq, signed_tmod]
  apply returns_checkIntegerOverflow
  cases hneg : a.negative with
  | false => rfl
  | true =>
    have hle := a.magnitude_of_negative hneg
    have hmod := Nat.mod_le a.magnitude.toNat b.magnitude.toNat
    rw [← BitVec.toNat_umod] at hmod
    exact valueOf_neg (by omega)

/-- Multiplication and division are right but for the product `-2^63 - 1`, and for the quotient
`-2^63` of a signed item. -/
theorem returns_mulIntOp_intDivValInt_modIntOp_iff (u u0 u1 : Bool) (v0 v1 : BitVec 64) :
    let a : Arg := ⟨v0, u0, false⟩
    let b : Arg := ⟨v1, u1, false⟩
    (Returns u (a.value * b.value) (mulIntOp u a b) ∧
        (b.value ≠ 0 → Returns u (a.value.tdiv b.value) (intDivValInt u a b) ∧
          Returns u (a.value.tmod b.value) (modIntOp u a b))) ↔
      a.value * b.value ≠ -9223372036854775809 ∧
        (b.value ≠ 0 → ¬ (u = false ∧ a.value.tdiv b.value = -9223372036854775808)) := by
  refine and_congr (returns_mulIntOp_iff rfl rfl) (forall_congr' fun hzero => ?_)
  rw [returns_intDivValInt_iff rfl rfl hzero]
  exact and_iff_left (returns_modIntOp rfl rfl hzero)

/-- `-3 * 3074457345618258603` is positive, and `LONGLONG_MIN DIV 1` is an error. -/
theorem mulIntOp_intDivValInt_wrong :
    (mulIntOp false ⟨-3, false, false⟩ ⟨3074457345618258603, false, false⟩ = .value longlongMax ∧
        valueOf false (-3) * valueOf false 3074457345618258603 = -9223372036854775809) ∧
      intDivValInt false ⟨longlongMin, false, false⟩ ⟨1, false, false⟩ = .overflow ∧
      (valueOf false longlongMin).tdiv (valueOf false 1) = valueOf false longlongMin := by
  decide

end MySQL.Sql.Item
