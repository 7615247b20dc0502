import MySQL.Sql.Partition.Walking

/-!
# Linear hashing

A table with one more partition takes the rows of the new partition from a single one.
-/

namespace MySQL.Sql.Partition

variable {n L k fuel : ℕ} {mask m : BitVec 32}

/-- The loop of `set_linear_hash_mask`. -/
def doubleMask (numParts : ℕ) : ℕ → BitVec 32 → Option (BitVec 32)
  | 0, _ => none
  | fuel + 1, mask =>
    if mask.toNat < numParts then doubleMask numParts fuel (mask <<< 1) else some mask

/-- `set_linear_hash_mask`, for so many rounds of its loop. -/
def setLinearHashMask (fuel numParts : ℕ) : Option (BitVec 32) :=
  (doubleMask numParts fuel 1).map (· - 1)

theorem doubleMask_spec (mask : BitVec 32) (hn : n ≤ 2 ^ 31) (hk : k ≤ 31) (hfuel : 31 < k + fuel)
    (hmask : mask.toNat = 2 ^ k) (hlow : ∀ i < k, 2 ^ i < n) :
    ∃ j ≤ 31, ∃ m, doubleMask n fuel mask = some m ∧ m.toNat = 2 ^ j ∧ n ≤ 2 ^ j ∧
      ∀ i < j, 2 ^ i < n := by
  induction fuel generalizing k mask with
  | zero => omega
  | succ fuel ih =>
    rw [doubleMask]
    split_ifs with hlt
    · rw [hmask] at hlt
      have hk' : k < 31 := (Nat.pow_lt_pow_iff_right one_lt_two).mp (hlt.trans_le hn)
      refine ih _ hk' (by omega) ?_ fun i hi => ?_
      · rw [BitVec.toNat_shiftLeft, hmask, Nat.shiftLeft_eq, ← pow_add]
        exact Nat.mod_eq_of_lt (Nat.pow_lt_pow_right one_lt_two (by omega))
      · obtain hi | rfl := Nat.lt_succ_iff_lt_or_eq.mp hi
        · exact hlow i hi
        · exact hlt
    · exact ⟨k, hk, mask, rfl, hmask, by omega, hlow⟩

theorem toNat_sub_one (h : 1 ≤ m.toNat) : (m - 1).toNat = m.toNat - 1 :=
  BitVec.toNat_sub_of_le h

/-- The low bits of a value that a mask takes. -/
theorem and_mask_toNat (v : Longlong) (hk : k ≤ 32) (hmask : mask.toNat = 2 ^ k - 1) :
    (v &&& mask.zeroExtend 64).toNat % 2 ^ 32 = v.toNat % 2 ^ k := by
  have hlt : 2 ^ k ≤ 2 ^ 32 := Nat.pow_le_pow_right two_pos hk
  have hwide : (mask.zeroExtend 64).toNat = 2 ^ k - 1 := by
    rw [BitVec.toNat_setWidth, hmask]
    exact Nat.mod_eq_of_lt (by omega)
  rw [BitVec.toNat_and, hwide, Nat.and_two_pow_sub_one_eq_mod]
  exact Nat.mod_eq_of_lt ((Nat.mod_lt _ (Nat.two_pow_pos k)).trans_le hlt)

theorem halved_mask_toNat (hm : m.toNat = 2 ^ (k + 1)) :
    (((m - 1 + 1) >>> 1) - 1).toNat = 2 ^ k - 1 := by
  have hhalf : (m >>> 1).toNat = 2 ^ k := by
    rw [BitVec.toNat_ushiftRight, hm]
    exact Nat.mul_div_cancel _ two_pos
  rw [BitVec.sub_add_cancel, toNat_sub_one (hhalf ▸ Nat.one_le_two_pow), hhalf]

/-- The partition by the two powers of two that enclose the number of partitions. -/
theorem linearHashPartId_eq (hlow : 2 ^ L ≤ n) (hhigh : n ≤ 2 ^ (L + 1)) (hn : n ≤ 2 ^ 31) :
    ∃ mask, setLinearHashMask 32 n = some mask ∧ ∀ v, linearHashPartId mask n v =
      if v.toNat % 2 ^ (L + 1) < n then v.toNat % 2 ^ (L + 1) else v.toNat % 2 ^ L := by
  obtain ⟨j, hj, m, hm, hpow, hle, hlt⟩ :=
    doubleMask_spec 1 hn (Nat.zero_le 31) (by omega : 31 < 0 + 32) rfl (by omega)
  have hmask : (m - 1).toNat = 2 ^ j - 1 := by
    rw [toNat_sub_one (hpow ▸ Nat.one_le_two_pow), hpow]
  refine ⟨m - 1, by rw [setLinearHashMask, hm]; rfl, fun v => ?_⟩
  rw [linearHashPartId, and_mask_toNat v (by omega) hmask]
  have hjL : j ≤ L + 1 := by
    by_contra hgt
    have := hlt (L + 1) (by omega)
    omega
  obtain rfl | hjL := hjL.eq_or_lt
  · rw [and_mask_toNat v (by omega) (halved_mask_toNat hpow)]
    simp only [← not_lt, ite_not]
  · -- the number of partitions is a power of two
    have hpowle : 2 ^ j ≤ 2 ^ L := Nat.pow_le_pow_right two_pos (by omega)
    obtain rfl : j = L := Nat.pow_right_injective le_rfl (hpowle.antisymm (hlow.trans hle))
    have hmod := Nat.mod_mod_of_dvd v.toNat (pow_dvd_pow 2 (Nat.le_add_right j 1))
    rw [if_neg (by omega)]
    split_ifs with hsmall
    · rw [← hmod, Nat.mod_eq_of_lt (by omega)]
    · rfl

/-- One partition more takes its rows from one partition. -/
theorem linearHash_grow (v : Longlong) (hlow : 2 ^ k ≤ n) (hhigh : n < 2 ^ (k + 1))
    (hn : n < 2 ^ 31) :
    ∃ mask mask', setLinearHashMask 32 n = some mask ∧ setLinearHashMask 32 (n + 1) = some mask' ∧
      linearHashPartId mask n v < n ∧
      (linearHashPartId mask' (n + 1) v ≠ linearHashPartId mask n v →
        linearHashPartId mask n v = n - 2 ^ k ∧ linearHashPartId mask' (n + 1) v = n) := by
  obtain ⟨mask, hmask, hid⟩ := linearHashPartId_eq hlow hhigh.le hn.le
  obtain ⟨mask', hmask', hid'⟩ := linearHashPartId_eq (hlow.trans (Nat.le_succ n)) hhigh hn
  refine ⟨mask, mask', hmask, hmask', ?_⟩
  rw [hid, hid']
  have hmod := Nat.mod_mod_of_dvd v.toNat (pow_dvd_pow 2 (Nat.le_add_right k 1))
  obtain hlt | heq | hgt := Nat.lt_trichotomy (v.toNat % 2 ^ (k + 1)) n
  · rw [if_pos hlt, if_pos (by omega)]
    exact ⟨hlt, fun h => absurd rfl h⟩
  · -- the rows with this remainder are those of the new partition
    rw [if_neg (by omega), if_pos (by omega), ← hmod, heq,
      Nat.mod_eq_sub_mod hlow, Nat.mod_eq_of_lt (by rw [pow_succ] at hhigh; omega)]
    exact ⟨by omega, fun _ => ⟨rfl, rfl⟩⟩
  · rw [if_neg (by omega), if_neg (by omega)]
    exact ⟨by omega, fun h => absurd rfl h⟩

/-- From six to seven partitions, the rows with the remainder `6` leave partition `2`. -/
theorem linearHash_grow_six :
    ∃ mask mask', setLinearHashMask 32 6 = some mask ∧ setLinearHashMask 32 7 = some mask' ∧
      linearHashPartId mask 6 (-2) < 6 ∧
      (linearHashPartId mask' 7 (-2) ≠ linearHashPartId mask 6 (-2) →
        linearHashPartId mask 6 (-2) = 6 - 2 ^ 2 ∧ linearHashPartId mask' 7 (-2) = 6) :=
  linearHash_grow (-2) (by decide) (by decide) (by decide)

end MySQL.Sql.Partition
