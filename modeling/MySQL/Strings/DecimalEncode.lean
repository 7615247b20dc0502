import MySQL.Strings.DecimalValue

/-!
# The bytes of a fixed-point number

`decimal2bin` stores a number that fits as one numeral for the integer part, one for each full
word of the fraction and one for the digits of the fraction that are left over.  The bytes of
a negative number are complemented, and the first bit is inverted.
-/

namespace MySQL.Strings.Decimal

open Lib List

variable {d : Decimal} {i j k n u w P S : ℕ} {l us fw rest : List ℕ} {mask : BitVec 32}

/-! ## Storing a word -/

def masked (m : Byte) (l : List ℕ) : List Byte := l.map fun b => BitVec.ofNat 8 b ^^^ m

@[simp] theorem masked_append (m : Byte) (l l' : List ℕ) :
    masked m (l ++ l') = masked m l ++ masked m l' := map_append

@[simp] theorem masked_nil (m : Byte) : masked m [] = [] := rfl

@[simp] theorem length_masked (m : Byte) (l : List ℕ) : (masked m l).length = l.length :=
  length_map _

theorem masked_replicate (m : Byte) (k : ℕ) : masked m (replicate k 0) = replicate k m := by
  simp [masked]

/-- The mask of `decimal2bin`. -/
def IsMask (mask : BitVec 32) : Prop := mask = 0 ∨ mask = -1

theorem IsMask.extract (h : IsMask mask) (hi : i + 8 ≤ 32) :
    mask.extractLsb' i 8 = mask.truncate 8 := by
  rcases h with rfl | rfl
  · simp
  · rw [show (-1 : BitVec 32) = BitVec.allOnes 32 from rfl]
    ext b hb
    simp only [BitVec.getElem_extractLsb', BitVec.getLsbD_allOnes, BitVec.truncate_eq_setWidth,
      BitVec.getElem_setWidth]
    grind

theorem miIntStore_xor (h : IsMask mask) (hn : n ≤ 4) (x : ℕ) :
    miIntStore n (BitVec.ofNat 32 x ^^^ mask) =
      masked (mask.truncate 8) (bigEndian 256 n x) := by
  rw [bigEndian_eq_map, masked, List.map_map]
  refine map_congr_left fun k hk => ?_
  have hbyte : (BitVec.ofNat 32 x).extractLsb' (8 * (n - 1 - k)) 8 =
      BitVec.ofNat 8 (x / 256 ^ (n - 1 - k) % 256) := by
    obtain ⟨m, hm⟩ : ∃ m, m = n - 1 - k := ⟨_, rfl⟩
    have hm3 : m ≤ 3 := by omega
    apply BitVec.eq_of_toNat_eq
    rw [← hm, BitVec.extractLsb'_toNat, BitVec.toNat_ofNat, BitVec.toNat_ofNat]
    interval_cases m <;> omega
  rw [BitVec.extractLsb'_xor, h.extract (by omega), hbyte, Function.comp_apply]

theorem storeWords_eq (h : IsMask mask) (l : List ℕ) :
    storeWords mask l = masked (mask.truncate 8) (l.flatMap (bigEndian 256 4)) := by
  induction l with
  | nil => rfl
  | cons w l ih =>
    rw [storeWords, flatMap_cons, flatMap_cons, masked_append, ← ih,
      miIntStore_xor h le_rfl]
    rfl

/-! ## The integer part -/

theorem digitBytes_eq (n : ℕ) (hj : j ≤ 8) :
    digitBytes (9 * n + j + 1) = dig2bytes (j + 1) + 4 * n := by
  unfold digitBytes digPerDec1
  rcases Nat.lt_or_eq_of_le hj with hj | rfl
  · rw [show (9 * n + j + 1) % 9 = j + 1 by omega]
    omega
  · rw [show (9 * n + 8 + 1) % 9 = 0 by omega]
    simp only [dig2bytes]
    simp
    omega

theorem pow_le_dig2bytes (hj : j ≤ 9) : 10 ^ j ≤ 256 ^ dig2bytes j := by
  interval_cases j <;> decide

theorem two_mul_pow_lt_dig2bytes (hpos : 0 < j) (hj : j ≤ 9) : 2 * 10 ^ j < 256 ^ dig2bytes j := by
  interval_cases j <;> decide

theorem dig2bytes_mono (h : i ≤ j) (hj : j ≤ 9) : dig2bytes i ≤ dig2bytes j := by
  interval_cases j <;> interval_cases i <;> decide

theorem digitBytes_mono (h : k ≤ n) : digitBytes k ≤ digitBytes n := by
  have hk : dig2bytes (k % 9) ≤ 4 := dig2bytes_mono (by omega) le_rfl
  unfold digitBytes digPerDec1
  rcases Nat.lt_or_eq_of_le (Nat.div_le_div_right h : k / 9 ≤ n / 9) with hlt | heq
  · omega
  · have hmono := dig2bytes_mono (i := k % 9) (j := n % 9) (by omega) (by omega)
    omega

/-- The words of a number of `k` digits that are stored in four bytes. -/
def fullWords (k u : ℕ) (us : List ℕ) : List ℕ := if k % 9 = 0 then u :: us else us

theorem Leads.length_fullWords (h : Leads k u us) : (fullWords k u us).length = k / 9 := by
  obtain ⟨j, hj, rfl, -⟩ := h
  unfold fullWords
  split
  · rw [length_cons]
    omega
  · omega

theorem Leads.bytes_eq (h : Leads k u us) (hus : ∀ w ∈ us, w < digBase) :
    (if k % 9 = 0 then [] else bigEndian 256 (dig2bytes (k % 9)) (u % powers10 (k % 9))) ++
        (fullWords k u us).flatMap (bigEndian 256 4) =
      bigEndian 256 (digitBytes k) (evalDigits (256 ^ 4) (u :: us)) := by
  have hus' : ∀ w ∈ us, w < 256 ^ 4 := fun w hw => (hus w hw).trans (by decide)
  obtain ⟨j, hj, rfl, hle, hlt⟩ := h
  rw [digitBytes_eq _ hj, evalDigits_cons, bigEndian_evalDigits (by decide) hus']
  unfold fullWords powers10
  rcases Nat.lt_or_eq_of_le hj with hj | rfl
  · rw [if_neg (by omega), if_neg (by omega), show (9 * us.length + j + 1) % 9 = j + 1 by omega,
      Nat.mod_eq_of_lt hlt]
  · rw [if_pos (by omega), if_pos (by omega)]
    rfl

theorem Leads.lt (h : Leads k u us) (hus : ∀ w ∈ us, w < digBase) :
    2 * evalDigits (256 ^ 4) (u :: us) < 256 ^ digitBytes k := by
  have hus' : ∀ w ∈ us, w < 256 ^ 4 := fun w hw => (hus w hw).trans (by decide)
  obtain ⟨j, hj, rfl, hle, hlt⟩ := h
  have hj' := two_mul_pow_lt_dig2bytes (j := j + 1) (by omega) (by omega)
  have hu : 2 * (u + 1) ≤ 256 ^ dig2bytes (j + 1) := by omega
  have htail := evalDigits_lt hus'
  have hmul := Nat.mul_le_mul_right ((256 ^ 4) ^ us.length) hu
  rw [digitBytes_eq _ hj, evalDigits_cons, pow_add, pow_mul]
  rw [Nat.mul_assoc, Nat.add_mul] at hmul
  omega

/-! ## The fraction -/

/-- The full words of a fraction of `S` digits. -/
def fracFields (S : ℕ) (fw : List ℕ) : List ℕ := (List.range (S / 9)).map fun k => fw.getD k 0

def fracTail (S : ℕ) (fw : List ℕ) : ℕ := fw.getD (S / 9) 0 / 10 ^ (9 - S % 9)

def fracBytes (S : ℕ) (fw : List ℕ) : List ℕ :=
  (fracFields S fw).flatMap (bigEndian 256 4) ++
    bigEndian 256 (dig2bytes (S % 9)) (fracTail S fw)

theorem fracFields_of_le (h : fw.length ≤ S / 9) :
    fracFields S fw = fw ++ replicate (S / 9 - fw.length) 0 := by
  refine ext_getElem (by simp [fracFields]; omega) fun k hk hk' => ?_
  simp only [fracFields, getElem_map, getElem_range]
  by_cases hlt : k < fw.length
  · rw [getD_eq_getElem _ _ hlt, getElem_append_left hlt]
  · rw [getD_eq_default _ _ (not_lt.mp hlt), getElem_append_right (not_lt.mp hlt),
      getElem_replicate]

theorem fracFields_of_ge (h : S / 9 ≤ fw.length) : fracFields S fw = fw.take (S / 9) := by
  refine ext_getElem (by simp [fracFields]; omega) fun k hk hk' => ?_
  simp only [fracFields, getElem_map, getElem_range, getElem_take]
  rw [getD_eq_getElem]

theorem flatMap_replicate_zero (k : ℕ) :
    (replicate k 0).flatMap (bigEndian 256 4) = replicate (4 * k) 0 := by
  induction k with
  | zero => rfl
  | succ k ih =>
    rw [replicate_succ, flatMap_cons, ih, bigEndian_zero, Nat.mul_succ, Nat.add_comm,
      replicate_append_replicate]

theorem fracBytes_of_le (h : fw.length ≤ S / 9) : fracBytes S fw =
    fw.flatMap (bigEndian 256 4) ++ replicate (digitBytes S - 4 * fw.length) 0 := by
  have htail : fracTail S fw = 0 := by
    rw [fracTail, getD_eq_default _ _ h, Nat.zero_div]
  rw [fracBytes, htail, bigEndian_zero, fracFields_of_le h, flatMap_append,
    flatMap_replicate_zero, append_assoc, replicate_append_replicate]
  congr 2
  unfold digitBytes digPerDec1
  omega

/-! ## The last group -/

def tailBytes (frac0 frac0x frac1 frac1x w : ℕ) : List ℕ :=
  if frac1x = 0 then []
  else
    bigEndian 256 (dig2bytes frac1x) (w / powers10 (digPerDec1 - widenTail (dig2bytes frac1x)
      (if frac1 < frac0 then digPerDec1 else frac0x) digPerDec1 frac1x))

theorem storeTail_eq (h : IsMask mask) {frac0 frac0x frac1 frac1x : ℕ} (hx : frac1x ≤ 9) :
    storeTail mask frac0 frac0x frac1 frac1x w =
      masked (mask.truncate 8) (tailBytes frac0 frac0x frac1 frac1x w) := by
  unfold storeTail tailBytes
  split
  · rfl
  · exact miIntStore_xor h (dig2bytes_mono hx le_rfl) _

theorem storeHead_eq (h : IsMask mask) (hx : i ≤ 9) : storeHead mask i w =
    masked (mask.truncate 8)
      (if i = 0 then [] else bigEndian 256 (dig2bytes i) (w % powers10 i)) := by
  unfold storeHead
  split
  · rfl
  · exact miIntStore_xor h (dig2bytes_mono hx le_rfl) _

theorem widenTail_eq (h : i ≤ j) (hj : j ≤ 9) (heq : ∀ k, i ≤ k → k < j → dig2bytes k = n)
    (hfuel : j - i ≤ w) : widenTail n j w i = j := by
  induction w generalizing i with
  | zero =>
    rw [widenTail]
    omega
  | succ w ih =>
    rw [widenTail]
    rcases Nat.lt_or_eq_of_le h with hlt | rfl
    · rw [if_pos ⟨hlt, heq i le_rfl hlt⟩]
      exact ih hlt (fun k hk hkj => heq k (by omega) hkj) (by omega)
    · rw [if_neg (by omega)]

theorem tailBytes_zero {frac0 frac0x frac1 : ℕ} : tailBytes frac0 frac0x frac1 0 w = [] := rfl

theorem tailBytes_same (hi : 0 < i) (hij : i ≤ S % 9) (heq : dig2bytes i = dig2bytes (S % 9)) :
    tailBytes (S / 9) (S % 9) (S / 9) i w =
      bigEndian 256 (dig2bytes (S % 9)) (w / 10 ^ (9 - S % 9)) := by
  have hwiden : widenTail (dig2bytes i) (S % 9) 9 i = S % 9 := by
    refine widenTail_eq hij (by omega) (fun k hik hkS => ?_) (by omega)
    have hlow := dig2bytes_mono hik (by omega)
    have hhigh := dig2bytes_mono hkS.le (by omega)
    omega
  unfold tailBytes powers10 digPerDec1
  rw [if_neg hi.ne', if_neg (lt_irrefl _), hwiden, heq]

theorem tailBytes_wide (hi : i < 9) (hfour : dig2bytes i = 4) (hlt : k < n) :
    tailBytes n j k i w = bigEndian 256 4 w := by
  have hwiden : widenTail (dig2bytes i) 9 9 i = 9 := by
    refine widenTail_eq hi.le le_rfl (fun k hik hk => ?_) (by omega)
    have hlow := dig2bytes_mono hik hk.le
    have hhigh : dig2bytes k ≤ 4 := dig2bytes_mono hk.le le_rfl
    omega
  have hne : i ≠ 0 := by
    rintro rfl
    exact absurd hfour (by decide)
  unfold tailBytes powers10 digPerDec1
  rw [if_neg hne, if_pos hlt, hwiden, hfour, pow_zero, Nat.div_one]

theorem fracPlan_bytes {f g gx fsize : ℕ} (hf : f ≤ S) (hlen : fw.length = roundUp f)
    (hplan : fracPlan (S / 9) (S % 9) (f / 9) (f % 9) = (g, gx, fsize)) :
    g ≤ fw.length ∧ (gx ≠ 0 → g < fw.length) ∧ gx ≤ 9 ∧
      (fw.take g).flatMap (bigEndian 256 4) ++ tailBytes (S / 9) (S % 9) g gx (fw.getD g 0) ++
          replicate (min (fsize - digitBytes f) (digitBytes S -
            (4 * g + (tailBytes (S / 9) (S % 9) g gx (fw.getD g 0)).length))) 0 =
        fracBytes S fw := by
  rw [roundUp_eq] at hlen
  have hsize : ¬ S / 9 * 4 + dig2bytes (S % 9) < f / 9 * 4 + dig2bytes (f % 9) :=
    not_lt.mpr (digitBytes_mono hf)
  unfold fracPlan at hplan
  simp only [if_neg hsize] at hplan
  by_cases hfull : f % 9 = 0
  · -- The fraction ends with a full word.
    rw [if_neg (fun h => h.2 hfull)] at hplan
    cases hplan
    rw [if_pos hfull, Nat.add_zero] at hlen
    have hbytes : digitBytes f = 4 * (f / 9) := by
      unfold digitBytes digPerDec1
      rw [hfull]
      simp [dig2bytes, Nat.mul_comm]
    refine ⟨hlen.ge, fun h => absurd hfull h, by omega, ?_⟩
    rw [hfull, tailBytes_zero, append_nil, length_nil, hbytes,
      take_of_length_le hlen.le, fracBytes_of_le (by omega), hlen]
    exact congrArg (_ ++ replicate · 0) (min_self _)
  · rw [if_neg hfull] at hlen
    have hfour : dig2bytes (f % 9) ≤ 4 := dig2bytes_mono (by omega) le_rfl
    by_cases hlt : f / 9 * 4 + dig2bytes (f % 9) < S / 9 * 4 + dig2bytes (S % 9)
    · rw [if_pos ⟨hlt, hfull⟩] at hplan
      by_cases heq : S / 9 = f / 9
      · rw [if_pos heq] at hplan
        cases hplan
        refine ⟨by omega, fun _ => by omega, by omega, ?_⟩
        rw [← heq, tailBytes_same (by omega) le_rfl rfl, fracBytes, fracFields_of_ge (by omega),
          show digitBytes f = S / 9 * 4 + dig2bytes (f % 9) by rw [heq]; rfl,
          Nat.sub_self]
        exact append_nil _
      · rw [if_neg heq] at hplan
        cases hplan
        refine ⟨by omega, fun h => absurd rfl h, by omega, ?_⟩
        rw [tailBytes_zero, append_nil, take_of_length_le (by omega), fracBytes_of_le (by omega),
          hlen]
        refine congrArg (_ ++ replicate · 0) (min_eq_right ?_)
        unfold digitBytes digPerDec1
        omega
    · rw [if_neg (fun h => hlt h.1)] at hplan
      cases hplan
      refine ⟨by omega, fun _ => by omega, by omega, ?_⟩
      have hsame : S / 9 * 4 + dig2bytes (S % 9) = f / 9 * 4 + dig2bytes (f % 9) := by omega
      rw [show digitBytes f = S / 9 * 4 + dig2bytes (S % 9) from hsame.symm, Nat.sub_self,
        Nat.zero_min, replicate_zero, append_nil]
      by_cases heq : f / 9 = S / 9
      · rw [heq, tailBytes_same (by omega) (by omega) (by omega), fracBytes,
          fracFields_of_ge (by omega), fracTail]
      · rw [tailBytes_wide (by omega) (by omega) (by omega), fracBytes_of_le (by omega),
          show digitBytes S = 4 * fw.length by unfold digitBytes digPerDec1; omega, Nat.sub_self,
          replicate_zero, append_nil]
        have hin : f / 9 < fw.length := by omega
        have hsplit : fw.take (f / 9) ++ [fw.getD (f / 9) 0] = fw := by
          rw [getD_eq_getElem _ _ hin, take_append_getElem, take_of_length_le]
          omega
        conv_rhs => rw [← hsplit, flatMap_append, flatMap_singleton]

/-! ## The whole number -/

def signMask (d : Decimal) : BitVec 32 :=
  if d.sign ∧ ¬ d.removeLeadingZeroes.1 + digitBytes d.frac = 0 then -1 else 0

theorem isMask_signMask (d : Decimal) : IsMask d.signMask := by
  unfold signMask IsMask
  split <;> simp

def absBytes (d : Decimal) (P S : ℕ) : List ℕ :=
  bigEndian 256 (digitBytes (P - S)) (evalDigits (256 ^ 4) d.intgWords) ++
    fracBytes S d.fracWords

theorem storeFraction_eq (l full rest : List ℕ) (hmask : IsMask mask) {f g gx fsize isize : ℕ}
    {out : List Byte} (hf : f ≤ S) (hlen : fw.length = roundUp f)
    (hplan : fracPlan (S / 9) (S % 9) (f / 9) (f % 9) = (g, gx, fsize))
    (hout : out = masked (mask.truncate 8) l ++ storeWords mask ((full ++ (fw ++ rest)).take
        (full.length + g)) ++ storeTail mask (S / 9) (S % 9) g gx
          ((full ++ (fw ++ rest)).getD (full.length + g) 0))
    (hisize : l.length + 4 * full.length = isize) :
    out ++ replicate (min (fsize - digitBytes f) (isize + digitBytes S - out.length))
        (mask.truncate 8) =
      masked (mask.truncate 8) (l ++ full.flatMap (bigEndian 256 4) ++ fracBytes S fw) := by
  obtain ⟨hg, hgx, hx9, hbytes⟩ := fracPlan_bytes hf hlen hplan
  have htake : (full ++ (fw ++ rest)).take (full.length + g) = full ++ fw.take g := by
    rw [take_length_add_append, take_append_of_le_length hg]
  have htail : storeTail mask (S / 9) (S % 9) g gx
        ((full ++ (fw ++ rest)).getD (full.length + g) 0) =
      masked (mask.truncate 8) (tailBytes (S / 9) (S % 9) g gx (fw.getD g 0)) := by
    by_cases hzero : gx = 0
    · rw [hzero]
      rfl
    · rw [storeTail_eq hmask hx9, getD_append_right _ _ _ _ (Nat.le_add_right _ _),
        Nat.add_sub_cancel_left, getD_append _ _ _ _ (hgx hzero)]
  rw [htake, htail, storeWords_eq hmask, ← masked_append, ← masked_append] at hout
  have hlength : out.length =
      isize + (4 * g + (tailBytes (S / 9) (S % 9) g gx (fw.getD g 0)).length) := by
    rw [hout, length_masked]
    simp only [length_append, flatMap_append, length_flatMap_bigEndian,
      length_take_of_le hg]
    omega
  rw [hlength, Nat.add_sub_add_left, hout, ← masked_replicate, ← masked_append, ← hbytes]
  simp only [flatMap_append, append_assoc]

theorem decimal2bin_of_fits {buf1 buf2 : List ℕ} {g gx fsize : ℕ} {out : List Byte}
    (hr : d.removeLeadingZeroes = (k, buf1)) (hk : k ≤ P - S) (hfrac : d.frac ≤ S)
    (hplan : fracPlan (S / 9) (S % 9) (d.frac / 9) (d.frac % 9) = (g, gx, fsize))
    (hbuf2 : buf2 = if k + digitBytes d.frac = 0 then [0] else buf1)
    (hout : out = replicate (digitBytes (P - S) - digitBytes k) (d.signMask.truncate 8) ++
      storeHead d.signMask (k % 9) (buf2.headD 0) ++
      storeWords d.signMask ((if k % 9 = 0 then buf2 else buf2.tail).take (k / 9 + g)) ++
      storeTail d.signMask (S / 9) (S % 9) g gx
        ((if k % 9 = 0 then buf2 else buf2.tail).getD (k / 9 + g) 0)) :
    d.decimal2bin P S = (flipFirst (out ++ replicate (min (fsize - digitBytes d.frac)
      (digitBytes (P - S) + digitBytes S - out.length)) (d.signMask.truncate 8)), .ok) := by
  have hsub (x : ℕ) : x - x / 9 * 9 = x % 9 := by omega
  have hsize : ¬ S / 9 * 4 + dig2bytes (S % 9) < d.frac / 9 * 4 + dig2bytes (d.frac % 9) :=
    not_lt.mpr (digitBytes_mono hfrac)
  have hover : ¬ (if k + (d.frac / 9 * 4 + dig2bytes (d.frac % 9)) = 0 then 1 else P - S) < k := by
    split <;> omega
  have hsign : (if d.sign = true ∧ ¬d.removeLeadingZeroes.1 +
      (d.frac / 9 * 4 + dig2bytes (d.frac % 9)) = 0 then -1 else 0 : BitVec 32) = d.signMask := rfl
  rw [hout, hbuf2]
  rw [hr] at hsign
  unfold decimal2bin
  simp only [digPerDec1, hsub, hr, hsign, hplan, if_neg hsize, if_neg hover]
  rfl

theorem digitBytes_eq_zero : digitBytes k = 0 ↔ k = 0 := by
  refine ⟨fun h => ?_, fun h => by rw [h]; rfl⟩
  by_contra hk
  have hle : digitBytes 1 ≤ digitBytes k := digitBytes_mono (by omega)
  rw [h] at hle
  exact absurd hle (by decide)

theorem WellFormed.decimal2bin_eq (h : d.WellFormed) (hfrac : d.frac ≤ S)
    (hint : d.removeLeadingZeroes.1 ≤ P - S) :
    d.decimal2bin P S = (flipFirst (masked (d.signMask.truncate 8) (d.absBytes P S)), .ok) := by
  obtain ⟨rest, hbuf⟩ := d.buf_eq
  obtain ⟨g, gx, fsize, hplan⟩ :
      ∃ g gx fsize, fracPlan (S / 9) (S % 9) (d.frac / 9) (d.frac % 9) = (g, gx, fsize) :=
    ⟨_, _, _, rfl⟩
  have hmask := d.isMask_signMask
  have hlen := h.length_fracWords
  rcases h.removeLeadingZeroes_eq hbuf with ⟨z, hz, hr⟩ | ⟨z, u, us, k, hz, hr, hlead⟩
  · rw [hr] at hint
    -- The number zero is stored from a buffer of its own.
    obtain ⟨rest', hbuf2⟩ : ∃ rest', (if 0 + digitBytes d.frac = 0 then [0] else
        d.fracWords ++ rest) = [] ++ (d.fracWords ++ rest') := by
      split
      case isTrue hzero =>
        have hnil : d.fracWords = [] := by
          rw [Nat.zero_add, digitBytes_eq_zero] at hzero
          rw [fracWords, hzero, roundUp_zero, take_zero]
        exact ⟨[0], by rw [hnil]; rfl⟩
      case isFalse => exact ⟨rest, rfl⟩
    have hint0 : evalDigits (256 ^ 4) d.intgWords = 0 := by
      rw [hz, evalDigits_zeros]
    rw [decimal2bin_of_fits hr hint hfrac hplan hbuf2.symm rfl, absBytes, hint0, bigEndian_zero]
    refine congrArg (fun bytes => (flipFirst bytes, DecError.ok)) ((storeFraction_eq
      (replicate (digitBytes (P - S)) 0) [] rest' hmask hfrac hlen hplan ?_ ?_).trans ?_)
    · rw [masked_replicate]
      simp [storeHead, digitBytes_eq_zero.mpr]
    · simp
    · simp
  · replace hint : k ≤ P - S := by rwa [hr] at hint
    have hpos : k + digitBytes d.frac ≠ 0 := by
      obtain ⟨j, -, rfl, -⟩ := hlead
      omega
    have hus : ∀ w ∈ us, w < digBase := fun w hw =>
      h.words w (mem_append_left _ (by rw [hz]; simp [hw]))
    have hfull : fullWords k u us ++ (d.fracWords ++ rest) =
        if k % 9 = 0 then u :: us ++ (d.fracWords ++ rest) else
          (u :: us ++ (d.fracWords ++ rest)).tail := by
      unfold fullWords
      split <;> rfl
    set head := if k % 9 = 0 then [] else
      bigEndian 256 (dig2bytes (k % 9)) (u % powers10 (k % 9)) with hhead
    have hhead' : storeHead d.signMask (k % 9) u = masked (d.signMask.truncate 8) head :=
      storeHead_eq hmask (by omega)
    have hlt : evalDigits (256 ^ 4) (u :: us) < 256 ^ digitBytes k := by
      have := hlead.lt hus
      omega
    have hbytes := hlead.bytes_eq hus
    rw [← hhead] at hbytes
    have hisize : (replicate (digitBytes (P - S) - digitBytes k) 0 ++ head).length +
        4 * (fullWords k u us).length = digitBytes (P - S) := by
      have hlength := congrArg List.length hbytes
      have hmono := digitBytes_mono hint
      rw [length_append, length_flatMap_bigEndian, length_bigEndian] at hlength
      rw [length_append, length_replicate]
      omega
    rw [decimal2bin_of_fits hr hint hfrac hplan (if_neg hpos).symm rfl, absBytes, hz,
      evalDigits_replicate_append, bigEndian_of_lt (by decide) hlt (digitBytes_mono hint),
      ← hbytes, ← append_assoc (replicate _ 0)]
    refine congrArg (fun bytes => (flipFirst bytes, DecError.ok)) (storeFraction_eq _ _ rest hmask
      hfrac hlen hplan ?_ hisize)
    rw [← hfull, ← hlead.length_fullWords, cons_append, headD_cons, hhead',
      ← masked_replicate, ← masked_append]

end MySQL.Strings.Decimal
