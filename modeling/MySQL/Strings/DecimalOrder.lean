import MySQL.Strings.DecimalEncode

/-!
# The order of the encoded numbers

The bytes of two numbers that fit are ordered by `memcmp` as the numbers are: the parts of
a number are numerals of a fixed width, the complement turns the order of the negative
numbers around, and the first bit tells the sign.
-/

namespace MySQL.Strings

open Lib List

/-- `memcmp` of two strings of one length. -/
def memcmp (s t : List Byte) : Ordering := lexCmp (s.map BitVec.toNat) (t.map BitVec.toNat)

namespace Decimal

variable {d d' : Decimal} {j k n u w P S : ℕ} {l l' us ws fw fw' rest : List ℕ}

/-! ## The number in units of the last digit -/

def fracScaled (S : ℕ) (fw : List ℕ) : ℕ :=
  evalDigits digBase (fracFields S fw) * 10 ^ (S % 9) + fracTail S fw

def scaled (d : Decimal) (S : ℕ) : ℕ := d.intgValue * 10 ^ S + fracScaled S d.fracWords

theorem length_fracFields : (fracFields S fw).length = S / 9 := by simp [fracFields]

theorem getD_lt_digBase (h : ∀ w ∈ fw, w < digBase) (k : ℕ) : fw.getD k 0 < digBase := by
  by_cases hk : k < fw.length
  · rw [getD_eq_getElem _ _ hk]
    exact h _ (getElem_mem hk)
  · rw [getD_eq_default _ _ (not_lt.mp hk)]
    decide

theorem fracFields_lt (h : ∀ w ∈ fw, w < digBase) : ∀ w ∈ fracFields S fw, w < digBase := by
  intro w hw
  obtain ⟨k, -, rfl⟩ := List.mem_map.mp hw
  exact getD_lt_digBase h k

theorem fracTail_lt (h : ∀ w ∈ fw, w < digBase) : fracTail S fw < 10 ^ (S % 9) := by
  rw [fracTail, Nat.div_lt_iff_lt_mul (by positivity), ← pow_add,
    show S % 9 + (9 - S % 9) = 9 by omega]
  exact getD_lt_digBase h _

theorem pow_scale (S : ℕ) : 10 ^ S = digBase ^ (S / 9) * 10 ^ (S % 9) := by
  rw [show digBase = 10 ^ 9 by rfl, ← pow_mul, ← pow_add, Nat.div_add_mod]

theorem fracScaled_lt (h : ∀ w ∈ fw, w < digBase) : fracScaled S fw < 10 ^ S := by
  have hfields := evalDigits_lt (fracFields_lt (S := S) h)
  have htail := fracTail_lt (S := S) h
  rw [length_fracFields] at hfields
  have hmul := Nat.mul_le_mul_right (10 ^ (S % 9)) (Nat.succ_le_of_lt hfields)
  rw [Nat.succ_mul, ← pow_scale] at hmul
  unfold fracScaled
  omega

theorem fracScaled_mul {f : ℕ} (hf : f ≤ S) (hlen : fw.length = roundUp f)
    (hlast : ∀ w ∈ fw.getLast?, 10 ^ (8 - (f - 1) % 9) ∣ w) :
    fracScaled S fw * digBase ^ fw.length = evalDigits digBase fw * 10 ^ S := by
  rw [roundUp_eq] at hlen
  rw [fracScaled, pow_scale S]
  by_cases hle : fw.length ≤ S / 9
  · have htail : fracTail S fw = 0 := by
      rw [fracTail, getD_eq_default _ _ hle, Nat.zero_div]
    rw [htail, fracFields_of_le hle, evalDigits_append_zeros, ← Nat.sub_add_cancel hle,
      Nat.add_sub_cancel]
    ring
  · -- The last word is the one that is stored as the last group.
    have hlen' : fw.length = S / 9 + 1 := by
      split at hlen <;> omega
    have hmod : (f - 1) % 9 + 1 ≤ S % 9 := by
      split at hlen <;> omega
    have hin : S / 9 < fw.length := by omega
    have hsplit : fw = fw.take (S / 9) ++ [fw.getD (S / 9) 0] := by
      rw [getD_eq_getElem _ _ hin, take_append_getElem, take_of_length_le hlen'.le]
    have hdvd : 10 ^ (9 - S % 9) ∣ fw.getD (S / 9) 0 := by
      refine (pow_dvd_pow 10 (by omega)).trans (hlast _ ?_)
      rw [Option.mem_def, List.getLast?_eq_getElem?, hlen', Nat.add_sub_cancel,
        getD_eq_getElem _ _ hin, List.getElem?_eq_getElem hin]
    have hbase : digBase = 10 ^ (9 - S % 9) * 10 ^ (S % 9) := by
      rw [← pow_add, show 9 - S % 9 + S % 9 = 9 by omega]
      rfl
    obtain ⟨v, hv⟩ := hdvd
    have heval : evalDigits digBase fw = evalDigits digBase (fw.take (S / 9)) * digBase +
        fw.getD (S / 9) 0 := by
      conv_lhs =>
        rw [hsplit, evalDigits_append, evalDigits_singleton, length_singleton, pow_one]
    rw [fracFields_of_ge hin.le, fracTail, hlen', heval, hv,
      Nat.mul_div_cancel_left _ (by positivity)]
    set E := evalDigits digBase (fw.take (S / 9))
    calc (E * 10 ^ (S % 9) + v) * (digBase ^ (S / 9) * digBase)
        = E * digBase * (digBase ^ (S / 9) * 10 ^ (S % 9)) + v * digBase * digBase ^ (S / 9) := by
          ring
      _ = E * digBase * (digBase ^ (S / 9) * 10 ^ (S % 9)) +
          v * (10 ^ (9 - S % 9) * 10 ^ (S % 9)) * digBase ^ (S / 9) := by rw [← hbase]
      _ = (E * digBase + 10 ^ (9 - S % 9) * v) * (digBase ^ (S / 9) * 10 ^ (S % 9)) := by ring

theorem WellFormed.fracWords_lt (h : d.WellFormed) : ∀ w ∈ d.fracWords, w < digBase :=
  fun w hw => h.words w (mem_append_right _ hw)

theorem WellFormed.intgWords_lt (h : d.WellFormed) : ∀ w ∈ d.intgWords, w < digBase :=
  fun w hw => h.words w (mem_append_left _ hw)

theorem WellFormed.scaled_eq (h : d.WellFormed) (hfrac : d.frac ≤ S) :
    (d.scaled S : ℚ) = d.abs * 10 ^ S := by
  have hmul := fracScaled_mul hfrac h.length_fracWords h.last
  have hmul' : (fracScaled S d.fracWords : ℚ) * digBase ^ d.fracWords.length =
      d.fracValue * 10 ^ S := by exact_mod_cast hmul
  have hne : (digBase : ℚ) ^ d.fracWords.length ≠ 0 := by
    norm_num [digBase]
  rw [scaled, abs, Nat.cast_add, Nat.cast_mul, add_mul, div_mul_eq_mul_div, ← hmul',
    mul_div_cancel_right₀ _ hne]
  norm_num

/-! ## The order of the parts -/

theorem lexCmp_fracBytes (h : ∀ w ∈ fw, w < digBase) (h' : ∀ w ∈ fw', w < digBase) :
    lexCmp (fracBytes S fw) (fracBytes S fw') =
      compare (fracScaled S fw) (fracScaled S fw') := by
  have hword {w : ℕ} (hw : w < digBase) : w < 256 ^ 4 := hw.trans (by decide)
  have htail {fw : List ℕ} (h : ∀ w ∈ fw, w < digBase) :
      fracTail S fw < 256 ^ dig2bytes (S % 9) :=
    (fracTail_lt h).trans_le (pow_le_dig2bytes (by omega))
  rw [fracBytes, fracBytes, lexCmp_append (by simp [length_fracFields]),
    lexCmp_flatMap (by decide) (by simp [length_fracFields])
      (fun w hw => hword (fracFields_lt h w hw)) (fun w hw => hword (fracFields_lt h' w hw)),
    lexCmp_bigEndian (by decide) (htail h) (htail h'), fracScaled, fracScaled,
    compare_mul_add (fracTail_lt h) (fracTail_lt h'),
    compare_evalDigits (by simp [length_fracFields]) (fracFields_lt h) (fracFields_lt h')]

theorem WellFormed.two_mul_lt (h : d.WellFormed) (hint : d.removeLeadingZeroes.1 ≤ P - S) :
    2 * evalDigits (256 ^ 4) d.intgWords < 256 ^ digitBytes (P - S) := by
  obtain ⟨rest, hbuf⟩ := d.buf_eq
  rcases h.removeLeadingZeroes_eq hbuf with ⟨z, hz, -⟩ | ⟨z, u, us, k, hz, hr, hlead⟩
  · rw [hz, evalDigits_zeros]
    positivity
  · rw [hr] at hint
    have hus : ∀ w ∈ us, w < digBase := fun w hw => h.intgWords_lt w (by rw [hz]; simp [hw])
    rw [hz, evalDigits_replicate_append]
    exact (hlead.lt hus).trans_le (Nat.pow_le_pow_right (by decide) (digitBytes_mono hint))

theorem lexCmp_absBytes (h : d.WellFormed) (h' : d'.WellFormed)
    (hint : d.removeLeadingZeroes.1 ≤ P - S) (hint' : d'.removeLeadingZeroes.1 ≤ P - S) :
    lexCmp (d.absBytes P S) (d'.absBytes P S) = compare (d.scaled S) (d'.scaled S) := by
  have hlt := h.two_mul_lt hint
  have hlt' := h'.two_mul_lt hint'
  rw [absBytes, absBytes, lexCmp_append (by simp),
    lexCmp_bigEndian (by decide) (by omega) (by omega),
    lexCmp_fracBytes h.fracWords_lt h'.fracWords_lt, scaled, scaled,
    compare_mul_add (fracScaled_lt h.fracWords_lt) (fracScaled_lt h'.fracWords_lt), intgValue,
    intgValue, compare_evalDigits_base (by decide) (by decide) h.intgWords_lt h'.intgWords_lt]

/-! ## The first byte -/

theorem head_bigEndian_lt (h : 2 * n < 256 ^ k) : ∀ b ∈ (bigEndian 256 k n).head?, b < 128 := by
  intro b hb
  cases k with
  | zero => cases hb
  | succ k =>
    cases hb
    have hdiv : n / 256 ^ k < 128 := by
      rw [Nat.div_lt_iff_lt_mul (by positivity)]
      omega
    exact (Nat.mod_le _ _).trans_lt hdiv

theorem WellFormed.head_absBytes_lt (h : d.WellFormed) (hint : d.removeLeadingZeroes.1 ≤ P - S) :
    ∀ b ∈ (d.absBytes P S).head?, b < 128 := by
  intro b hb
  have hfields := fracFields_lt (S := S) h.fracWords_lt
  have htail := fracTail_lt (S := S) h.fracWords_lt
  simp only [absBytes, fracBytes, List.head?_append, Option.mem_def, Option.or_eq_some_iff] at hb
  rcases hb with hb | ⟨-, hb | ⟨-, hb⟩⟩
  · exact head_bigEndian_lt (h.two_mul_lt hint) b hb
  · cases hf : fracFields S d.fracWords with
    | nil => simp [hf] at hb
    | cons w ws =>
      rw [hf] at hb
      refine head_bigEndian_lt (k := 4) ?_ b hb
      have hw := hfields w (by rw [hf]; exact mem_cons_self)
      norm_num [digBase] at hw ⊢
      omega
  · refine head_bigEndian_lt ?_ b hb
    by_cases hS : S % 9 = 0
    · rw [hS] at hb
      cases hb
    · have htwo := two_mul_pow_lt_dig2bytes (j := S % 9) (by omega) (by omega)
      omega

theorem absBytes_lt (d : Decimal) (P S : ℕ) : ∀ b ∈ d.absBytes P S, b < 256 := by
  simp only [absBytes, fracBytes, mem_append, mem_flatMap]
  rintro b (hb | ⟨w, -, hb⟩ | hb)
  all_goals exact bigEndian_lt (by decide) b hb

@[simp] theorem length_absBytes (d : Decimal) (P S : ℕ) :
    (d.absBytes P S).length = decimalBinSize P S := by
  simp only [absBytes, fracBytes, length_append, length_bigEndian, length_flatMap_bigEndian,
    length_fracFields, decimalBinSize, digitBytes, digPerDec1]
  omega

theorem decimalBinSize_pos (hP : 0 < P) : 0 < decimalBinSize P S := by
  have hleft := digitBytes_eq_zero (k := P - S)
  have hright := digitBytes_eq_zero (k := S)
  unfold decimalBinSize
  omega

/-! ## The sign -/

theorem toNat_masked_zero (h : ∀ b ∈ l, b < 256) : (masked 0#8 l).map BitVec.toNat = l := by
  rw [masked, List.map_map]
  conv_rhs => rw [← List.map_id l]
  refine map_congr_left fun b hb => ?_
  have hb := h b hb
  simp only [Function.comp_apply, BitVec.xor_zero, BitVec.toNat_ofNat, id_eq]
  omega

theorem toNat_masked_ones (h : ∀ b ∈ l, b < 256) :
    (masked 255#8 l).map BitVec.toNat = l.map (255 - ·) := by
  have hbyte : ∀ b < 256, (BitVec.ofNat 8 b ^^^ 255#8).toNat = 255 - b := by decide +kernel
  rw [masked, List.map_map]
  exact map_congr_left fun b hb => hbyte b (h b hb)

@[simp] theorem length_flipFirst (s : List Byte) : (flipFirst s).length = s.length := by
  cases s <;> rfl

theorem toNat_flipFirst {b : ℕ} (hb : b < 128) (h : ∀ b ∈ l, b < 256) :
    (flipFirst (masked 0#8 (b :: l))).map BitVec.toNat = (b + 128) :: l ∧
      (flipFirst (masked 255#8 (b :: l))).map BitVec.toNat =
        (127 - b) :: l.map (255 - ·) := by
  have hfirst : ∀ b < 128, (BitVec.ofNat 8 b ^^^ 0#8 ^^^ 0x80#8).toNat = b + 128 ∧
      (BitVec.ofNat 8 b ^^^ 255#8 ^^^ 0x80#8).toNat = 127 - b := by decide +kernel
  constructor
  · exact congrArg₂ List.cons (hfirst b hb).1 (toNat_masked_zero h)
  · exact congrArg₂ List.cons (hfirst b hb).2 (toNat_masked_ones h)

def signedCmp (neg neg' : Bool) (c : Ordering) : Ordering :=
  match neg, neg' with
  | false, false => c
  | true, true => c.swap
  | true, false => .lt
  | false, true => .gt

def maskByte (neg : Bool) : Byte := if neg then 255#8 else 0#8

theorem memcmp_flipFirst (neg neg' : Bool) (hne : 0 < l.length) (hlen : l.length = l'.length)
    (hl : ∀ b ∈ l, b < 256) (hl' : ∀ b ∈ l', b < 256) (hhead : ∀ b ∈ l.head?, b < 128)
    (hhead' : ∀ b ∈ l'.head?, b < 128) :
    memcmp (flipFirst (masked (maskByte neg) l)) (flipFirst (masked (maskByte neg') l')) =
      signedCmp neg neg' (lexCmp l l') := by
  obtain ⟨b, t, rfl⟩ := exists_cons_of_length_pos hne
  obtain ⟨b', t', rfl⟩ := exists_cons_of_length_pos (hlen ▸ hne)
  have hb := hhead b rfl
  have hb' := hhead' b' rfl
  rw [forall_mem_cons] at hl hl'
  obtain ⟨hpos, hneg⟩ := toNat_flipFirst hb hl.2
  obtain ⟨hpos', hneg'⟩ := toNat_flipFirst hb' hl'.2
  cases neg <;> cases neg' <;> simp only [maskByte, memcmp, signedCmp, if_true, Bool.false_eq_true,
    if_false, hpos, hneg, hpos', hneg', lexCmp]
  · rw [compare_map (add_left_strictMono : StrictMono (· + 128))]
  · rw [compare_gt_iff_gt.mpr (by omega)]
    rfl
  · rw [compare_lt_iff_lt.mpr (by omega)]
    rfl
  · have hrest : lexCmp (t.map (255 - ·)) (t'.map (255 - ·)) = lexCmp t' t :=
      lexCmp_complement (by simpa using hlen) (fun x hx => by have := hl.2 x hx; omega)
        (fun x hx => by have := hl'.2 x hx; omega)
    have hfirst : compare (127 - b) (127 - b') = compare b' b := by
      rcases lt_trichotomy b b' with hlt | rfl | hlt
      · rw [compare_gt_iff_gt.mpr hlt, compare_gt_iff_gt.mpr (by omega)]
      · rw [compare_eq_iff_eq.mpr rfl, compare_eq_iff_eq.mpr rfl]
      · rw [compare_lt_iff_lt.mpr hlt, compare_lt_iff_lt.mpr (by omega)]
    rw [hrest, hfirst, Ordering.swap_then, lexCmp_swap, Nat.compare_swap]

def negative (d : Decimal) : Bool :=
  d.sign && decide (d.removeLeadingZeroes.1 + digitBytes d.frac ≠ 0)

theorem truncate_signMask (d : Decimal) : d.signMask.truncate 8 = maskByte d.negative := by
  unfold signMask negative maskByte
  cases d.sign
  · simp
  · by_cases hzero : d.removeLeadingZeroes.1 + digitBytes d.frac = 0
    · simp [hzero]
    · rw [if_pos ⟨rfl, hzero⟩, decide_eq_true hzero]
      rfl

theorem WellFormed.removeLeadingZeroes_eq_zero (h : d.WellFormed) :
    d.removeLeadingZeroes.1 = 0 ↔ d.intgValue = 0 := by
  obtain ⟨rest, hbuf⟩ := d.buf_eq
  rcases h.removeLeadingZeroes_eq hbuf with ⟨z, hz, hr⟩ | ⟨z, u, us, k, hz, hr, j, -, rfl, hle, -⟩
  · rw [hr, intgValue, hz, evalDigits_zeros]
  · have hu : 0 < u := (Nat.pow_pos (by decide)).trans_le hle
    have hpos : 0 < u * digBase ^ us.length := Nat.mul_pos hu (Nat.pow_pos (by decide))
    rw [hr, intgValue, hz, evalDigits_replicate_append, evalDigits_cons]
    omega

theorem abs_nonneg (d : Decimal) : 0 ≤ d.abs := by
  unfold abs
  positivity

theorem abs_eq_zero : d.abs = 0 ↔ d.intgValue = 0 ∧ d.fracValue = 0 := by
  have hpos : (0 : ℚ) < (digBase : ℚ) ^ d.fracWords.length := by
    norm_num [digBase]
  rw [abs, add_eq_zero_iff_of_nonneg (by positivity) (by positivity), Nat.cast_eq_zero,
    div_eq_zero_iff, Nat.cast_eq_zero, or_iff_left hpos.ne']

theorem WellFormed.value_eq_abs (h : d.WellFormed) (hneg : d.negative = false) :
    d.value = d.abs := by
  unfold negative at hneg
  rw [Bool.and_eq_false_iff, decide_eq_false_iff_not, not_not, Nat.add_eq_zero_iff,
    digitBytes_eq_zero, h.removeLeadingZeroes_eq_zero] at hneg
  rcases hneg with hsign | ⟨hint, hfrac⟩
  · simp [value, hsign]
  · have habs := abs_eq_zero.mpr ⟨hint, fracValue_eq_zero hfrac⟩
    simp [value, habs]

theorem WellFormed.value_eq_neg_abs (h : d.WellFormed) (hneg : d.negative = true)
    (hzero : d.sign = true → d.abs = 0 → d.frac = 0) : d.value = -d.abs ∧ 0 < d.abs := by
  unfold negative at hneg
  rw [Bool.and_eq_true, decide_eq_true_eq, ne_eq, Nat.add_eq_zero_iff, digitBytes_eq_zero,
    h.removeLeadingZeroes_eq_zero] at hneg
  refine ⟨by simp [value, hneg.1], d.abs_nonneg.lt_of_ne fun habs => hneg.2 ?_⟩
  exact ⟨(abs_eq_zero.mp habs.symm).1, hzero hneg.1 habs.symm⟩

theorem WellFormed.compare_scaled (h : d.WellFormed) (h' : d'.WellFormed) (hfrac : d.frac ≤ S)
    (hfrac' : d'.frac ≤ S) : compare (d.scaled S) (d'.scaled S) = compare d.abs d'.abs := by
  have hmono : StrictMono fun q : ℚ => q * 10 ^ S := fun q q' hq =>
    mul_lt_mul_of_pos_right hq (by positivity)
  rw [← compare_map (Nat.strictMono_cast (α := ℚ)), h.scaled_eq hfrac, h'.scaled_eq hfrac']
  exact compare_map hmono _ _

theorem WellFormed.memcmp_decimal2bin (hP : 0 < P) (h : d.WellFormed)
    (h' : d'.WellFormed) (hfrac : d.frac ≤ S) (hfrac' : d'.frac ≤ S)
    (hint : d.removeLeadingZeroes.1 ≤ P - S) (hint' : d'.removeLeadingZeroes.1 ≤ P - S)
    (hzero : d.sign = true → d.abs = 0 → d.frac = 0)
    (hzero' : d'.sign = true → d'.abs = 0 → d'.frac = 0) :
    memcmp (d.decimal2bin P S).1 (d'.decimal2bin P S).1 = compare d.value d'.value := by
  have hpos : 0 < (d.absBytes P S).length := by
    rw [length_absBytes]
    exact decimalBinSize_pos hP
  rw [h.decimal2bin_eq hfrac hint, h'.decimal2bin_eq hfrac' hint', truncate_signMask,
    truncate_signMask, memcmp_flipFirst _ _ hpos (by simp) (absBytes_lt _ _ _)
      (absBytes_lt _ _ _) (h.head_absBytes_lt hint) (h'.head_absBytes_lt hint'),
    lexCmp_absBytes h h' hint hint', h.compare_scaled h' hfrac hfrac']
  cases hneg : d.negative <;> cases hneg' : d'.negative <;> simp only [signedCmp]
  · rw [h.value_eq_abs hneg, h'.value_eq_abs hneg']
  · obtain ⟨hvalue, habs⟩ := h'.value_eq_neg_abs hneg' hzero'
    have hnonneg := d.abs_nonneg
    rw [h.value_eq_abs hneg, compare_gt_iff_gt.mpr (by linarith)]
  · obtain ⟨hvalue, habs⟩ := h.value_eq_neg_abs hneg hzero
    have hnonneg := d'.abs_nonneg
    rw [h'.value_eq_abs hneg', compare_lt_iff_lt.mpr (by linarith)]
  · rw [(h.value_eq_neg_abs hneg hzero).1, (h'.value_eq_neg_abs hneg' hzero').1,
      compare_map_anti fun a b => neg_lt_neg]

end Decimal

end MySQL.Strings
