import MySQL.Strings.DecimalDecode

/-!
# Encoding and decoding

The groups that `bin2decimal` reads are those that `decimal2bin` stored, so the number comes
back, up to leading zeros and zeros behind the fraction.
-/

namespace MySQL.Strings.Decimal

open Lib List

variable {d dst : Decimal} {k n w x P S : ℕ} {l us ws : List ℕ} {neg : Bool}

/-! ## Reading a group -/

def maskWord (neg : Bool) : BitVec 32 := if neg then -1 else 0

theorem take_masked_append (m : Byte) (l l' : List ℕ) :
    (masked m (l ++ l')).take l.length = masked m l := by
  rw [masked_append, take_left' (length_masked m l)]

theorem drop_masked_append (m : Byte) (l l' : List ℕ) :
    (masked m (l ++ l')).drop l.length = masked m l' := by
  rw [masked_append, drop_left' (length_masked m l)]

theorem pow_bytes (n : ℕ) : 256 ^ n = 2 ^ (8 * n) := by
  rw [pow_mul]
  norm_num

theorem msb_ofNat_eq_false (hn : 0 < n) (hx : 2 * x < 256 ^ n) :
    (BitVec.ofNat (8 * n) x).msb = false := by
  have hpow := pow_bytes n
  have hhalf : 2 ^ (8 * n) = 2 * 2 ^ (8 * n - 1) := by
    rw [← pow_succ', Nat.sub_add_cancel (by omega)]
  rw [BitVec.msb_eq_decide, BitVec.toNat_ofNat, Nat.mod_eq_of_lt (by omega),
    decide_eq_false_iff_not]
  omega

theorem readGroup_masked (hn : 0 < n) (hn4 : n ≤ 4) (hx : 2 * x < 256 ^ n) :
    readGroup (maskWord neg) n (masked (maskByte neg) (bigEndian 256 n x ++ l)) =
      BitVec.ofNat 32 x := by
  have hlt : ∀ b ∈ bigEndian 256 n x, b < 256 := bigEndian_lt (by decide)
  have heval : evalDigits 256 (bigEndian 256 n x) = x := by
    rw [evalDigits_bigEndian, Nat.mod_eq_of_lt (by omega)]
  have htake : (masked (maskByte neg) (bigEndian 256 n x ++ l)).take n =
      masked (maskByte neg) (bigEndian 256 n x) := by
    have htake := take_masked_append (maskByte neg) (bigEndian 256 n x) l
    rwa [length_bigEndian] at htake
  have hword : (BitVec.ofNat (8 * n) x).signExtend 32 = BitVec.ofNat 32 x := by
    rw [BitVec.signExtend_eq_setWidth_of_msb_false (msb_ofNat_eq_false hn hx)]
    apply BitVec.eq_of_toNat_eq
    have hpow := pow_bytes n
    rw [BitVec.toNat_setWidth, BitVec.toNat_ofNat, BitVec.toNat_ofNat,
      Nat.mod_eq_of_lt (by omega : x < 2 ^ (8 * n))]
  rw [readGroup, miSintKorr, htake]
  cases neg
  · rw [maskByte, if_neg Bool.false_ne_true, toNat_masked_zero hlt, heval, hword]
    exact BitVec.xor_zero
  · have hnot : BitVec.ofNat (8 * n) (256 ^ n - 1 - x) = ~~~ BitVec.ofNat (8 * n) x := by
      apply BitVec.eq_of_toNat_eq
      have hpow := pow_bytes n
      rw [BitVec.toNat_not, BitVec.toNat_ofNat, BitVec.toNat_ofNat, ← hpow,
        Nat.mod_eq_of_lt (by omega : x < 256 ^ n), Nat.mod_eq_of_lt (by omega)]
    have hcompl : evalDigits 256 ((bigEndian 256 n x).map (255 - ·)) = 256 ^ n - 1 - x := by
      have hsum := evalDigits_complement hlt
      rw [heval, length_bigEndian] at hsum
      exact Nat.eq_sub_of_add_eq (Nat.eq_sub_of_add_eq hsum)
    rw [maskByte, if_pos rfl, toNat_masked_ones hlt, hcompl,
      hnot, BitVec.signExtend_not (by omega), hword]
    change ~~~ BitVec.ofNat 32 x ^^^ BitVec.allOnes 32 = _
    rw [BitVec.xor_allOnes, BitVec.not_not]

theorem wordsAt_masked (h : ∀ w ∈ ws, w < digBase) :
    wordsAt (maskWord neg) ws.length
      (masked (maskByte neg) (ws.flatMap (bigEndian 256 4) ++ l)) = ws := by
  induction ws with
  | nil => rfl
  | cons w ws ih =>
    rw [forall_mem_cons] at h
    have hdrop := drop_masked_append (maskByte neg) (bigEndian 256 4 w)
      (ws.flatMap (bigEndian 256 4) ++ l)
    have hword : w < 2 ^ 32 := h.1.trans (by decide)
    rw [length_bigEndian] at hdrop
    rw [length_cons, wordsAt, flatMap_cons, append_assoc, hdrop, ih h.2,
      readGroup_masked (by decide) le_rfl (by unfold digBase at h; omega), BitVec.toNat_ofNat,
      Nat.mod_eq_of_lt hword]

/-! ## The groups of an encoded number -/

theorem WellFormed.exists_intg_groups (h : d.WellFormed) (hint : d.removeLeadingZeroes.1 ≤ P - S) :
    ∃ hd full, full.length = (P - S) / 9 ∧ (∀ w ∈ full, w < digBase) ∧
      hd < 10 ^ ((P - S) % 9) ∧ ∀ B, evalDigits B (hd :: full) = evalDigits B d.intgWords := by
  obtain ⟨rest, hbuf⟩ := d.buf_eq
  rcases h.removeLeadingZeroes_eq hbuf with ⟨z, hz, hr⟩ | ⟨z, u, us, k, hz, hr, j, hj, hk, hle, hlt⟩
  · refine ⟨0, replicate ((P - S) / 9) 0, length_replicate, ?_, by positivity, ?_⟩
    · intro w hw
      rw [(mem_replicate.mp hw).2]
      decide
    · intro B
      rw [hz, evalDigits_cons, evalDigits_zeros, evalDigits_zeros, Nat.zero_mul]
  · rw [hr] at hint
    have hwords : ∀ w ∈ u :: us, w < digBase := fun w hw => h.intgWords_lt w (by rw [hz]; simp [hw])
    by_cases hshort : us.length + 1 ≤ (P - S) / 9
    · refine ⟨0, replicate ((P - S) / 9 - (us.length + 1)) 0 ++ u :: us, ?_, ?_, by positivity,
        ?_⟩
      · simp
        omega
      · refine forall_mem_append.mpr ⟨fun w hw => ?_, hwords⟩
        rw [(mem_replicate.mp hw).2]
        decide
      · intro B
        rw [hz, evalDigits_replicate_append, evalDigits_cons, evalDigits_replicate_append,
          Nat.zero_mul, Nat.zero_add]
    · refine ⟨u, us, by omega, fun w hw => hwords w (mem_cons_of_mem _ hw), ?_, ?_⟩
      · exact hlt.trans_le (Nat.pow_le_pow_right (by decide) (by omega))
      · intro B
        rw [hz, evalDigits_replicate_append]

theorem absBytes_of_groups {hd : ℕ} {full : List ℕ} (hfull : full.length = (P - S) / 9)
    (hlt : ∀ w ∈ full, w < digBase)
    (heval : ∀ B, evalDigits B (hd :: full) = evalDigits B d.intgWords) :
    d.absBytes P S = bigEndian 256 (dig2bytes ((P - S) % 9)) hd ++
      (full.flatMap (bigEndian 256 4) ++ ((fracFields S d.fracWords).flatMap (bigEndian 256 4) ++
        bigEndian 256 (dig2bytes (S % 9)) (fracTail S d.fracWords))) := by
  have hbytes := bigEndian_evalDigits (x := hd) (a := dig2bytes ((P - S) % 9)) (n := 4)
    (B := 256) (by decide) fun w hw => (hlt w hw).trans (by decide)
  have hsize : dig2bytes ((P - S) % 9) + 4 * full.length = digitBytes (P - S) := by
    rw [digitBytes, digPerDec1]
    omega
  rw [hsize, ← evalDigits_cons, heval] at hbytes
  rw [absBytes, hbytes, fracBytes, append_assoc]

theorem groups_masked (neg : Bool) {hd t : ℕ} {full fields : List ℕ}
    (hfull : full.length = (P - S) / 9)
    (hfields : fields.length = S / 9) (hfulllt : ∀ w ∈ full, w < digBase)
    (hfieldslt : ∀ w ∈ fields, w < digBase) (hhd : hd < 10 ^ ((P - S) % 9)) (ht : t < 10 ^ (S % 9))
    (hl : l = bigEndian 256 (dig2bytes ((P - S) % 9)) hd ++
      (full.flatMap (bigEndian 256 4) ++ (fields.flatMap (bigEndian 256 4) ++
        bigEndian 256 (dig2bytes (S % 9)) t))) :
    let g := groups (maskWord neg) (masked (maskByte neg) l) P S
    ((P - S) % 9 ≠ 0 → g.head = BitVec.ofNat 32 hd) ∧ g.full = full ∧ g.fields = fields ∧
      (S % 9 ≠ 0 → g.tail = BitVec.ofNat 32 (t * 10 ^ (9 - S % 9))) := by
  have hgroup {k x : ℕ} (l : List ℕ) (hk : k % 9 ≠ 0) (hx : x < 10 ^ (k % 9)) :
      readGroup (maskWord neg) (dig2bytes (k % 9))
        (masked (maskByte neg) (bigEndian 256 (dig2bytes (k % 9)) x ++ l)) = BitVec.ofNat 32 x := by
    have htwo := two_mul_pow_lt_dig2bytes (j := k % 9) (by omega) (by omega)
    have hpos : 0 < dig2bytes (k % 9) := (by decide : 0 < dig2bytes 1).trans_le
      (dig2bytes_mono (by omega) (by omega))
    exact readGroup_masked hpos (dig2bytes_mono (by omega) le_rfl) (by omega)
  have hdrop₁ := drop_masked_append (maskByte neg) (bigEndian 256 (dig2bytes ((P - S) % 9)) hd)
    (full.flatMap (bigEndian 256 4) ++ (fields.flatMap (bigEndian 256 4) ++
      bigEndian 256 (dig2bytes (S % 9)) t))
  have hdrop₂ := drop_masked_append (maskByte neg) (full.flatMap (bigEndian 256 4))
    (fields.flatMap (bigEndian 256 4) ++ bigEndian 256 (dig2bytes (S % 9)) t)
  have hdrop₃ := drop_masked_append (maskByte neg) (fields.flatMap (bigEndian 256 4))
    (bigEndian 256 (dig2bytes (S % 9)) t)
  rw [← hl, length_bigEndian] at hdrop₁
  rw [length_flatMap_bigEndian, hfull, ← hdrop₁, drop_digitBytes] at hdrop₂
  rw [length_flatMap_bigEndian, hfields, ← hdrop₂, drop_drop] at hdrop₃
  refine ⟨fun hne => ?_, ?_, ?_, fun hne => ?_⟩
  · rw [hl]
    exact hgroup _ hne hhd
  · simp only [groups]
    rw [hdrop₁, ← hfull]
    exact wordsAt_masked hfulllt
  · simp only [groups]
    rw [hdrop₂, ← hfields]
    exact wordsAt_masked hfieldslt
  · have hread := hgroup [] hne ht
    rw [append_nil] at hread
    simp only [groups]
    rw [hdrop₃, hread, powers10]
    apply BitVec.eq_of_toNat_eq
    simp only [BitVec.toNat_mul, BitVec.toNat_ofNat, Nat.mul_mod_mod, Nat.mod_mul_mod]

theorem flipFirst_flipFirst (s : List Byte) : flipFirst (flipFirst s) = s := by
  cases s with
  | nil => rfl
  | cons b s => rw [flipFirst, flipFirst, BitVec.xor_assoc, BitVec.xor_self, BitVec.xor_zero]

theorem maskOf_flipFirst {b : ℕ} (hb : b < 128) :
    maskOf (flipFirst (masked (maskByte neg) (b :: l))) = maskWord neg := by
  have hbit : ∀ b < 128, (BitVec.ofNat 8 b ^^^ maskByte neg ^^^ 0x80#8) &&& 0x80#8 =
      if neg then 0 else 0x80#8 := by
    cases neg <;> decide +kernel
  change (if (BitVec.ofNat 8 b ^^^ maskByte neg ^^^ 0x80#8) &&& 0x80#8 ≠ 0 then _ else _) = _
  rw [hbit b hb]
  cases neg <;> rfl

theorem WellFormed.decode_sign (hP : 0 < P) (h : d.WellFormed) (hfrac : d.frac ≤ S)
    (hint : d.removeLeadingZeroes.1 ≤ P - S) :
    maskOf (d.decimal2bin P S).1 = maskWord d.negative ∧
      flipFirst ((d.decimal2bin P S).1.take (decimalBinSize P S)) =
        masked (maskByte d.negative) (d.absBytes P S) := by
  have hlen := h.length_decimal2bin hfrac hint
  rw [take_of_length_le hlen.le, h.decimal2bin_eq hfrac hint, truncate_signMask]
  refine ⟨?_, flipFirst_flipFirst _⟩
  have hhead := h.head_absBytes_lt hint
  cases hbytes : d.absBytes P S with
  | nil =>
    have hsize := length_absBytes d P S
    have hpos := decimalBinSize_pos (S := S) hP
    rw [hbytes, length_nil] at hsize
    omega
  | cons b l =>
    rw [hbytes] at hhead
    exact maskOf_flipFirst (hhead b rfl)

/-! ## The number that comes back -/

theorem signExtend_ofNat (hx : x < 2 ^ 31) : ((BitVec.ofNat 32 x).signExtend 64).toNat = x := by
  have hmsb : (BitVec.ofNat 32 x).msb = false := by
    rw [BitVec.msb_eq_decide, BitVec.toNat_ofNat, Nat.mod_eq_of_lt (by omega)]
    simpa using hx
  rw [BitVec.signExtend_eq_setWidth_of_msb_false hmsb, BitVec.toNat_setWidth, BitVec.toNat_ofNat]
  omega

theorem evalDigits_skipZeros (B : ℕ) (l : List ℕ) :
    evalDigits B (skipZeros l) = evalDigits B l := by
  induction l with
  | nil => rfl
  | cons w l ih =>
    rw [skipZeros, dropWhile_cons]
    by_cases hw : w = 0
    · rw [evalDigits_cons, hw, Nat.zero_mul, Nat.zero_add]
      exact ih
    · rw [if_neg (by simpa using hw)]

theorem decimal2bin_congr {d' : Decimal} (h : d.WellFormed) (h' : d'.WellFormed)
    (hfrac : d.frac ≤ S) (hfrac' : d'.frac ≤ S) (hint : d.removeLeadingZeroes.1 ≤ P - S)
    (hint' : d'.removeLeadingZeroes.1 ≤ P - S) (habs : d.abs = d'.abs)
    (hneg : d.negative = d'.negative) : d.decimal2bin P S = d'.decimal2bin P S := by
  have hscaled : d.scaled S = d'.scaled S := by
    have hcast : (d.scaled S : ℚ) = d'.scaled S := by
      rw [h.scaled_eq hfrac, h'.scaled_eq hfrac', habs]
    exact_mod_cast hcast
  have hbytes : d.absBytes P S = d'.absBytes P S := by
    apply eq_of_lexCmp_eq
    rw [lexCmp_absBytes h h' hint hint', hscaled, compare_eq_iff_eq]
  rw [h.decimal2bin_eq hfrac hint, h'.decimal2bin_eq hfrac' hint', truncate_signMask,
    truncate_signMask, hneg, hbytes]

/-- The groups of an encoded number, as `bin2decimal` reads them, have the value of the number. -/
structure Groups.Holds (g : Groups) (d : Decimal) (P S : ℕ) : Prop where
  accepted : g.Accepted P S
  head_lt : (P - S) % 9 ≠ 0 → g.head.toNat < 10 ^ ((P - S) % 9)
  intg_eq : evalDigits digBase (g.intgWords P S) = d.intgValue
  fields_eq : g.fields = fracFields S d.fracWords
  tail_eq : S % 9 ≠ 0 → g.tail.toNat = fracTail S d.fracWords * 10 ^ (9 - S % 9)

theorem WellFormed.groupsOf_decimal2bin (hP : 0 < P) (h : d.WellFormed) (hfrac : d.frac ≤ S)
    (hint : d.removeLeadingZeroes.1 ≤ P - S) :
    (groupsOf (d.decimal2bin P S).1 P S).Holds d P S := by
  obtain ⟨hmask, hsrc⟩ := h.decode_sign hP hfrac hint
  obtain ⟨hd, full, hlen, hfull, hhd, heval⟩ := h.exists_intg_groups hint
  have hfields := fracFields_lt (S := S) h.fracWords_lt
  have htail := fracTail_lt (S := S) h.fracWords_lt
  obtain ⟨hhead, hfull', hfields', htail'⟩ := groups_masked d.negative hlen
    length_fracFields hfull hfields hhd htail (absBytes_of_groups hlen hfull heval)
  rw [groupsOf, hmask, hsrc]
  set g := groups (maskWord d.negative) (masked (maskByte d.negative) (d.absBytes P S)) P S
  have hmax {w : ℕ} (hw : w < digBase) : w ≤ digMax := Nat.le_pred_of_lt hw
  have hhd8 : hd < 10 ^ 9 := hhd.trans_le (Nat.pow_le_pow_right (by decide) (by omega))
  have hheadNat (hne : (P - S) % 9 ≠ 0) : g.head.toNat = hd := by
    rw [hhead hne, BitVec.toNat_ofNat]
    omega
  have htailNat (hne : S % 9 ≠ 0) : g.tail.toNat = fracTail S d.fracWords * 10 ^ (9 - S % 9) ∧
      fracTail S d.fracWords * 10 ^ (9 - S % 9) < digBase := by
    have hlt : fracTail S d.fracWords * 10 ^ (9 - S % 9) < 10 ^ (S % 9) * 10 ^ (9 - S % 9) :=
      Nat.mul_lt_mul_of_pos_right htail (by positivity)
    rw [← pow_add, show S % 9 + (9 - S % 9) = 9 by omega] at hlt
    rw [htail' hne, BitVec.toNat_ofNat]
    exact ⟨by omega, hlt⟩
  refine ⟨⟨?_, ?_, ?_, ?_⟩, ?_, ?_, hfields', fun hne => (htailNat hne).1⟩
  · intro hne
    rw [hhead hne, signExtend_ofNat (by omega)]
    exact hhd.trans (Nat.pow_lt_pow_right (by decide) (Nat.lt_succ_self _))
  · rw [hfull']
    exact fun w hw => hmax (hfull w hw)
  · rw [hfields']
    exact fun w hw => hmax (hfields w hw)
  · intro hne
    rw [(htailNat hne).1]
    exact hmax (htailNat hne).2
  · intro hne
    rw [hheadNat hne]
    exact hhd
  · have hvalue : evalDigits digBase (hd :: full) = d.intgValue := heval digBase
    by_cases hne : (P - S) % 9 ≠ 0 ∧ g.head ≠ 0
    · rw [(Groups.intg_of_head hne).1, hheadNat hne.1, hfull', hvalue]
    · have hzero : hd = 0 := by
        by_cases hmod : (P - S) % 9 = 0
        · rw [hmod] at hhd
          omega
        · rw [← hheadNat hmod, not_not.mp fun hg => hne ⟨hmod, hg⟩]
          rfl
      rw [hzero, evalDigits_cons, Nat.zero_mul, Nat.zero_add] at hvalue
      rw [(Groups.intg_of_not_head hne).1, evalDigits_skipZeros, hfull', hvalue]

namespace Groups

variable {g : Groups} (sign : Bool) (dst : Decimal)

theorem Holds.toDecimal (h : g.Holds d P S) (hd : d.WellFormed) (hfrac : d.frac ≤ S)
    (hfull : g.full.length = (P - S) / 9) :
    (g.toDecimal sign dst P S).WellFormed ∧ (g.toDecimal sign dst P S).abs = d.abs := by
  have hlen : g.fields.length = S / 9 := by rw [h.fields_eq, length_fracFields]
  obtain ⟨hint, hfw, hlt, hle, hfirst⟩ := h.accepted.stored h.head_lt hfull hlen
  obtain ⟨hdint, hdfrac⟩ := words_of_buf (d := g.toDecimal sign dst P S) rfl hint hfw
  have hwell : (g.toDecimal sign dst P S).WellFormed := by
    refine ⟨?_, by rw [hdint, hdfrac]; exact hlt, by rw [hdint]; exact hfirst, ?_⟩
    · change roundUp (g.intg P S) + roundUp S ≤
        (g.intgWords P S ++ (g.fracWords S ++ _)).length
      rw [length_append, length_append]
      omega
    · rw [hdfrac]
      intro w hw
      change 10 ^ (8 - (S - 1) % 9) ∣ w
      unfold Groups.fracWords at hw
      split at hw
      case isTrue hzero =>
        have hpos : 0 < g.fields.length := length_pos_of_mem (List.mem_of_mem_getLast? hw)
        rw [show 8 - (S - 1) % 9 = 0 by omega]
        exact one_dvd _
      case isFalse hne =>
        rw [List.getLast?_append] at hw
        cases hw
        rw [h.tail_eq hne, show 8 - (S - 1) % 9 = 9 - S % 9 by omega]
        exact Nat.dvd_mul_left _ _
  refine ⟨hwell, ?_⟩
  have hscaled : (g.toDecimal sign dst P S).scaled S = d.scaled S := by
    have hge : S / 9 ≤ (g.fracWords S).length := by
      rw [hfw, roundUp_eq]
      omega
    have htail : fracTail S (g.fracWords S) = fracTail S d.fracWords := by
      by_cases hne : S % 9 = 0
      · have hzero := fracTail_lt (S := S) hd.fracWords_lt
        rw [hne] at hzero
        rw [Groups.fracWords, if_pos hne, fracTail, getD_eq_default _ _ hlen.le, Nat.zero_div]
        omega
      · rw [Groups.fracWords, if_neg hne, fracTail, ← hlen]
        simp [h.tail_eq hne]
    have hfields : fracFields S (g.fracWords S) = fracFields S d.fracWords := by
      rw [fracFields_of_ge hge, ← h.fields_eq, Groups.fracWords, ← hlen]
      split
      · rw [take_length]
      · rw [take_left]
    rw [scaled, scaled, fracScaled, fracScaled, hdfrac, hfields, htail, intgValue, hdint, h.intg_eq]
  have hcast := congrArg (Nat.cast : ℕ → ℚ) hscaled
  rw [hwell.scaled_eq (S := S) le_rfl, hd.scaled_eq hfrac] at hcast
  exact mul_right_cancel₀ (by positivity) hcast

end Groups

theorem makeZero_spec (h : 0 < d.buf.length) : d.makeZero.WellFormed ∧ d.makeZero.abs = 0 := by
  obtain ⟨w, l, hbuf⟩ := exists_cons_of_length_pos h
  have hzero := isRounding_zero (S := 0) false l
  have heq : d.makeZero = ⟨1, 0, false, replicate (roundUp 0 + 1) 0 ++ l⟩ := by
    rw [makeZero, hbuf]
    rfl
  rw [heq]
  exact ⟨hzero.wellFormed, hzero.abs_eq⟩

theorem negative_of_zero (hintg : d.intgValue = 0) (hfrac : d.frac = 0) (h : d.WellFormed) :
    d.negative = false := by
  rw [negative, h.removeLeadingZeroes_eq_zero.mpr hintg, hfrac]
  exact Bool.and_false _

theorem decoded_of_abs {r : Decimal} (h : d.WellFormed) (hr : r.WellFormed) (hfrac : d.frac ≤ S)
    (hrfrac : r.frac ≤ S) (hint : d.removeLeadingZeroes.1 ≤ P - S)
    (hrint : r.removeLeadingZeroes.1 ≤ P - S) (habs : r.abs = d.abs) (hsign : r.sign = d.negative)
    (hneg : r.negative = d.negative) :
    r.WellFormed ∧ r.value = d.value ∧
      ((∀ w ∈ d.intgWords ++ d.fracWords, w = 0) → d.frac = 0 → r.sign = false) ∧
      (r.decimal2bin P S).1 = (d.decimal2bin P S).1 := by
  refine ⟨hr, ?_, ?_, by rw [decimal2bin_congr hr h hrfrac hfrac hrint hint habs hneg]⟩
  · cases hdneg : d.negative
    · rw [h.value_eq_abs hdneg, hr.value_eq_abs (hneg.trans hdneg), habs]
    · have hdsign : d.sign = true := by
        exact (Bool.and_eq_true_iff.mp hdneg).1
      rw [value, value, hsign, hdneg, hdsign, habs]
  · intro hdigits hdfrac
    have hintg : d.intgValue = 0 := by
      rw [intgValue, eq_replicate_of_mem fun w hw => hdigits w (mem_append_left _ hw),
        evalDigits_zeros]
    rw [hsign, negative_of_zero hintg hdfrac h]

/-- Decoding gives the number back. -/
theorem bin2decimal_decimal2bin (dst : Decimal) (hP : 0 < P) (h : d.WellFormed)
    (hfrac : d.frac ≤ S) (hint : d.removeLeadingZeroes.1 ≤ P - S)
    (hdst : decimalSize P S ≤ dst.buf.length) :
    (bin2decimal (d.decimal2bin P S).1 dst P S).2 = .ok ∧
      let r := (bin2decimal (d.decimal2bin P S).1 dst P S).1
      r.WellFormed ∧ r.value = d.value ∧
        ((∀ w ∈ d.intgWords ++ d.fracWords, w = 0) → d.frac = 0 → r.sign = false) ∧
        (r.decimal2bin P S).1 = (d.decimal2bin P S).1 := by
  have hholds := h.groupsOf_decimal2bin hP hfrac hint
  obtain ⟨hmask, -⟩ := h.decode_sign hP hfrac hint
  have hsign : decide (maskOf (d.decimal2bin P S).1 ≠ 0) = d.negative := by
    rw [hmask]
    cases d.negative <;> rfl
  obtain ⟨hint', hfw, -, hle, -⟩ := hholds.accepted.stored hholds.head_lt length_groupsOf.1
    length_groupsOf.2
  obtain ⟨hwell, habs⟩ := hholds.toDecimal d.negative dst h hfrac length_groupsOf.1
  rw [bin2decimal_of_accepted hdst hholds.accepted]
  refine ⟨rfl, ?_⟩
  by_cases hzero : (groupsOf (d.decimal2bin P S).1 P S).intg P S = 0 ∧ S = 0
  · obtain ⟨hintg, rfl⟩ := hzero
    have hdabs : d.abs = 0 := by
      rw [← habs, abs_eq_zero]
      exact ⟨intgValue_eq_zero hintg, fracValue_eq_zero rfl⟩
    have hdneg := negative_of_zero (abs_eq_zero.mp hdabs).1 (Nat.le_zero.mp hfrac) h
    have hpos := (decimalSize_pos hP).trans_le hdst
    rw [accepted_of_zero ⟨hintg, rfl⟩]
    obtain ⟨hzwell, hzabs⟩ := makeZero_spec
      (d := (groupsOf (d.decimal2bin P 0).1 P 0).toDecimal d.negative dst P 0) (by
        simp only [Groups.toDecimal, length_append, length_drop]
        omega)
    have hzint := hzwell.removeLeadingZeroes_eq_zero.mpr (abs_eq_zero.mp hzabs).1
    exact decoded_of_abs h hzwell hfrac le_rfl hint (hzint.trans_le (Nat.zero_le _))
      (hzabs.trans hdabs.symm)
      hdneg.symm (hdneg ▸ rfl)
  · rw [accepted_of_not_zero hzero, hsign]
    refine decoded_of_abs h hwell hfrac le_rfl hint ((removeLeadingZeroes_le _).trans hle) habs
      rfl ?_
    cases hneg : d.negative with
    | false => rfl
    | true =>
      rw [hneg] at hwell habs
      refine decide_eq_true fun hnone => ?_
      -- Nothing but zero without a fraction loses its sign.
      rw [Nat.add_eq_zero_iff, digitBytes_eq_zero, hwell.removeLeadingZeroes_eq_zero] at hnone
      obtain ⟨hintg, rfl⟩ : _ ∧ S = 0 := hnone
      rw [abs_eq_zero.mpr ⟨hintg, fracValue_eq_zero rfl⟩, eq_comm, abs_eq_zero] at habs
      have hdneg := negative_of_zero habs.1 (Nat.le_zero.mp hfrac) h
      rw [hneg] at hdneg
      cases hdneg

/-- The number `-12.34` with leading zeros, as a `DECIMAL(8,4)`. -/
theorem bin2decimal_decimal2bin_leadingZeros :
    let d : Decimal := ⟨12, 2, true, [0, 12, 340000000]⟩
    (bin2decimal (d.decimal2bin 8 4).1 ⟨0, 0, false, [0, 0]⟩ 8 4).1.value = d.value := by
  intro d
  obtain ⟨-, -, hvalue, -⟩ := bin2decimal_decimal2bin (d := d) (P := 8) (S := 4)
    ⟨0, 0, false, [0, 0]⟩ (by decide) (by decide) (by decide) (by decide +kernel) (by decide)
  exact hvalue

end MySQL.Strings.Decimal
