import MySQL.Lib.RadixFraction
import MySQL.Strings.DecimalTextRoundTrip

/-!
# Comparison

Numbers of one sign are compared by their words, without the zeros in front and behind, and
numbers of different signs by the signs alone.  Zeros with a sign are therefore below zeros
without one.
-/

namespace MySQL.Strings.Decimal

open Lib List

def skipIntgZeros : ℕ → List ℕ → ℕ × List ℕ
  | intg + 1, w :: buf => if w = 0 then skipIntgZeros intg buf else (intg + 1, w :: buf)
  | intg, buf => (intg, buf)

def stripEnd (l : List ℕ) : List ℕ := l.rdropWhile (· == 0)

/-- The loop over equal words, and the carry that the first difference gives, if there is one:
whether the second number is the larger one. -/
def firstDifference : List ℕ → List ℕ → Option Bool
  | [], [] => none
  | _ :: _, [] => some false
  | [], _ :: _ => some true
  | a :: l, b :: l' => if a = b then firstDifference l l' else some (decide (a < b))

/-- `do_sub` with no number to store the difference in. -/
def doSub (from1 from2 : Decimal) : ℤ :=
  let frac1 := roundUp from1.frac
  let frac2 := roundUp from2.frac
  let (intg1, buf1) := skipIntgZeros (roundUp from1.intg) from1.buf
  let (intg2, buf2) := skipIntgZeros (roundUp from2.intg) from2.buf
  let carry :=
    if intg1 < intg2 then some true
    else if intg2 = intg1 then
      firstDifference (stripEnd (buf1.take (intg1 + frac1))) (stripEnd (buf2.take (intg2 + frac2)))
    else some false
  match carry with
  | none => 0
  | some carry => if carry = from1.sign then 1 else -1

/-- `decimal_cmp`. -/
def decimalCmp (from1 from2 : Decimal) : ℤ :=
  if from1.sign = from2.sign then doSub from1 from2
  else if from2.sign < from1.sign then -1 else 1

variable {d d' : Decimal} {k : ℕ} {l l' : List ℕ}

theorem skipIntgZeros_eq (rest : List ℕ) (hlen : l.length = k) :
    ∃ z us, l = replicate z 0 ++ us ∧ us.head? ≠ some 0 ∧
      skipIntgZeros k (l ++ rest) = (us.length, us ++ rest) := by
  induction l generalizing k with
  | nil =>
    subst hlen
    exact ⟨0, [], rfl, by simp, by simp [skipIntgZeros]⟩
  | cons w l ih =>
    subst hlen
    rw [length_cons, cons_append, skipIntgZeros]
    by_cases hw : w = 0
    · obtain ⟨z, us, rfl, hhead, heq⟩ := ih rfl
      exact ⟨z + 1, us, by rw [hw]; rfl, hhead, by rw [if_pos hw, heq]⟩
    · exact ⟨0, w :: l, rfl, by simpa using hw, by rw [if_neg hw]; rfl⟩

theorem stripEnd_eq (l : List ℕ) :
    ∃ z, l = stripEnd l ++ replicate z 0 ∧ (stripEnd l).getLast? ≠ some 0 := by
  induction l using List.reverseRecOn with
  | nil => exact ⟨0, rfl, by simp [stripEnd]⟩
  | append_singleton l w ih =>
    by_cases hw : w = 0
    · obtain ⟨z, hz, hlast⟩ := ih
      rw [stripEnd, rdropWhile_concat_pos _ _ _ (by simp [hw])]
      refine ⟨z + 1, ?_, hlast⟩
      rw [replicate_succ', ← append_assoc, hw]
      exact congrArg (· ++ [0]) hz
    · rw [stripEnd, rdropWhile_concat_neg _ _ _ (by simpa using hw)]
      exact ⟨0, by simp, by simpa using hw⟩

theorem firstDifference_eq (l l' : List ℕ) :
    firstDifference l l' =
      match lexCmp l l' with
      | .eq => none
      | .lt => some true
      | .gt => some false := by
  induction l generalizing l' with
  | nil => cases l' <;> rfl
  | cons a l ih =>
    cases l' with
    | nil => rfl
    | cons b l' =>
      rw [firstDifference, lexCmp]
      rcases lt_trichotomy a b with hab | rfl | hab
      · rw [if_neg hab.ne, compare_lt_iff_lt.mpr hab, decide_eq_true hab]
        rfl
      · rw [if_pos rfl, compare_eq_iff_eq.mpr rfl, ih]
        rfl
      · rw [if_neg hab.ne', compare_gt_iff_gt.mpr hab, decide_eq_false hab.not_gt]
        rfl

/-- The words of the number are in the buffer, and in the range of nine digits. -/
structure Stored (d : Decimal) : Prop where
  length : roundUp d.intg + roundUp d.frac ≤ d.buf.length
  words : ∀ w ∈ d.intgWords ++ d.fracWords, w < digBase

/-- The words that are compared. -/
structure Significant (d : Decimal) (intg : ℕ) (l : List ℕ) : Prop where
  lt : ∀ w ∈ l, w < digBase
  last : l.getLast? ≠ some 0
  abs_eq : d.abs = evalFraction digBase l * digBase ^ intg
  lower : 0 < intg → 1 ≤ evalFraction digBase l * digBase 

theorem Stored.length_fracWords (h : d.Stored) : d.fracWords.length = roundUp d.frac := by
  have hlen := h.length
  rw [fracWords, length_take, length_drop]
  omega

theorem digBase_pos : (0 : ℚ) < digBase := by norm_num [digBase]

theorem Stored.significant (h : d.Stored) :
    ∃ intg buf, skipIntgZeros (roundUp d.intg) d.buf = (intg, buf) ∧
      d.Significant intg (stripEnd (buf.take (intg + roundUp d.frac))) := by
  obtain ⟨rest, hbuf⟩ := d.buf_eq
  have hlen : d.intgWords.length = roundUp d.intg := by
    have := h.length
    rw [intgWords, length_take]
    omega
  obtain ⟨z, us, hiw, hhead, heq⟩ := skipIntgZeros_eq (d.fracWords ++ rest) hlen
  rw [← hbuf] at heq
  have htake : (us ++ (d.fracWords ++ rest)).take (us.length + roundUp d.frac) =
      us ++ d.fracWords := by
    rw [← h.length_fracWords, ← length_append, ← append_assoc, take_left]
  obtain ⟨k, hstrip, hlast⟩ := stripEnd_eq (us ++ d.fracWords)
  have hvalue : evalFraction digBase (stripEnd (us ++ d.fracWords)) =
      evalFraction digBase (us ++ d.fracWords) := by
    rw [← evalFraction_append_zeros (by decide), ← hstrip]
  have hne : (digBase : ℚ) ≠ 0 := digBase_pos.ne'
  refine ⟨us.length, us ++ (d.fracWords ++ rest), heq, ?_⟩
  rw [htake]
  refine ⟨?_, hlast, ?_, ?_⟩
  · intro w hw
    refine h.words w ?_
    have hmem : w ∈ us ++ d.fracWords := by
      rw [hstrip]
      exact mem_append_left _ hw
    rw [hiw]
    simp only [mem_append] at hmem ⊢
    tauto
  · rw [hvalue, abs, intgValue, fracValue, hiw, evalDigits_replicate_append, evalFraction,
      evalDigits_append, length_append, pow_add]
    push_cast
    field_simp
  · intro hpos
    cases us with
    | nil => cases hpos
    | cons u us =>
      have hu : (1 : ℚ) ≤ u := by
        exact_mod_cast Nat.one_le_iff_ne_zero.mpr (by simpa using hhead)
      rw [hvalue, cons_append, evalFraction_cons (by decide), div_mul_cancel₀ _ hne]
      exact hu.trans (le_add_of_nonneg_right evalFraction_nonneg)

theorem Significant.abs_lt {intg intg' : ℕ} (h : d.Significant intg l)
    (h' : d'.Significant intg' l') (hlt : intg < intg') : d.abs < d'.abs := by
  have hone : (1 : ℚ) ≤ digBase := by norm_num [digBase]
  have hpow : (digBase : ℚ) ^ intg' = digBase * digBase ^ (intg' - 1) := by
    rw [← pow_succ', Nat.sub_add_cancel (Nat.one_le_of_lt hlt)]
  calc d.abs = evalFraction digBase l * digBase ^ intg := h.abs_eq
    _ < 1 * digBase ^ intg :=
        mul_lt_mul_of_pos_right (evalFraction_lt_one (by decide) h.lt) (pow_pos digBase_pos _)
    _ ≤ 1 * digBase ^ (intg' - 1) := by
        rw [one_mul, one_mul]
        exact pow_le_pow_right₀ hone (by omega)
    _ ≤ evalFraction digBase l' * digBase * digBase ^ (intg' - 1) :=
        mul_le_mul_of_nonneg_right (h'.lower (by omega)) (pow_pos digBase_pos _).le
    _ = d'.abs := by rw [h'.abs_eq, hpow, mul_assoc]

theorem doSub_eq (h : d.Stored) (h' : d'.Stored) :
    doSub d d' =
      match compare d.abs d'.abs with
      | .eq => 0
      | .lt => if d.sign then 1 else -1
      | .gt => if d.sign then -1 else 1 := by
  obtain ⟨intg, buf, hskip, hsig⟩ := h.significant
  obtain ⟨intg', buf', hskip', hsig'⟩ := h'.significant
  simp only [doSub, hskip, hskip']
  rcases lt_trichotomy intg intg' with hlt | rfl | hlt
  · rw [if_pos hlt, compare_lt_iff_lt.mpr (hsig.abs_lt hsig' hlt)]
    cases d.sign <;> rfl
  · have hmono : StrictMono fun q : ℚ => q * digBase ^ intg := fun _ _ hq =>
      mul_lt_mul_of_pos_right hq (pow_pos digBase_pos _)
    rw [if_neg (lt_irrefl _), if_pos rfl, firstDifference_eq, hsig.abs_eq, hsig'.abs_eq,
      compare_map hmono, compare_evalFraction (by decide) hsig.lt hsig'.lt hsig.last hsig'.last]
    cases lexCmp _ _ <;> cases d.sign <;> rfl
  · rw [if_neg hlt.not_gt, if_neg hlt.ne, compare_gt_iff_gt.mpr (hsig'.abs_lt hsig hlt)]
    cases d.sign <;> rfl

theorem value_eq_zero : d.value = 0 ↔ d.abs = 0 := by
  unfold value
  cases d.sign <;> simp

theorem doSub_eq_sign (h : d.Stored) (h' : d'.Stored) (hsign : d.sign = d'.sign) :
    doSub d d' = SignType.sign (d.value - d'.value) := by
  rw [doSub_eq h h', value, value, ← hsign]
  rcases lt_trichotomy d.abs d'.abs with hlt | heq | hlt
  · rw [compare_lt_iff_lt.mpr hlt]
    cases d.sign
    · simp [sign_neg (sub_neg.mpr hlt)]
    · simp [neg_add_eq_sub, sign_pos (sub_pos.mpr hlt)]
  · rw [heq]
    simp
  · rw [compare_gt_iff_gt.mpr hlt]
    cases d.sign
    · simp [sign_pos (sub_pos.mpr hlt)]
    · simp [neg_add_eq_sub, sign_neg (sub_neg.mpr hlt)]

/-- The comparison is the one of the values unless both numbers are zero and only one of them
has a sign. -/
theorem decimalCmp_eq_sign_iff (h : d.Stored) (h' : d'.Stored) :
    decimalCmp d d' = SignType.sign (d.value - d'.value) ↔
      ¬ (d.value = 0 ∧ d'.value = 0 ∧ d.sign ≠ d'.sign) := by
  have habs := d.abs_nonneg
  have habs' := d'.abs_nonneg
  unfold decimalCmp
  by_cases hsign : d.sign = d'.sign
  · simp [hsign, doSub_eq_sign h h' hsign]
  · have hboth : d.abs = 0 ∧ d'.abs = 0 ↔ d.abs + d'.abs = 0 :=
      (add_eq_zero_iff_of_nonneg habs habs').symm
    rw [if_neg hsign]
    simp only [value_eq_zero, ne_eq, hsign, not_false_eq_true, and_true, hboth]
    rcases (add_nonneg habs habs').eq_or_lt with hzero | hpos
    · -- Both are zero: the signs decide, although the values are equal.
      obtain ⟨hd, hd'⟩ := hboth.mpr hzero.symm
      simp only [← hzero, not_true_eq_false, iff_false, value_eq_zero.mpr hd,
        value_eq_zero.mpr hd', sub_self, sign_zero]
      split <;> decide
    · cases hd : d.sign <;> cases hd' : d'.sign
      · exact absurd (hd.trans hd'.symm) hsign
      · simp [value, hd, hd', sign_pos hpos, hpos.ne']
      · have hneg : -d.abs - d'.abs < 0 := by linarith
        simp [value, hd, hd', sign_neg hneg, hpos.ne']
      · exact absurd (hd.trans hd'.symm) hsign

instance : DecidablePred Stored := fun d =>
  decidable_of_iff
    (roundUp d.intg + roundUp d.frac ≤ d.buf.length ∧
      ∀ w ∈ d.intgWords ++ d.fracWords, w < digBase)
    ⟨fun ⟨length, words⟩ => ⟨length, words⟩, fun h => ⟨h.length, h.words⟩⟩

/-- The numbers -3.5 and 2. -/
theorem decimalCmp_eq_sign_iff_negative :
    decimalCmp ⟨1, 1, true, [3, 500000000]⟩ ⟨1, 0, false, [2]⟩ =
        SignType.sign ((⟨1, 1, true, [3, 500000000]⟩ : Decimal).value -
          (⟨1, 0, false, [2]⟩ : Decimal).value) ↔
      ¬ ((⟨1, 1, true, [3, 500000000]⟩ : Decimal).value = 0 ∧
        (⟨1, 0, false, [2]⟩ : Decimal).value = 0 ∧ true ≠ false) :=
  decimalCmp_eq_sign_iff (by decide) (by decide)

/-- The texts `-0` and `0` are read without an error, and the first number is below the second
one. -/
theorem decimalCmp_negative_zero :
    string2decimal noExponent ['-', '0'] ⟨0, 0, false, [0]⟩ = (⟨1, 0, true, [0]⟩, .ok, []) ∧
      string2decimal noExponent ['0'] ⟨0, 0, false, [0]⟩ = (⟨1, 0, false, [0]⟩, .ok, []) ∧
      (⟨1, 0, true, [0]⟩ : Decimal).value = (⟨1, 0, false, [0]⟩ : Decimal).value ∧
      decimalCmp ⟨1, 0, true, [0]⟩ ⟨1, 0, false, [0]⟩ = -1 :=
  ⟨by decide, by decide, by
    rw [value_eq_zero.mpr (abs_eq_zero.mpr ⟨rfl, rfl⟩),
      value_eq_zero.mpr (abs_eq_zero.mpr ⟨rfl, rfl⟩)], by decide⟩

end MySQL.Strings.Decimal
