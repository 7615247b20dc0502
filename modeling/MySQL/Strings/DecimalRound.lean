import MySQL.Strings.DecimalOrder

/-!
# Rounding
-/

namespace MySQL.Strings.Decimal

open Lib List

variable {d : Decimal} {f i k n p r u v w P S : ℕ} {all l us vs ws rest : List ℕ}

/-! ## Trailing zeros -/

theorem stripZeroDigits_eq (hr : r ≤ 8) (hf : r < f) (hdvd : 10 ^ (8 - r) ∣ w) :
    ∃ t ≤ r, stripZeroDigits w r f = f - t ∧ 10 ^ (8 - r + t) ∣ w := by
  induction r generalizing f with
  | zero => exact ⟨0, le_rfl, rfl, hdvd⟩
  | succ r ih =>
    rw [stripZeroDigits, powers10, digPerDec1]
    by_cases hzero : w % 10 ^ (9 - (r + 1)) = 0
    · rw [if_pos hzero]
      have hdvd' : 10 ^ (8 - r) ∣ w := by
        rw [show 8 - r = 9 - (r + 1) by omega]
        exact Nat.dvd_of_mod_eq_zero hzero
      obtain ⟨t, ht, heq, hdvd''⟩ := ih (f := f - 1) (by omega) (by omega) hdvd'
      refine ⟨t + 1, by omega, by omega, ?_⟩
      rwa [show 8 - (r + 1) + (t + 1) = 8 - r + t by omega]
    · rw [if_neg hzero]
      exact ⟨0, by omega, rfl, hdvd⟩

theorem stripZeroWords_eq (hl : roundUp f ≤ l.length) (hi : i = (f - 1) % 9 + 1) :
    ∃ z us, l = replicate z 0 ++ us ∧
      roundUp f = z + roundUp (stripZeroWords f i l).1 ∧
      ((stripZeroWords f i l).1 = f ∨
        (stripZeroWords f i l).1 ≤ f ∧ (stripZeroWords f i l).1 % 9 = 0) ∧
      (0 < (stripZeroWords f i l).1 → us.head? = some (stripZeroWords f i l).2 ∧
        (stripZeroWords f i l).2 ≠ 0) := by
  induction l generalizing f i with
  | nil =>
    obtain rfl : f = 0 := by
      unfold roundUp digPerDec1 at hl
      simp at hl
      omega
    exact ⟨0, [], rfl, (Nat.zero_add _).symm, .inl rfl, fun h => absurd h (lt_irrefl 0)⟩
  | cons w l ih =>
    rw [stripZeroWords]
    by_cases hw : 0 < f ∧ w = 0
    · have hround : roundUp f = roundUp (f - i) + 1 := by
        unfold roundUp digPerDec1
        omega
      rw [length_cons] at hl
      rw [if_pos hw]
      rcases Nat.eq_zero_or_pos (f - i) with hnil | hpos
      · refine ⟨1, l, by rw [hw.2]; rfl, ?_⟩
        rw [hround, hnil]
        cases l <;> simp [stripZeroWords, roundUp_zero]
      · obtain ⟨z, us, rfl, hz, hmul, hhead⟩ := ih (f := f - i) (i := digPerDec1) (by omega) (by
          unfold digPerDec1
          omega)
        refine ⟨z + 1, us, by rw [hw.2, replicate_succ, cons_append], by omega, .inr ?_, hhead⟩
        omega
    · rw [if_neg hw]
      exact ⟨0, w :: l, rfl, (Nat.zero_add _).symm, .inl rfl, fun hf => ⟨rfl, fun h => hw ⟨hf, h⟩⟩⟩

theorem WellFormed.actualFraction_spec (h : d.WellFormed) (hwords : d.HasWords all rest) :
    d.actualFraction ≤ d.frac ∧
      10 ^ (9 * roundUp d.frac - d.actualFraction) ∣ evalDigits digBase all ∧
      (evalDigits digBase all = 0 → d.actualFraction = 0) := by
  have hdvd := (hwords.wellFormed_iff.mp h).2
  have hlen := hwords.length_eq
  have htake : d.buf.take (roundUp d.intg + roundUp d.frac) = all := by
    rw [hwords.buf_eq, take_left' hlen]
  unfold actualFraction
  split
  case isTrue hzero =>
    rw [hzero] at hdvd ⊢
    exact ⟨le_rfl, hdvd, fun _ => rfl⟩
  case isFalse hpos =>
    obtain ⟨z, us, hall, hz, hmul, hhead⟩ := stripZeroWords_eq (l := all.reverse) (f := d.frac)
      (by rw [length_reverse]; omega) rfl
    simp only [htake, digPerDec1]
    revert hz hmul hhead
    generalize stripZeroWords d.frac ((d.frac - 1) % 9 + 1) all.reverse = r
    obtain ⟨f, w⟩ := r
    intro hz hmul hhead
    have heval : evalDigits digBase all = evalDigits digBase us.reverse * digBase ^ z := by
      rw [← reverse_reverse all, hall, reverse_append, reverse_replicate, evalDigits_append_zeros]
    have hround (k : ℕ) : roundUp k = (k + 8) / 9 := rfl
    dsimp only at hz hmul hhead ⊢
    split
    case isTrue hf =>
      obtain ⟨l, rfl⟩ : ∃ l, us = w :: l := by
        cases us with
        | nil => simp at hhead; omega
        | cons u l =>
          obtain ⟨rfl⟩ := (hhead hf).1
          exact ⟨l, rfl⟩
      have hbase {e : ℕ} (he : e ≤ 9) :
          10 ^ e ∣ evalDigits digBase (w :: l).reverse ↔ 10 ^ e ∣ w := by
        rw [reverse_cons, evalDigits_append, evalDigits_singleton, length_singleton,
          Nat.dvd_add_right (Dvd.dvd.mul_left (digBase_eq ▸ pow_dvd_pow 10 he) _)]
      have hlast : 10 ^ (8 - (f - 1) % 9) ∣ w := by
        rcases hmul with hsame | ⟨-, hmul⟩
        · obtain rfl : z = 0 := by rw [hsame] at hz; omega
          rw [heval, pow_zero, mul_one, ← hsame, hbase (by simp only [hround]; omega)] at hdvd
          rwa [show 8 - (f - 1) % 9 = 9 * roundUp f - f by simp only [hround]; omega]
        · rw [show (f - 1) % 9 = 8 by omega]
          exact one_dvd w
      obtain ⟨t, ht, heq, hstrip⟩ := stripZeroDigits_eq (f := f) (by omega) (by omega) hlast
      refine ⟨?_, ?_, fun hzero => ?_⟩
      · omega
      · rw [heq, heval, show 9 * roundUp d.frac - (f - t) = 8 - (f - 1) % 9 + t + 9 * z by
          simp only [hround] at hz ⊢; omega, pow_add, pow_mul]
        exact Nat.mul_dvd_mul_right ((hbase (by omega)).mpr hstrip) _
      · rw [heval, Nat.mul_eq_zero, or_iff_left (Nat.pow_pos (by decide)).ne', reverse_cons,
          evalDigits_append, evalDigits_singleton, Nat.add_eq_zero_iff] at hzero
        exact absurd hzero.2 (hhead hf).2
    case isFalse hf =>
      obtain rfl : f = 0 := by omega
      refine ⟨Nat.zero_le _, ?_, fun _ => rfl⟩
      rw [heval, hz, roundUp_zero, Nat.sub_zero, pow_mul]
      exact Nat.dvd_mul_left _ _

def trimmed (d : Decimal) : Decimal := { d with frac := d.actualFraction }

theorem WellFormed.trimmed (h : d.WellFormed) : d.trimmed.WellFormed ∧ d.trimmed.abs = d.abs ∧
    (d.abs = 0 → d.trimmed.frac = 0) := by
  obtain ⟨rest, hwords⟩ := h.hasWords
  obtain ⟨hle, hdvd, hzero⟩ := h.actualFraction_spec hwords
  have hlt := (hwords.wellFormed_iff.mp h).1
  have hlen := hwords.length_eq
  have habs := hwords.abs_eq
  generalize d.intgWords ++ d.fracWords = all at *
  obtain ⟨z, hz⟩ : ∃ z, roundUp d.frac = roundUp d.actualFraction + z :=
    ⟨_, (Nat.add_sub_cancel' (Nat.div_le_div_right (by omega))).symm⟩
  -- The words that are no longer used are zero.
  obtain ⟨ws, low, rfl, hws, hlow⟩ : ∃ ws low, all = ws ++ low ∧
      ws.length = roundUp d.intg + roundUp d.actualFraction ∧ low.length = z :=
    ⟨_, _, (take_append_drop (roundUp d.intg + roundUp d.actualFraction) all).symm,
      by rw [length_take]; omega, by rw [length_drop]; omega⟩
  have hround (k : ℕ) : roundUp k = (k + 8) / 9 := rfl
  have heval : evalDigits digBase (ws ++ low) = evalDigits digBase ws * digBase ^ z := by
    have hdvd' : digBase ^ z ∣ evalDigits digBase (ws ++ low) := by
      have hpow : digBase ^ z ∣ 10 ^ (9 * roundUp d.frac - d.actualFraction) := by
        rw [digBase_eq, ← pow_mul]
        exact pow_dvd_pow 10 (by simp only [hround] at hz ⊢; omega)
      exact hpow.trans hdvd
    have hsmall := evalDigits_lt fun w hw => hwords.lt w (mem_append_right ws hw)
    rw [evalDigits_append, hlow, Nat.dvd_add_right (Nat.dvd_mul_left _ _)] at hdvd'
    rw [hlow] at hsmall
    rw [evalDigits_append, hlow, Nat.eq_zero_of_dvd_of_lt hdvd' hsmall, Nat.add_zero]
  have hnew : d.trimmed.HasWords ws (low ++ rest) :=
    ⟨by rw [← append_assoc]; exact hwords.buf_eq, hws,
      fun w hw => hwords.lt w (mem_append_left low hw)⟩
  have hpos : 0 < digBase ^ z := Nat.pow_pos (by decide)
  have hadd : d.intg + 9 * roundUp d.frac = d.intg + 9 * roundUp d.actualFraction + 9 * z := by
    omega
  refine ⟨hnew.wellFormed_iff.mpr ⟨?_, ?_⟩, ?_, fun hd => hzero ?_⟩
  · rw [heval, hadd, pow_add, pow_mul] at hlt
    exact Nat.lt_of_mul_lt_mul_right hlt
  · rw [heval, show 9 * roundUp d.frac - d.actualFraction =
      9 * roundUp d.actualFraction - d.actualFraction + 9 * z by simp only [hround] at hz ⊢; omega,
      pow_add, pow_mul] at hdvd
    exact Nat.dvd_of_mul_dvd_mul_right hpos hdvd
  · rw [hnew.abs_eq, habs, heval, hz, pow_add, Nat.cast_mul, Nat.cast_pow,
      mul_div_mul_right _ _ (digBase_pow_ne_zero z)]
    rfl
  · rwa [habs, div_eq_zero_iff, or_iff_left (digBase_pow_ne_zero _), Nat.cast_eq_zero] at hd

/-! ## Carries -/

theorem getD_append_of_ne {j : ℕ} (h : l.getD j 0 ≠ 0) : (l ++ rest).getD j 0 = l.getD j 0 := by
  apply getD_append
  by_contra hge
  exact h (getD_eq_default _ _ (not_lt.mp hge))

theorem carryUp_eq (ws rest : List ℕ) (hws : ∀ w ∈ ws, w < digBase) :
    (∃ us j, carryUp (ws ++ rest) ws.length = (us ++ rest, some j) ∧ us.length = ws.length ∧
        (∀ w ∈ us, w < digBase) ∧ evalDigits digBase us = evalDigits digBase ws + 1 ∧
        us.getD j 0 ≠ 0) ∨
      carryUp (ws ++ rest) ws.length = (replicate ws.length 0 ++ rest, none) ∧
        evalDigits digBase ws + 1 = digBase ^ ws.length := by
  induction ws using List.reverseRecOn generalizing rest with
  | nil => exact .inr ⟨rfl, rfl⟩
  | append_singleton vs w ih =>
    have hw := hws w (by simp)
    have hvs : ∀ x ∈ vs, x < digBase := fun x hx => hws x (by simp [hx])
    have hget : (vs ++ [w] ++ rest).getD vs.length 0 = w := by simp
    have hset (x : ℕ) : (vs ++ [w] ++ rest).set vs.length x = vs ++ (x :: rest) := by simp
    rw [length_append, length_singleton, carryUp, hget]
    by_cases hfull : digBase ≤ w + 1
    · simp only [if_pos hfull, hset, show w + 1 - digBase = 0 by omega]
      have hone (E : ℕ) : (E + 1) * digBase = E * digBase + w + 1 := by
        rw [Nat.succ_mul]
        omega
      rcases ih (0 :: rest) hvs with ⟨us, j, heq, hlen, hlt, heval, hj⟩ | ⟨heq, heval⟩
      · refine .inl ⟨us ++ [0], j, by rw [heq, append_assoc]; rfl, by simp [hlen],
          forall_mem_append.mpr ⟨hlt, forall_mem_singleton.mpr (by decide)⟩, ?_, ?_⟩
        · simp only [evalDigits_append, evalDigits_singleton, length_singleton, pow_one, heval,
            hone]
        · rwa [getD_append_of_ne hj]
      · refine .inr ⟨by rw [heq, replicate_succ', append_assoc]; rfl, ?_⟩
        rw [evalDigits_append, evalDigits_singleton, length_singleton, pow_one, ← hone, heval,
          pow_succ]
    · simp only [if_neg hfull, hset]
      refine .inl ⟨vs ++ [w + 1], vs.length, by simp, by simp,
        forall_mem_append.mpr ⟨hvs, forall_mem_singleton.mpr (not_le.mp hfull)⟩, ?_, by simp⟩
      rw [evalDigits_append, evalDigits_append, evalDigits_singleton, evalDigits_singleton]
      exact (Nat.add_assoc _ _ _).symm

theorem lastNonzero_eq (ws rest : List ℕ) (v : ℕ) :
    lastNonzero (ws ++ v :: rest) ws.length = none ∧ ws ++ [v] = replicate (ws.length + 1) 0 ∨
      ∃ j, lastNonzero (ws ++ v :: rest) ws.length = some j ∧ (ws ++ [v]).getD j 0 ≠ 0 := by
  induction ws using List.reverseRecOn generalizing v rest with
  | nil =>
    rw [length_nil, lastNonzero]
    by_cases hv : v = 0
    · exact .inl (by simp [hv])
    · exact .inr ⟨0, by simp [hv], by simpa using hv⟩
  | append_singleton ws x ih =>
    have hget : (ws ++ [x] ++ v :: rest).getD (ws.length + 1) 0 = v := by simp
    rw [length_append, length_singleton, lastNonzero, hget]
    by_cases hv : v = 0
    · rw [if_neg (not_not.mpr hv), append_assoc]
      rcases ih (v :: rest) x with ⟨hnone, hzero⟩ | ⟨j, hsome, hj⟩
      · refine .inl ⟨hnone, ?_⟩
        rw [hzero, hv, ← replicate_succ']
      · exact .inr ⟨j, hsome, by rwa [getD_append_of_ne hj]⟩
    · rw [if_pos hv]
      exact .inr ⟨_, rfl, by simpa using hv⟩

/-! ## The rounded number -/

/-- The number `r` is `q` with a sign, which zero does not have. -/
structure IsRounding (r : Decimal) (sign : Bool) (S : ℕ) (q : ℚ) : Prop where
  wellFormed : r.WellFormed
  frac_le : r.frac ≤ S
  abs_eq : r.abs = q
  sign_eq : r.sign = (sign && decide (q ≠ 0))

/-- The words of a power of ten that has one digit too many. -/
theorem words_of_eq_pow {a : ℕ} (hlen : all.length = roundUp a + k) (hlt : ∀ w ∈ all, w < digBase)
    (heq : evalDigits digBase all = 10 ^ (a + 9 * k)) :
    a % 9 ≠ 0 ∧ all = 10 ^ (a % 9) :: replicate (a / 9 + k) 0 := by
  have hmod : a % 9 ≠ 0 := by
    intro hzero
    have hbig := evalDigits_lt hlt
    rw [heq, hlen, digBase_eq, ← pow_mul, roundUp_eq, if_pos hzero] at hbig
    exact absurd ((Nat.pow_lt_pow_iff_right (by decide)).mp hbig) (by omega)
  refine ⟨hmod, eq_of_evalDigits_eq ?_ hlt ?_ ?_⟩
  · rw [hlen, roundUp_eq, if_neg hmod, length_cons, length_replicate]
    omega
  · intro w hw
    rcases mem_cons.mp hw with rfl | hw
    · exact Nat.pow_lt_pow_right (by decide) (Nat.mod_lt a (by decide))
    · rw [(mem_replicate.mp hw).2]
      decide
  · rw [heq, ← singleton_append, evalDigits_append_zeros, evalDigits_singleton, digBase_eq,
      ← pow_mul, ← pow_add]
    exact congrArg _ (by omega)

theorem evalDigits_ne_zero {j : ℕ} (hj : l.getD j 0 ≠ 0) : evalDigits digBase l ≠ 0 := by
  intro hzero
  rw [eq_replicate_of_mem ((evalDigits_eq_zero (by decide)).mp hzero)] at hj
  simp at hj

theorem isRounding_of_ne_zero {j : ℕ} (rest : List ℕ)
    (hlen : all.length = roundUp d.intg + roundUp S) (hlt : ∀ w ∈ all, w < digBase)
    (hj : all.getD j 0 ≠ 0) (hle : evalDigits digBase all ≤ 10 ^ (d.intg + 9 * roundUp S))
    (hdvd : 10 ^ (9 * roundUp S - S) ∣ evalDigits digBase all) :
    IsRounding
      { d with
        intg := if d.intg % 9 ≠ 0 ∧ powers10 (d.intg % 9) ≤ all.getD j 0 then d.intg + 1
          else d.intg
        frac := S
        buf := all ++ rest }
      d.sign S (evalDigits digBase all / digBase ^ roundUp S) := by
  set intg := if d.intg % 9 ≠ 0 ∧ powers10 (d.intg % 9) ≤ all.getD j 0 then d.intg + 1
    else d.intg with hintg
  have hcases : intg = d.intg ∨ intg = d.intg + 1 ∧ d.intg % 9 ≠ 0 := by
    rw [hintg]
    split
    case isTrue hmore => exact .inr ⟨rfl, hmore.1⟩
    case isFalse => exact .inl rfl
  have hround : roundUp intg = roundUp d.intg := by
    unfold roundUp digPerDec1
    omega
  have hbound : evalDigits digBase all < 10 ^ (intg + 9 * roundUp S) := by
    rcases hle.lt_or_eq with hlt' | heq
    · exact hlt'.trans_le (Nat.pow_le_pow_right (by decide) (by omega))
    · obtain ⟨hmod, hall⟩ := words_of_eq_pow hlen hlt heq
      have hmore : intg = d.intg + 1 := by
        refine if_pos ⟨hmod, ?_⟩
        cases j with
        | zero => rw [hall]; exact le_rfl
        | succ j => exact absurd (by simp [hall]) hj
      rw [heq]
      exact Nat.pow_lt_pow_right (by decide) (by omega)
  have hwords : HasWords ⟨intg, S, d.sign, all ++ rest⟩ all rest :=
    ⟨rfl, hround ▸ hlen, hlt⟩
  refine ⟨hwords.wellFormed_iff.mpr ⟨hbound, hdvd⟩, le_rfl, hwords.abs_eq, ?_⟩
  have hq : (evalDigits digBase all : ℚ) / digBase ^ roundUp S ≠ 0 :=
    div_ne_zero (Nat.cast_ne_zero.mpr (evalDigits_ne_zero hj)) (digBase_pow_ne_zero _)
  rw [decide_eq_true hq, Bool.and_true]

theorem isRounding_zero (sign : Bool) (rest : List ℕ) :
    IsRounding ⟨1, S, false, replicate (roundUp S + 1) 0 ++ rest⟩ sign S 0 := by
  have hwords : HasWords ⟨1, S, false, replicate (roundUp S + 1) 0 ++ rest⟩
      (replicate (roundUp S + 1) 0) rest :=
    ⟨rfl, length_replicate.trans (Nat.add_comm (roundUp S) (roundUp 1)),
      fun w hw => by rw [(mem_replicate.mp hw).2]; decide⟩
  refine ⟨hwords.wellFormed_iff.mpr ?_, le_rfl, ?_, by simp⟩
  · rw [evalDigits_zeros]
    exact ⟨Nat.pow_pos (by decide), dvd_zero _⟩
  · rw [hwords.abs_eq, evalDigits_zeros, Nat.cast_zero, zero_div]

theorem isRounding_pow (rest : List ℕ) (hintg : d.intg % 9 = 0) (hfrac : f ≤ S) :
    IsRounding ⟨d.intg + 1, f, d.sign, 1 :: replicate (roundUp d.intg + roundUp f) 0 ++ rest⟩
      d.sign S ((digBase : ℚ) ^ roundUp d.intg) := by
  have heval : evalDigits digBase (1 :: replicate (roundUp d.intg + roundUp f) 0) =
      digBase ^ (roundUp d.intg + roundUp f) := by
    rw [← singleton_append, evalDigits_append_zeros, evalDigits_singleton, one_mul]
  have hround : 9 * roundUp d.intg = d.intg ∧ roundUp (d.intg + 1) = roundUp d.intg + 1 := by
    unfold roundUp digPerDec1
    omega
  have hwords : HasWords
      ⟨d.intg + 1, f, d.sign, 1 :: replicate (roundUp d.intg + roundUp f) 0 ++ rest⟩
      (1 :: replicate (roundUp d.intg + roundUp f) 0) rest := by
    refine ⟨rfl, ?_, fun w hw => ?_⟩
    · rw [length_cons, length_replicate, hround.2]
      exact Nat.add_right_comm _ _ _
    · rcases mem_cons.mp hw with rfl | hw
      · decide
      · rw [(mem_replicate.mp hw).2]
        decide
  refine ⟨hwords.wellFormed_iff.mpr ?_, hfrac, ?_, ?_⟩
  · rw [heval, digBase_eq, ← pow_mul]
    exact ⟨Nat.pow_lt_pow_right (by decide) (by dsimp only; omega),
      pow_dvd_pow 10 (by dsimp only; omega)⟩
  · rw [hwords.abs_eq, heval, Nat.cast_pow, pow_add,
      mul_div_cancel_right₀ _ (digBase_pow_ne_zero _)]
  · rw [decide_eq_true (digBase_pow_ne_zero _), Bool.and_true]

/-- The three ways in which `decimal_round` ends: with zero, with the carry inside of the words,
and with a new first word. -/
theorem finishRound_cases (intg0 : ℕ) (frac0 : ℤ) (hbuf : d.buf = vs ++ v :: rest)
    (hvs : ∀ w ∈ vs, w < digBase) (hv : v ≤ digBase) :
    let r := finishRound d vs.length intg0 frac0 S .ok
    (vs ++ [v] = replicate (vs.length + 1) 0 ∧
      r = (⟨1, S, false,
        replicate (frac0 + 1).toNat 0 ++ d.buf.drop (frac0 + 1).toNat⟩, .ok)) ∨
    (∃ us j, us.length = vs.length + 1 ∧ (∀ w ∈ us, w < digBase) ∧
      evalDigits digBase us = evalDigits digBase (vs ++ [v]) ∧ us.getD j 0 ≠ 0 ∧
      r = ({ d with
        intg := if d.intg % 9 ≠ 0 ∧ powers10 (d.intg % 9) ≤ us.getD j 0 then d.intg + 1
          else d.intg
        frac := S
        buf := us ++ rest }, .ok)) ∨
    evalDigits digBase (vs ++ [v]) = digBase ^ (vs.length + 1) ∧
      let full := d.buf.length ≤ frac0 + intg0
      let frac := if full then frac0 - 1 else frac0
      let n := intg0 + frac.toNat
      let zeros := replicate (vs.length + 1) 0 ++ rest
      r = ({ d with
        intg := d.intg + 1
        frac := (if full then frac * 9 else (S : ℤ)).toNat
        buf := 1 :: (zeros.take n ++ zeros.drop (n + 1)) }, if full then .truncated else .ok) := by
  have hget : d.buf.getD vs.length 0 = v := by simp [hbuf]
  have hset (x : ℕ) : d.buf.set vs.length x = vs ++ (x :: rest) := by simp [hbuf]
  have hcons (us : List ℕ) (x : ℕ) : us ++ x :: rest = us ++ [x] ++ rest := by simp
  have hone (E : ℕ) (hv : v = digBase) : (E + 1) * digBase = E * digBase + v := by
    rw [Nat.succ_mul, hv]
  unfold finishRound
  rw [hget]
  by_cases hfull : digBase ≤ v
  · have hveq : v = digBase := le_antisymm hv hfull
    rw [if_pos hfull, hset, show v - digBase = 0 by omega]
    rcases carryUp_eq vs (0 :: rest) hvs with ⟨us, j, heq, hlen, hlt, heval, hj⟩ | ⟨heq, heval⟩
    · have hj' : (us ++ [0]).getD j 0 ≠ 0 := by rwa [getD_append_of_ne hj]
      refine .inr (.inl ⟨us ++ [0], j, by simp [hlen],
        forall_mem_append.mpr ⟨hlt, forall_mem_singleton.mpr (by decide)⟩, ?_, hj', ?_⟩)
      · simp only [evalDigits_append, evalDigits_singleton, length_singleton, pow_one, heval,
          hone _ hveq, Nat.add_zero]
      · rw [heq]
        simp only [hcons us, getD_append_of_ne hj', digPerDec1, Int.toNat_natCast]
    · refine .inr (.inr ⟨?_, ?_⟩)
      · rw [evalDigits_append, evalDigits_singleton, length_singleton, pow_one, ← hone _ hveq,
          heval, pow_succ]
      · have hdigit : ¬ ((d.intg + 1) % digPerDec1 ≠ 0 ∧
            powers10 ((d.intg + 1) % digPerDec1) ≤ 1) := by
          rintro ⟨hne, hle⟩
          exact absurd hle (not_le.mpr (Nat.one_lt_pow hne (by decide)))
        rw [heq]
        simp only [if_neg hdigit, hcons, ← replicate_succ']
        rfl
  · rw [if_neg hfull, hbuf]
    rcases lastNonzero_eq vs rest v with ⟨hnone, hzero⟩ | ⟨j, hsome, hj⟩
    · rw [hnone]
      exact .inl ⟨hzero, rfl⟩
    · rw [hsome]
      refine .inr (.inl ⟨vs ++ [v], j, by simp,
        forall_mem_append.mpr ⟨hvs, forall_mem_singleton.mpr (not_le.mp hfull)⟩, rfl, hj, ?_⟩)
      simp only [hcons vs v, getD_append_of_ne hj, digPerDec1, Int.toNat_natCast]

theorem finishRound_spec (hbuf : d.buf = vs ++ v :: rest) (hvs : ∀ w ∈ vs, w < digBase)
    (hv : v ≤ digBase) (hlen : vs.length + 1 = roundUp d.intg + roundUp S)
    (hle : evalDigits digBase (vs ++ [v]) ≤ 10 ^ (d.intg + 9 * roundUp S))
    (hdvd : 10 ^ (9 * roundUp S - S) ∣ evalDigits digBase (vs ++ [v])) :
    IsRounding (finishRound d vs.length (roundUp d.intg) (roundUp S) S .ok).1 d.sign S
      (evalDigits digBase (vs ++ [v]) / digBase ^ roundUp S) := by
  obtain ⟨hzero, hr⟩ | ⟨us, j, hus, hlt, heval, hj, hr⟩ | ⟨heval, hr⟩ :=
    finishRound_cases (roundUp d.intg) (roundUp S) hbuf hvs hv
  · rw [hr, hzero, evalDigits_zeros, Nat.cast_zero, zero_div]
    exact isRounding_zero _ _
  · rw [hr, ← heval]
    exact isRounding_of_ne_zero rest (hus.trans hlen) hlt hj (heval ▸ hle) (heval ▸ hdvd)
  · have hintg : d.intg % 9 = 0 := by
      rw [heval, hlen, digBase_eq, ← pow_mul, Nat.pow_le_pow_iff_right (by decide)] at hle
      unfold roundUp digPerDec1 at hle
      omega
    rw [hr, heval, hlen, Nat.cast_pow, pow_add, mul_div_cancel_right₀ _ (digBase_pow_ne_zero _)]
    set full := (d.buf.length : ℤ) ≤ (roundUp S : ℕ) + (roundUp d.intg : ℕ)
    obtain ⟨f, hf⟩ : ∃ f, f = (if full then (if full then ((roundUp S : ℕ) : ℤ) - 1 else
        (roundUp S : ℕ)) * 9 else (S : ℤ)).toNat := ⟨_, rfl⟩
    obtain ⟨g, hg⟩ : ∃ g, g = (if full then ((roundUp S : ℕ) : ℤ) - 1 else (roundUp S : ℕ)).toNat :=
      ⟨_, rfl⟩
    rw [← hf, ← hg]
    have hfg : roundUp f = g ∧ f ≤ S ∧ g ≤ roundUp S := by
      have hroundUp (k : ℕ) : roundUp k = (k + 8) / 9 := rfl
      have hS := hroundUp S
      rw [hroundUp f]
      split at hf <;> split at hg <;> omega
    have hround := isRounding_pow ((replicate (roundUp d.intg + roundUp S) 0 ++ rest).drop
      (roundUp d.intg + g + 1)) hintg hfg.2.1
    rw [hfg.1] at hround
    rw [take_append_of_le_length (by rw [length_replicate]; omega), take_replicate,
      Nat.min_eq_left (by omega)]
    exact hround

/-! ## Half up -/

def cleared (d : Decimal) (S : ℕ) (buf : List ℕ) : List ℕ :=
  if roundUp S < roundUp d.frac then
    let k := if S = 0 ∧ roundUp d.intg = 0 then 1 else roundUp d.intg + roundUp S
    buf.take k ++ replicate (buf.length - k) 0
  else buf

/-- The end of `decimal_round`, with the word `n - 1` rounded. -/
def finished (d : Decimal) (S n : ℕ) (buf : List ℕ) : Decimal × DecError :=
  finishRound { d with buf := cleared d S buf } (n - 1) (roundUp d.intg) (roundUp S) S .ok

theorem roundUp_mono (h : k ≤ n) : roundUp k ≤ roundUp n :=
  Nat.div_le_div_right (Nat.sub_le_sub_right (Nat.add_le_add_right h _) _)

theorem WellFormed.decimalRound_of_lt (h : d.WellFormed) (hS : S < d.frac)
    (hn : n = roundUp d.intg + roundUp S) :
    d.decimalRound S .halfUp =
      if S = roundUp S * 9 then
        if 5 ≤ d.buf.getD n 0 / digMask then
          finished d S n (if 0 < n then d.buf.set (n - 1) (d.buf.getD (n - 1) 0 + 1) else
            d.buf.set 0 digBase)
        else if n = 0 then (d.makeZero, .ok) else finished d S n d.buf
      else finished d S n (d.buf.set (n - 1)
        (roundWord .halfUp d.sign (d.buf.getD (n - 1) 0) (roundUp S * 9 - S - 1))) := by
  have hlen := h.length
  have hmono := roundUp_mono hS.le
  have hfrac : (if (0 : ℤ) < S then ((roundUp (S : ℤ).toNat : ℕ) : ℤ) else
      (S : ℤ).tdiv (digPerDec1 : ℕ)) = roundUp S := by
    split
    case isTrue => rw [Int.toNat_natCast]
    case isFalse hzero =>
      rw [show S = 0 by omega]
      rfl
  have hshort : ¬ (d.buf.length : ℤ) < (roundUp S : ℕ) + (roundUp d.intg : ℕ) := by omega
  have hneg : ¬ (S : ℤ) + d.intg < 0 := by omega
  have hmore : ¬ ((roundUp d.frac : ℕ) : ℤ) < (roundUp S : ℕ) := by omega
  have hless : ¬ (d.frac : ℤ) ≤ S := by omega
  have hto : (((roundUp S : ℕ) : ℤ) + (roundUp d.intg : ℕ)).toNat = n := by omega
  have hup (k : ℕ) : roundsUpWord .halfUp d n k = decide (5 ≤ d.buf.getD n 0 / digMask) := by
    simp only [roundsUpWord, roundDigit]
    generalize d.buf.getD n 0 / digMask = x
    rw [Bool.eq_iff_iff]
    simp
    omega
  have haligned : ((S : ℤ) = ((roundUp S : ℕ) : ℤ) * (digPerDec1 : ℕ)) = (S = roundUp S * 9) := by
    unfold digPerDec1
    exact propext (by omega)
  have hpos : (((roundUp S : ℕ) : ℤ) * (digPerDec1 : ℕ) - S - 1).toNat = roundUp S * 9 - S - 1 := by
    unfold digPerDec1
    omega
  unfold decimalRound
  simp only [hfrac, if_neg hshort, if_neg hneg, if_neg hmore, if_neg hless, hto, hup, haligned,
    hpos]
  simp only [finished, cleared, ← hn, Nat.cast_lt, Nat.cast_eq_zero, decide_eq_true_eq]

theorem roundWord_eq (sign : Bool) (w k : ℕ) :
    roundWord .halfUp sign w k = 10 ^ (k + 1) * ((w + 5 * 10 ^ k) / 10 ^ (k + 1)) := by
  have hpos : 0 < 10 ^ k := by positivity
  have hdiv : (w + 5 * 10 ^ k) / 10 ^ (k + 1) = (w / 10 ^ k + 5) / 10 := by
    rw [pow_succ, ← Nat.div_div_eq_div_mul, Nat.add_mul_div_right _ _ hpos]
  rw [hdiv, roundWord, powers10, pow_succ, Nat.mul_assoc]
  simp only [roundDigit, true_and, true_or, and_true]
  generalize w / 10 ^ k = x
  split
  case isTrue => exact congrArg (10 ^ k * ·) (by omega)
  case isFalse => exact congrArg (10 ^ k * ·) (by omega)

theorem round_digits {a : ℕ} {e : ℚ} (he : 0 ≤ e) (he' : e < 1) :
    round (((a : ℚ) + e) / 10 ^ (k + 1)) = ((a + 5 * 10 ^ k) / 10 ^ (k + 1) : ℕ) := by
  set N := (a + 5 * 10 ^ k) / 10 ^ (k + 1) with hN
  have hpos : 0 < 10 ^ (k + 1) := by positivity
  have hle : N * 10 ^ (k + 1) ≤ a + 5 * 10 ^ k := Nat.div_mul_le_self _ _
  have hlt : a + 5 * 10 ^ k + 1 ≤ (N + 1) * 10 ^ (k + 1) := by
    rw [Nat.succ_le_iff, ← Nat.div_lt_iff_lt_mul hpos]
    exact Nat.lt_succ_self _
  have hle' : (N : ℚ) * 10 ^ (k + 1) ≤ a + 5 * 10 ^ k := by exact_mod_cast hle
  have hlt' : (a : ℚ) + 5 * 10 ^ k + 1 ≤ (N + 1) * 10 ^ (k + 1) := by exact_mod_cast hlt
  have hhalf : ((a : ℚ) + e) / 10 ^ (k + 1) + 1 / 2 = (a + 5 * 10 ^ k + e) / 10 ^ (k + 1) := by
    field_simp
    ring
  rw [round_eq, hhalf, Int.floor_eq_iff, Int.cast_natCast, le_div_iff₀ (by positivity),
    div_lt_iff₀ (by positivity)]
  constructor <;> linarith

theorem round_units {a : ℕ} {e : ℚ} (he : 0 ≤ e) (he' : e < 1) :
    round ((a : ℚ) + e) = ((if 1 / 2 ≤ e then a + 1 else a : ℕ) : ℤ) := by
  rw [round_eq, Int.floor_eq_iff, Int.cast_natCast]
  split
  case isTrue hhalf =>
    push_cast
    constructor <;> linarith
  case isFalse hhalf => constructor <;> linarith

theorem cleared_eq (vs rest : List ℕ) (v : ℕ) (hlen : vs.length + 1 = roundUp d.intg + roundUp S) :
    ∃ rest', cleared d S (vs ++ v :: rest) = vs ++ v :: rest' := by
  have hcons : vs ++ v :: rest = vs ++ [v] ++ rest := by simp
  have hne : ¬ (S = 0 ∧ roundUp d.intg = 0) := by
    rintro ⟨hS, hintg⟩
    rw [hS, roundUp_zero] at hlen
    omega
  unfold cleared
  simp only [if_neg hne, ← hlen]
  split
  · refine ⟨replicate rest.length 0, ?_⟩
    rw [hcons, take_left' (by simp), length_append, length_append,
      length_singleton, Nat.add_sub_cancel_left, append_assoc, singleton_append]
  · exact ⟨rest, rfl⟩

theorem evalDigits_roundWord (hk : k + 1 ≤ 9) :
    evalDigits digBase (vs ++ [10 ^ (k + 1) * ((w + 5 * 10 ^ k) / 10 ^ (k + 1))]) =
      10 ^ (k + 1) * ((evalDigits digBase (vs ++ [w]) + 5 * 10 ^ k) / 10 ^ (k + 1)) := by
  have hbase : digBase = 10 ^ (k + 1) * 10 ^ (8 - k) := by
    rw [← pow_add, show k + 1 + (8 - k) = 9 by omega]
    rfl
  have hmul : evalDigits digBase vs * digBase =
      10 ^ (k + 1) * (evalDigits digBase vs * 10 ^ (8 - k)) := by
    rw [Nat.mul_left_comm, ← hbase]
  rw [evalDigits_append, evalDigits_append, evalDigits_singleton, evalDigits_singleton,
    length_singleton, length_singleton, pow_one, hmul, Nat.add_assoc,
    Nat.mul_add_div (by positivity), Nat.mul_add]

theorem roundWord_le (hk : k + 1 ≤ 9) (hw : w < digBase) :
    10 ^ (k + 1) * ((w + 5 * 10 ^ k) / 10 ^ (k + 1)) ≤ digBase := by
  have hbase : digBase = 10 ^ (k + 1) * 10 ^ (8 - k) := by
    rw [← pow_add, show k + 1 + (8 - k) = 9 by omega]
    rfl
  rw [hbase]
  refine Nat.mul_le_mul_left _ (Nat.le_of_lt_succ ((Nat.div_lt_iff_lt_mul (by positivity)).mpr ?_))
  have hmul : (10 ^ (8 - k)).succ * 10 ^ (k + 1) = digBase + 10 ^ (k + 1) := by
    rw [Nat.succ_mul, Nat.mul_comm, ← hbase]
  omega

theorem half_le_iff (hl : ∀ w ∈ l, w < digBase) :
    1 / 2 ≤ (evalDigits digBase (w :: l) : ℚ) / (digBase : ℚ) ^ (w :: l).length ↔
      5 ≤ w / digMask := by
  have hlt := evalDigits_lt hl
  have hpos : (0 : ℚ) < (digBase : ℚ) ^ (w :: l).length := by
    rw [digBase]
    positivity
  rw [div_le_div_iff₀ (by norm_num) hpos, one_mul, evalDigits_cons, length_cons, pow_succ]
  have hcast : (digBase : ℚ) ^ l.length * digBase ≤
      ((w * digBase ^ l.length + evalDigits digBase l : ℕ) : ℚ) * 2 ↔
      digBase ^ l.length * digBase ≤ (w * digBase ^ l.length + evalDigits digBase l) * 2 := by
    exact_mod_cast Iff.rfl
  rw [hcast, Nat.le_div_iff_mul_le (by decide)]
  generalize digBase ^ l.length = p at hlt
  constructor
  · intro hle
    by_contra hw
    have hmul := Nat.mul_le_mul_right p (show w + 1 ≤ 500000000 by unfold digMask at hw; omega)
    rw [Nat.add_mul] at hmul
    unfold digBase at hle hlt
    omega
  · intro hw
    have hmul := Nat.mul_le_mul_right p hw
    unfold digBase
    unfold digMask at hmul
    omega

theorem finished_zero (hintg : d.intg = 0) (hfrac : 0 < roundUp d.frac) :
    (finished d 0 0 (digBase :: l)).1 = ⟨1, 0, d.sign, 1 :: replicate l.length 0⟩ := by
  have hclear : cleared d 0 (digBase :: l) = digBase :: replicate l.length 0 := by
    simp [cleared, hintg, hfrac]
  have hfull : ¬ (l.length : ℤ) + 1 ≤ 0 := by omega
  unfold finished finishRound
  rw [hclear, getD_cons_zero]
  simp [hintg, carryUp, digPerDec1, powers10, hfull]

theorem WellFormed.split_words (h : d.WellFormed) (hS : S < d.frac)
    (hn : n = roundUp d.intg + roundUp S) (hp : p = 9 * roundUp S - S) :
    ∃ (ws low rest : List ℕ) (e : ℚ), d.buf = ws ++ (low ++ rest) ∧ ws.length = n ∧
      low.length + roundUp S = roundUp d.frac ∧ (∀ w ∈ ws ++ low, w < digBase) ∧
      e = evalDigits digBase low / (digBase : ℚ) ^ low.length ∧ 0 ≤ e ∧ e < 1 ∧
      d.abs * 10 ^ S = (evalDigits digBase ws + e) / 10 ^ p := by
  obtain ⟨rest, hwords⟩ := h.hasWords
  have hmono := roundUp_mono hS.le
  set all := d.intgWords ++ d.fracWords
  have hlen := hwords.length_eq
  have hlow : (all.drop n).length + roundUp S = roundUp d.frac := by
    rw [length_drop]
    omega
  have hlt : ∀ w ∈ all.take n ++ all.drop n, w < digBase := by
    rw [take_append_drop]
    exact hwords.lt
  refine ⟨all.take n, all.drop n, rest, _, ?_, by rw [length_take]; omega, hlow, hlt, rfl,
    by positivity, ?_, ?_⟩
  · rw [← append_assoc, take_append_drop, hwords.buf_eq]
  · have hdrop := evalDigits_lt fun w hw => hlt w (mem_append_right _ hw)
    rw [div_lt_one (by rw [digBase]; positivity)]
    exact_mod_cast hdrop
  · have hpow : (10 : ℚ) ^ S * 10 ^ p = (digBase : ℚ) ^ roundUp S := by
      have hroundUp : roundUp S = (S + 8) / 9 := rfl
      rw [← pow_add, show S + p = 9 * roundUp S by omega, pow_mul]
      norm_num [digBase]
    rw [eq_div_iff (by positivity), mul_assoc, hpow, hwords.abs_eq, ← hlow, pow_add,
      div_mul_eq_mul_div, mul_div_mul_right _ _ (digBase_pow_ne_zero _)]
    conv_lhs => rw [← take_append_drop n all, evalDigits_append, take_append_drop]
    rw [Nat.cast_add, Nat.cast_mul, Nat.cast_pow, add_div,
      mul_div_cancel_right₀ _ (digBase_pow_ne_zero _)]

theorem finished_spec {N : ℕ} (hlen : vs.length + 1 = roundUp d.intg + roundUp S)
    (hvs : ∀ w ∈ vs, w < digBase) (hv : v ≤ digBase)
    (hN : evalDigits digBase (vs ++ [v]) = N * 10 ^ (9 * roundUp S - S))
    (hle : N ≤ 10 ^ (d.intg + S)) :
    IsRounding (finished d S (vs.length + 1) (vs ++ v :: rest)).1 d.sign S (N / 10 ^ S) := by
  obtain ⟨rest', hclear⟩ := cleared_eq vs rest v hlen
  have hsum : S + (9 * roundUp S - S) = 9 * roundUp S := by
    unfold roundUp digPerDec1
    omega
  have hbound : N * 10 ^ (9 * roundUp S - S) ≤ 10 ^ (d.intg + 9 * roundUp S) := by
    rw [← hsum, ← Nat.add_assoc, pow_add _ (d.intg + S), hsum]
    exact Nat.mul_le_mul_right _ hle
  have hspec := finishRound_spec (d := { d with buf := vs ++ v :: rest' }) rfl hvs hv hlen
    (hN ▸ hbound) (hN ▸ Nat.dvd_mul_left _ _)
  have hq : ((N * 10 ^ (9 * roundUp S - S) : ℕ) : ℚ) / digBase ^ roundUp S = N / 10 ^ S := by
    have hpow : (digBase : ℚ) ^ roundUp S = 10 ^ S * 10 ^ (9 * roundUp S - S) := by
      rw [← pow_add, hsum, pow_mul]
      norm_num [digBase]
    rw [hpow, Nat.cast_mul, Nat.cast_pow, Nat.cast_ofNat, mul_div_mul_right _ _ (by positivity)]
  rw [hN, hq] at hspec
  unfold finished
  rwa [hclear]

theorem WellFormed.round_le (h : d.WellFormed) {N : ℕ} (hN : round (d.abs * 10 ^ S) = N) :
    N ≤ 10 ^ (d.intg + S) := by
  obtain ⟨rest, hwords⟩ := h.hasWords
  have hlt := (hwords.wellFormed_iff.mp h).1
  have hle : d.abs * 10 ^ S ≤ ((10 ^ (d.intg + S) : ℕ) : ℚ) := by
    have habs : d.abs ≤ 10 ^ d.intg := by
      rw [hwords.abs_eq, div_le_iff₀ (by rw [digBase]; positivity)]
      rw [pow_add, pow_mul] at hlt
      exact_mod_cast hlt.le
    rw [pow_add]
    push_cast
    exact mul_le_mul_of_nonneg_right habs (by positivity)
  rw [round_eq, Int.floor_eq_iff, Int.cast_natCast] at hN
  have hcast : (N : ℚ) < ((10 ^ (d.intg + S) + 1 : ℕ) : ℚ) := by
    push_cast at hle ⊢
    linarith [hN.1]
  exact Nat.lt_succ_iff.mp (by exact_mod_cast hcast)

theorem WellFormed.decimalRound_halfUp (h : d.WellFormed) (hS : S < d.frac) :
    IsRounding (d.decimalRound S .halfUp).1 d.sign S ((round (d.abs * 10 ^ S) : ℚ) / 10 ^ S) := by
  obtain ⟨n, hn⟩ : ∃ n, n = roundUp d.intg + roundUp S := ⟨_, rfl⟩
  obtain ⟨p, hp⟩ : ∃ p, p = 9 * roundUp S - S := ⟨_, rfl⟩
  obtain ⟨ws, low, rest, e, hbuf, hws, hlow, hlt, he, he0, he1, habs⟩ := h.split_words hS hn hp
  have hroundUp (k : ℕ) : roundUp k = (k + 8) / 9 := rfl
  have hS9 := hroundUp S
  have hF9 := hroundUp d.frac
  have hunits (hp0 : p = 0) : ∃ x low', low = x :: low' ∧ d.buf.getD n 0 = x ∧
      round (d.abs * 10 ^ S) =
        (if 5 ≤ x / digMask then evalDigits digBase ws + 1 else evalDigits digBase ws : ℕ) := by
    obtain ⟨x, low', rfl⟩ := exists_cons_of_length_pos (show 0 < low.length by omega)
    refine ⟨x, low', rfl, by rw [hbuf, ← hws]; simp, ?_⟩
    rw [habs, hp0, pow_zero, div_one, round_units he0 he1]
    simp only [he, half_le_iff (l := low') fun y hy => hlt y (by simp [hy])]
  rw [h.decimalRound_of_lt hS hn]
  rcases eq_nil_or_concat' ws with rfl | ⟨vs, w, rfl⟩
  · rw [length_nil] at hws
    obtain rfl : S = 0 := by omega
    have hintg : d.intg = 0 := by
      rw [hroundUp] at hn
      omega
    obtain ⟨x, low', rfl, hx, hround⟩ := hunits (by omega)
    subst hws
    rw [hx, hround, if_neg (lt_irrefl 0), if_pos (show 0 = roundUp 0 * 9 from rfl),
      hbuf, nil_append, cons_append, set_cons_zero]
    split
    case isTrue =>
      have hone := isRounding_pow (S := 0) (replicate (low' ++ rest).length 0)
        (by rw [hintg]) le_rfl
      rw [hintg] at hone
      rw [finished_zero hintg (by omega)]
      simpa using hone
    case isFalse =>
      rw [makeZero, hbuf]
      simpa using isRounding_zero (S := 0) d.sign (low' ++ rest)
  · rw [length_append, length_singleton] at hws
    have hw : w < digBase := hlt w (by simp)
    have hget : d.buf.getD (n - 1) 0 = w := by
      rw [hbuf, ← hws]
      simp
    have hset (y : ℕ) : d.buf.set (n - 1) y = vs ++ y :: (low ++ rest) := by
      rw [hbuf, ← hws]
      simp
    -- It is enough to give the rounded word.
    have hword {v N : ℕ} (hv : v ≤ digBase) (hN : evalDigits digBase (vs ++ [v]) = N * 10 ^ p)
        (hround : round (d.abs * 10 ^ S) = N) :
        IsRounding (finished d S n (vs ++ v :: (low ++ rest))).1 d.sign S
          ((round (d.abs * 10 ^ S) : ℚ) / 10 ^ S) := by
      rw [hround, ← hws]
      exact finished_spec (hws.trans hn) (fun y hy => hlt y (by simp [hy])) hv (hp ▸ hN)
        (h.round_le hround)
    rw [hget, hset, if_pos (by omega : 0 < n), hset, if_neg (by omega : n ≠ 0)]
    split
    case isTrue haligned =>
      obtain ⟨x, low', -, hx, hround⟩ := hunits (by omega)
      have hp0 : p = 0 := by omega
      rw [hx]
      split at hround
      case isTrue hup =>
        rw [if_pos hup]
        refine hword hw ?_ hround
        rw [hp0, pow_zero, mul_one, evalDigits_append, evalDigits_append, evalDigits_singleton,
          evalDigits_singleton]
        exact (Nat.add_assoc _ _ _).symm
      case isFalse hdown =>
        rw [if_neg hdown, show d.buf = vs ++ w :: (low ++ rest) by rw [hbuf]; simp]
        exact hword hw.le (by rw [hp0, pow_zero, mul_one]) hround
    case isFalse hinside =>
      obtain ⟨k, rfl⟩ : ∃ k, p = k + 1 := ⟨p - 1, by omega⟩
      have hk : k + 1 ≤ 9 := by omega
      have hround := round_digits (k := k) (a := evalDigits digBase (vs ++ [w])) he0 he1
      rw [← habs] at hround
      rw [show roundUp S * 9 - S - 1 = k by clear hunits; omega, roundWord_eq]
      refine hword (roundWord_le hk hw) ?_ hround
      rw [evalDigits_roundWord hk, Nat.mul_comm]

/-! ## The encoded number -/

def roundHalfAway (S : ℕ) (q : ℚ) : ℚ :=
  if q < 0 then -(round (-q * 10 ^ S) / 10 ^ S) else round (q * 10 ^ S) / 10 ^ S

/-- The number that `my_decimal2binary` encodes. -/
def encoded (d : Decimal) (S : ℕ) : Decimal :=
  if S < d.trimmed.frac then (d.trimmed.decimalRound S .halfUp).1 else d.trimmed

theorem myDecimal2binary_eq (d : Decimal) (P S : ℕ) :
    (d.myDecimal2binary P S).1 = ((d.encoded S).decimal2bin P S).1 ∧
      ((d.myDecimal2binary P S).2 = .overflow ↔
        ((d.encoded S).decimal2bin P S).2 = .overflow) := by
  have heq : d.myDecimal2binary P S = (((d.encoded S).decimal2bin P S).1,
      if ((d.encoded S).decimal2bin P S).2 = .ok then
        (if S < d.trimmed.frac then .truncated else .ok)
      else ((d.encoded S).decimal2bin P S).2) := by
    by_cases hlt : S < d.actualFraction <;>
      simp only [myDecimal2binary, encoded, trimmed, hlt, if_true, if_false]
  refine ⟨by rw [heq], ?_⟩
  rw [heq]
  split
  case isTrue hok =>
    rw [hok]
    split <;> simp
  case isFalse => rfl

theorem decimal2bin_overflow (hfrac : d.frac ≤ S) (h : P - S < d.removeLeadingZeroes.1) :
    (d.decimal2bin P S).2 = .overflow := by
  have hsub (x : ℕ) : x - x / 9 * 9 = x % 9 := by omega
  have hsize : ¬ S / 9 * 4 + dig2bytes (S % 9) < d.frac / 9 * 4 + dig2bytes (d.frac % 9) :=
    not_lt.mpr (digitBytes_mono hfrac)
  have hzero : ¬ d.removeLeadingZeroes.1 + (d.frac / 9 * 4 + dig2bytes (d.frac % 9)) = 0 := by omega
  unfold decimal2bin
  simp only [digPerDec1, hsub, if_neg hsize, if_neg hzero, if_pos h]

theorem roundHalfAway_value (S : ℕ) (d : Decimal) : roundHalfAway S d.value =
    if d.sign then -((round (d.abs * 10 ^ S) : ℚ) / 10 ^ S)
    else round (d.abs * 10 ^ S) / 10 ^ S := by
  have habs := d.abs_nonneg
  unfold roundHalfAway value
  cases d.sign
  · rw [if_neg Bool.false_ne_true, if_neg (not_lt.mpr habs), if_neg Bool.false_ne_true]
  · rw [if_pos rfl, if_pos rfl, neg_neg]
    rcases habs.eq_or_lt with hzero | hpos
    · simp [← hzero]
    · rw [if_pos (by linarith)]

theorem WellFormed.encoded (h : d.WellFormed) (S : ℕ) :
    (d.encoded S).WellFormed ∧ (d.encoded S).frac ≤ S ∧
      (d.encoded S).value = roundHalfAway S d.value ∧
      ((d.encoded S).sign = true → (d.encoded S).abs = 0 → (d.encoded S).frac = 0) := by
  obtain ⟨hwell, habs, hzero⟩ := h.trimmed
  rw [roundHalfAway_value, ← habs]
  unfold Decimal.encoded
  split
  case isTrue hlt =>
    have hround := hwell.decimalRound_halfUp hlt
    refine ⟨hround.wellFormed, hround.frac_le, ?_, ?_⟩
    · rw [value, hround.sign_eq, hround.abs_eq]
      by_cases hq : (round (d.trimmed.abs * 10 ^ S) : ℚ) / 10 ^ S = 0
      · simp [hq]
      · rw [decide_eq_true hq, Bool.and_true]
        rfl
    · intro hsign hzero
      rw [hround.sign_eq, ← hround.abs_eq, hzero] at hsign
      simp at hsign
  case isFalse hle =>
    refine ⟨hwell, not_lt.mp hle, ?_, fun _ hz => hzero (habs ▸ hz)⟩
    have hscaled := hwell.scaled_eq (not_lt.mp hle)
    have hround : (round (d.trimmed.abs * 10 ^ S) : ℚ) / 10 ^ S = d.trimmed.abs := by
      rw [← hscaled, round_natCast, Int.cast_natCast, hscaled,
        mul_div_cancel_right₀ _ (by positivity)]
    rw [hround]
    rfl

theorem WellFormed.length_decimal2bin (h : d.WellFormed) (hfrac : d.frac ≤ S)
    (hint : d.removeLeadingZeroes.1 ≤ P - S) :
    (d.decimal2bin P S).1.length = decimalBinSize P S := by
  rw [h.decimal2bin_eq hfrac hint, length_flipFirst, length_masked, length_absBytes]

/-- The bytes of two numbers are ordered as the rounded numbers. -/
theorem memcmp_myDecimal2binary {a b : Decimal} (hP : 0 < P) (ha : a.WellFormed) (hb : b.WellFormed)
    (hafit : (a.myDecimal2binary P S).2 ≠ .overflow)
    (hbfit : (b.myDecimal2binary P S).2 ≠ .overflow) :
    (a.myDecimal2binary P S).1.length = decimalBinSize P S ∧
      (b.myDecimal2binary P S).1.length = decimalBinSize P S ∧
      memcmp (a.myDecimal2binary P S).1 (b.myDecimal2binary P S).1 =
        compare (roundHalfAway S a.value) (roundHalfAway S b.value) := by
  have hfits {d : Decimal} (h : d.WellFormed) (hfit : (d.myDecimal2binary P S).2 ≠ .overflow) :
      (d.encoded S).removeLeadingZeroes.1 ≤ P - S := by
    by_contra hover
    exact hfit ((myDecimal2binary_eq d P S).2.mpr
      (decimal2bin_overflow (h.encoded S).2.1 (not_le.mp hover)))
  obtain ⟨hawell, hafrac, havalue, hazero⟩ := ha.encoded S
  obtain ⟨hbwell, hbfrac, hbvalue, hbzero⟩ := hb.encoded S
  rw [(myDecimal2binary_eq a P S).1, (myDecimal2binary_eq b P S).1, ← havalue, ← hbvalue]
  exact ⟨hawell.length_decimal2bin hafrac (hfits ha hafit),
    hbwell.length_decimal2bin hbfrac (hfits hb hbfit),
    hawell.memcmp_decimal2bin hP hbwell hafrac hbfrac (hfits ha hafit) (hfits hb hbfit) hazero
      hbzero⟩

/-- The numbers `-0.95` and `1234567890.005` of one type, where one of them carries into a new
digit. -/
theorem memcmp_myDecimal2binary_carry :
    let a : Decimal := ⟨0, 2, true, [950000000, 0, 0, 0, 0, 0, 0, 0, 0]⟩
    let b : Decimal := ⟨10, 3, false, [1, 234567890, 5000000, 0, 0, 0, 0, 0, 0]⟩
    memcmp (a.myDecimal2binary 12 1).1 (b.myDecimal2binary 12 1).1 =
      compare (roundHalfAway 1 a.value) (roundHalfAway 1 b.value) :=
  (memcmp_myDecimal2binary (by decide) (by decide) (by decide) (by decide +kernel)
    (by decide +kernel)).2.2

end MySQL.Strings.Decimal
