import MySQL.Strings.Decimal

/-!
# The value of a fixed-point number
-/

namespace MySQL.Strings

open Lib List

theorem roundUp_eq (x : ℕ) : roundUp x = x / 9 + if x % 9 = 0 then 0 else 1 := by
  unfold roundUp digPerDec1
  split <;> omega

theorem roundUp_pos {x : ℕ} (h : 0 < x) : roundUp x = (x - 1) / 9 + 1 := by
  unfold roundUp digPerDec1
  omega

@[simp] theorem roundUp_zero : roundUp 0 = 0 := rfl

namespace Decimal

variable {d : Decimal} {i k n w : ℕ} {l ws rest : List ℕ}

def intgWords (d : Decimal) : List ℕ := d.buf.take (roundUp d.intg)

def fracWords (d : Decimal) : List ℕ := (d.buf.drop (roundUp d.intg)).take (roundUp d.frac)

/-- The words are in the range of nine digits, and the first word of the integer part and the
last word of the fraction have no more digits than `intg` and `frac` announce. -/
structure WellFormed (d : Decimal) : Prop where
  length : roundUp d.intg + roundUp d.frac ≤ d.buf.length
  words : ∀ w ∈ d.intgWords ++ d.fracWords, w < digBase
  head : ∀ w ∈ d.intgWords.head?, w < 10 ^ ((d.intg - 1) % 9 + 1)
  last : ∀ w ∈ d.fracWords.getLast?, 10 ^ (8 - (d.frac - 1) % 9) ∣ w

instance : DecidablePred WellFormed := fun d =>
  decidable_of_iff
    (roundUp d.intg + roundUp d.frac ≤ d.buf.length ∧
      (∀ w ∈ d.intgWords ++ d.fracWords, w < digBase) ∧
      (∀ w ∈ d.intgWords.head?, w < 10 ^ ((d.intg - 1) % 9 + 1)) ∧
      ∀ w ∈ d.fracWords.getLast?, 10 ^ (8 - (d.frac - 1) % 9) ∣ w)
    ⟨fun ⟨length, words, head, last⟩ => ⟨length, words, head, last⟩,
      fun h => ⟨h.length, h.words, h.head, h.last⟩⟩

def intgValue (d : Decimal) : ℕ := evalDigits digBase d.intgWords

def fracValue (d : Decimal) : ℕ := evalDigits digBase d.fracWords

def abs (d : Decimal) : ℚ := d.intgValue + d.fracValue / digBase ^ d.fracWords.length

def value (d : Decimal) : ℚ := if d.sign then -d.abs else d.abs

theorem intgValue_eq_zero (h : d.intg = 0) : d.intgValue = 0 := by
  rw [intgValue, intgWords, h, roundUp_zero, take_zero, evalDigits_nil]

theorem fracValue_eq_zero (h : d.frac = 0) : d.fracValue = 0 := by
  rw [fracValue, fracWords, h, roundUp_zero, take_zero, evalDigits_nil]

theorem WellFormed.length_intgWords (h : d.WellFormed) : d.intgWords.length = roundUp d.intg := by
  have hlen := h.length
  rw [intgWords, length_take]
  omega

theorem WellFormed.length_fracWords (h : d.WellFormed) : d.fracWords.length = roundUp d.frac := by
  have hlen := h.length
  rw [fracWords, length_take, length_drop]
  omega

theorem buf_eq (d : Decimal) : ∃ rest, d.buf = d.intgWords ++ (d.fracWords ++ rest) :=
  ⟨(d.buf.drop (roundUp d.intg)).drop (roundUp d.frac), by
    rw [fracWords, take_append_drop, intgWords, take_append_drop]⟩

theorem words_of_buf {iw fw rest : List ℕ} (hbuf : d.buf = iw ++ (fw ++ rest))
    (hint : iw.length = roundUp d.intg) (hfrac : fw.length = roundUp d.frac) :
    d.intgWords = iw ∧ d.fracWords = fw := by
  rw [intgWords, fracWords, hbuf, ← hint, ← hfrac, take_left, drop_left, take_left]
  exact ⟨rfl, rfl⟩

/-! ## Numbers given by their words -/

theorem digBase_eq : digBase = 10 ^ 9 := rfl

theorem digBase_pow_ne_zero (k : ℕ) : (digBase : ℚ) ^ k ≠ 0 := by
  norm_num [digBase]

theorem evalDigits_lt_iff (hl : l.length = roundUp n) (hlt : ∀ w ∈ l, w < digBase) :
    evalDigits digBase l < 10 ^ n ↔ ∀ w ∈ l.head?, w < 10 ^ ((n - 1) % 9 + 1) := by
  cases l with
  | nil => simp
  | cons u us =>
    have hn : n = (n - 1) % 9 + 1 + 9 * us.length := by
      unfold roundUp digPerDec1 at hl
      rw [length_cons] at hl
      omega
    have hus := evalDigits_lt fun w hw => hlt w (mem_cons_of_mem u hw)
    have hdiv : evalDigits digBase (u :: us) / digBase ^ us.length = u := by
      rw [evalDigits_cons, Nat.mul_comm, Nat.mul_add_div (Nat.pow_pos (by decide)),
        Nat.div_eq_of_lt hus, Nat.add_zero]
    conv_lhs => rw [hn, pow_add, pow_mul, ← digBase_eq,
      ← Nat.div_lt_iff_lt_mul (Nat.pow_pos (by decide)), hdiv]
    simp

theorem dvd_evalDigits_iff (hl : l.length = roundUp n) :
    10 ^ (9 * roundUp n - n) ∣ evalDigits digBase l ↔
      ∀ w ∈ l.getLast?, 10 ^ (8 - (n - 1) % 9) ∣ w := by
  rcases eq_nil_or_concat' l with rfl | ⟨us, u, rfl⟩
  · simp
  · have hpow : 9 * roundUp n - n = 8 - (n - 1) % 9 := by
      unfold roundUp digPerDec1 at *
      rw [length_append, length_singleton] at hl
      omega
    have hbase : 10 ^ (8 - (n - 1) % 9) ∣ digBase := by
      rw [digBase_eq]
      exact pow_dvd_pow 10 (by omega)
    rw [evalDigits_append, length_singleton, pow_one, hpow,
      Nat.dvd_add_right (Dvd.dvd.mul_left hbase _)]
    simp

/-- The words `ws` of a number, in front of the unused ones. -/
structure HasWords (d : Decimal) (ws rest : List ℕ) : Prop where
  buf_eq : d.buf = ws ++ rest
  length_eq : ws.length = roundUp d.intg + roundUp d.frac
  lt : ∀ w ∈ ws, w < digBase

theorem WellFormed.hasWords (h : d.WellFormed) :
    ∃ rest, d.HasWords (d.intgWords ++ d.fracWords) rest := by
  obtain ⟨rest, hbuf⟩ := d.buf_eq
  refine ⟨rest, by rw [append_assoc, ← hbuf], ?_, h.words⟩
  rw [length_append, h.length_intgWords, h.length_fracWords]

theorem HasWords.eq_append (h : d.HasWords ws rest) :
    ws = d.intgWords ++ d.fracWords ∧ d.intgWords.length = roundUp d.intg ∧
      d.fracWords.length = roundUp d.frac := by
  have hlen := h.length_eq
  obtain ⟨hint, hfrac⟩ := words_of_buf
    (by rw [h.buf_eq, ← append_assoc, take_append_drop (roundUp d.intg) ws])
    (by rw [length_take]; omega) (by rw [length_drop]; omega)
  rw [hint, hfrac, take_append_drop, length_take, length_drop]
  exact ⟨rfl, by omega, by omega⟩

theorem HasWords.abs_eq (h : d.HasWords ws rest) :
    d.abs = evalDigits digBase ws / digBase ^ roundUp d.frac := by
  obtain ⟨rfl, -, hfw⟩ := h.eq_append
  rw [evalDigits_append, hfw, Nat.cast_add, Nat.cast_mul, Nat.cast_pow, add_div,
    mul_div_cancel_right₀ _ (digBase_pow_ne_zero _), abs, hfw]
  rfl

/-- A number is well formed if its value has the announced digits. -/
theorem HasWords.wellFormed_iff (h : d.HasWords ws rest) :
    d.WellFormed ↔ evalDigits digBase ws < 10 ^ (d.intg + 9 * roundUp d.frac) ∧
      10 ^ (9 * roundUp d.frac - d.frac) ∣ evalDigits digBase ws := by
  obtain ⟨rfl, hiw, hfw⟩ := h.eq_append
  have hlt := h.lt
  have hhead := evalDigits_lt_iff hiw fun w hw => hlt w (mem_append_left _ hw)
  have hlast := dvd_evalDigits_iff hfw
  have hfv := evalDigits_lt fun w hw => hlt w (mem_append_right d.intgWords hw)
  have hunit : 10 ^ (9 * roundUp d.frac - d.frac) ∣ digBase ^ roundUp d.frac := by
    rw [digBase_eq, ← pow_mul]
    exact pow_dvd_pow 10 (Nat.sub_le _ _)
  have hdiv : (evalDigits digBase d.intgWords * digBase ^ roundUp d.frac +
      evalDigits digBase d.fracWords) / digBase ^ roundUp d.frac =
        evalDigits digBase d.intgWords := by
    rw [Nat.mul_comm, Nat.mul_add_div (Nat.pow_pos (by decide)),
      Nat.div_eq_of_lt (by rwa [hfw] at hfv), Nat.add_zero]
  rw [evalDigits_append, hfw, pow_add, pow_mul, ← digBase_eq,
    ← Nat.div_lt_iff_lt_mul (Nat.pow_pos (by decide)), hdiv,
    Nat.dvd_add_right (Dvd.dvd.mul_left hunit _), hhead, hlast]
  refine ⟨fun hd => ⟨hd.head, hd.last⟩, fun ⟨hfirst, hlast⟩ => ⟨?_, hlt, hfirst, hlast⟩⟩
  rw [h.buf_eq, length_append, h.length_eq]
  omega

/-! ## Leading zeros -/

/-- A word of `j + 1` digits in front of `t` words begins a number of `k` digits. -/
def Leads (k u : ℕ) (t : List ℕ) : Prop :=
  ∃ j ≤ 8, k = 9 * t.length + j + 1 ∧ 10 ^ j ≤ u ∧ u < 10 ^ (j + 1)

theorem Leads.roundUp_eq {u : ℕ} (h : Leads k u l) : roundUp k = (u :: l).length := by
  obtain ⟨j, hj, rfl, -⟩ := h
  rw [roundUp_pos (by omega), length_cons]
  omega

theorem skipZeroWords_le (k i : ℕ) (l : List ℕ) : (skipZeroWords k i l).1 ≤ k := by
  induction l generalizing k i with
  | nil => exact le_rfl
  | cons w l ih =>
    rw [skipZeroWords]
    split
    · exact (ih _ _).trans (Nat.sub_le k i)
    · exact le_rfl

theorem skipZeroDigits_le (w i k : ℕ) : skipZeroDigits w i k ≤ k := by
  induction i generalizing k with
  | zero => exact le_rfl
  | succ i ih =>
    rw [skipZeroDigits]
    split
    · exact (ih _).trans (Nat.sub_le k 1)
    · exact le_rfl

theorem removeLeadingZeroes_le (d : Decimal) : d.removeLeadingZeroes.1 ≤ d.intg := by
  have hwords := skipZeroWords_le d.intg ((d.intg - 1) % digPerDec1 + 1) d.buf
  simp only [removeLeadingZeroes]
  split
  · exact (skipZeroDigits_le _ _ _).trans hwords
  · exact Nat.zero_le _

theorem skipZeroDigits_eq (hpos : 0 < w) (hw : w < 10 ^ (i + 1)) (hk : i < k) :
    ∃ j ≤ i, skipZeroDigits w i k = k - (i - j) ∧ 10 ^ j ≤ w ∧ w < 10 ^ (j + 1) := by
  induction i generalizing k with
  | zero =>
    refine ⟨0, le_rfl, by simp [skipZeroDigits], ?_, hw⟩
    rwa [pow_zero]
  | succ i ih =>
    rw [skipZeroDigits, powers10]
    by_cases hlt : w < 10 ^ (i + 1)
    · obtain ⟨j, hj, heq, hle, hlt'⟩ := ih (k := k - 1) hlt (by omega)
      refine ⟨j, by omega, ?_, hle, hlt'⟩
      rw [if_pos hlt]
      omega
    · exact ⟨i + 1, le_rfl, by rw [if_neg hlt]; omega, not_lt.mp hlt, hw⟩

theorem skipZeroWords_full (rest : List ℕ) (hk : k = 9 * ws.length) :
    ∃ z us, ws = replicate z 0 ++ us ∧ us.head? ≠ some 0 ∧
      skipZeroWords k 9 (ws ++ rest) = (9 * us.length, us ++ rest) := by
  induction ws generalizing k with
  | nil =>
    subst hk
    cases rest <;> simp [skipZeroWords]
  | cons w ws ih =>
    rw [length_cons] at hk
    by_cases hw : w = 0
    · obtain ⟨z, us, rfl, hhead, heq⟩ := ih (k := k - 9) (by omega)
      refine ⟨z + 1, us, by simp [replicate_succ, hw], hhead, ?_⟩
      rw [cons_append, skipZeroWords, if_pos ⟨by omega, hw⟩]
      exact heq
    · refine ⟨0, w :: ws, rfl, by simpa using hw, ?_⟩
      rw [cons_append, skipZeroWords, if_neg (fun h => hw h.2), hk]
      simp

theorem skipZeroDigits_leads {u : ℕ} (hpos : 0 < u) (hi : i ≤ 8) (hu : u < 10 ^ (i + 1))
    (hk : k = 9 * l.length + i + 1) : Leads (skipZeroDigits u i k) u l := by
  obtain ⟨j, hj, heq, hle, hlt⟩ := skipZeroDigits_eq (k := k) hpos hu (by omega)
  exact ⟨j, by omega, by omega, hle, hlt⟩

theorem WellFormed.removeLeadingZeroes_eq (h : d.WellFormed) (hbuf : d.buf = d.intgWords ++ rest) :
    (∃ z, d.intgWords = replicate z 0 ∧ d.removeLeadingZeroes = (0, rest)) ∨
      ∃ z u us k, d.intgWords = replicate z 0 ++ u :: us ∧
        d.removeLeadingZeroes = (k, u :: us ++ rest) ∧ Leads k u us := by
  have hlen := h.length_intgWords
  have hwords : ∀ w ∈ d.intgWords, w < digBase := fun w hw =>
    h.words w (mem_append_left _ hw)
  have hhead := h.head
  unfold removeLeadingZeroes
  rw [hbuf]
  cases hws : d.intgWords with
  | nil =>
    rw [hws, length_nil] at hlen
    have hintg : d.intg = 0 := by
      unfold roundUp digPerDec1 at hlen
      omega
    cases rest <;> simp [hintg, skipZeroWords]
  | cons w ws =>
    rw [hws, length_cons] at hlen
    have hintg : d.intg = 9 * ws.length + (d.intg - 1) % 9 + 1 := by
      unfold roundUp digPerDec1 at hlen
      omega
    have hpos : 0 < d.intg := by omega
    rw [cons_append, skipZeroWords]
    by_cases hw : w = 0
    · obtain ⟨z, us, hz, hne, heq⟩ := skipZeroWords_full rest
        (show d.intg - ((d.intg - 1) % 9 + 1) = 9 * ws.length by omega)
      have hcons : w :: ws = replicate (z + 1) 0 ++ us := by
        rw [hz, hw, replicate_succ, cons_append]
      rw [if_pos ⟨hpos, hw⟩]
      simp only [digPerDec1, heq]
      cases us with
      | nil => exact .inl ⟨z + 1, by simpa using hcons, by simp⟩
      | cons u us =>
        have hu : u < digBase := hwords u (by rw [hws, hcons]; simp)
        refine .inr ⟨z + 1, u, us, skipZeroDigits u 8 (9 * (us.length + 1)), hcons, ?_, ?_⟩
        · simp only [length_cons, cons_append, headD_cons]
          rw [if_pos (by omega), show (9 * (us.length + 1) - 1) % 9 = 8 by omega]
        · exact skipZeroDigits_leads (Nat.pos_of_ne_zero (by simpa using hne)) le_rfl hu
            (by omega)
    · rw [if_neg (fun h => hw h.2)]
      refine .inr ⟨0, w, ws, skipZeroDigits w ((d.intg - 1) % 9) d.intg, rfl, ?_, ?_⟩
      · simp only [headD_cons, digPerDec1]
        rw [if_pos hpos, cons_append]
      · exact skipZeroDigits_leads (Nat.pos_of_ne_zero hw) (by omega)
          (hhead w (by simp [hws])) (by omega)

end Decimal

end MySQL.Strings
