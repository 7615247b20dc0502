import MySQL.Strings.DecimalOrder
import MySQL.Strings.DecimalText

/-!
# Printing and reading

The text is described by the digits on both sides of the point, and so is the number that is
read from it, so that both round trips come down to numerals of one value.
-/

namespace MySQL.Strings

open Lib List

theorem digitVal_digitChar {n : ℕ} (h : n < 10) : digitVal (digitChar n) = n := by
  interval_cases n <;> rfl

theorem isDigit_digitChar {n : ℕ} (h : n < 10) : (digitChar n).isDigit = true := by
  interval_cases n <;> rfl

theorem isDigit_iff {c : Char} : c.isDigit = true ↔ 48 ≤ c.toNat ∧ c.toNat ≤ 57 := by
  rw [Char.isDigit, Bool.and_eq_true, decide_eq_true_eq, decide_eq_true_eq, ge_iff_le]
  rfl

theorem digitVal_lt {c : Char} (h : c.isDigit = true) : digitVal c < 10 := by
  have hc := isDigit_iff.mp h
  change c.toNat - 48 < 10
  omega

theorem digitChar_digitVal {c : Char} (h : c.isDigit = true) : digitChar (digitVal c) = c := by
  have hc := isDigit_iff.mp h
  change Char.ofNat (48 + (c.toNat - 48)) = c
  rw [Nat.add_sub_cancel' hc.1, Char.ofNat_toNat]

theorem map_digitVal_digitChar {l : List ℕ} (h : ∀ x ∈ l, x < 10) :
    (l.map digitChar).map digitVal = l := by
  rw [List.map_map]
  exact (map_congr_left fun x hx => digitVal_digitChar (h x hx)).trans (List.map_id l)

theorem map_digitChar_digitVal {s : List Char} (h : ∀ c ∈ s, c.isDigit = true) :
    (s.map digitVal).map digitChar = s := by
  rw [List.map_map]
  exact (map_congr_left fun c hc => digitChar_digitVal (h c hc)).trans (List.map_id s)

theorem digitVal_lt_of_mem {s : List Char} (h : ∀ c ∈ s, c.isDigit = true) :
    ∀ x ∈ s.map digitVal, x < 10 := by
  intro x hx
  obtain ⟨c, hc, rfl⟩ := List.mem_map.mp hx
  exact digitVal_lt (h c hc)

namespace Decimal

variable {d dst : Decimal} {i k n u w x : ℕ} {l us ws rest : List ℕ} {s : List Char}

/-! ## Printing -/

theorem intgChars_eq (s : List Char) : intgChars i x s = (bigEndian 10 i x).map digitChar ++ s := by
  induction i generalizing x s with
  | zero => rfl
  | succ i ih =>
    have hdigit : x - x / 10 * 10 = x % 10 := by omega
    rw [intgChars, ih, hdigit, bigEndian_concat (by decide), map_append, append_assoc]
    rfl

theorem intgText_full (s : List Char) :
    intgText (9 * l.length + k) (l.reverse ++ ws) s =
      intgText k ws ((l.flatMap (bigEndian 10 9)).map digitChar ++ s) := by
  induction l generalizing k ws with
  | nil => simp
  | cons w l ih =>
    rw [length_cons, reverse_cons, append_assoc, Nat.mul_succ, Nat.add_assoc, ih,
      singleton_append, intgText, if_pos (by omega), digPerDec1, Nat.add_sub_cancel_left,
      Nat.min_eq_right (Nat.le_add_right 9 k), intgChars_eq, flatMap_cons, map_append,
      append_assoc]

theorem Leads.intgText_eq (h : Leads k u us) (hus : ∀ w ∈ us, w < digBase) :
    intgText k (u :: us).reverse [] =
      (bigEndian 10 k (evalDigits digBase (u :: us))).map digitChar := by
  obtain ⟨j, hj, rfl, -, hu⟩ := h
  rw [reverse_cons, Nat.add_assoc, intgText_full, intgText, digPerDec1,
    Nat.min_eq_left (by omega), intgChars_eq,
    append_nil, ← map_append, evalDigits_cons, Nat.add_comm (9 * us.length),
    ← bigEndian_evalDigits (by decide) hus]
  rfl

theorem fracChars_eq (hi : i ≤ 9) (hx : x < digBase) :
    fracChars i x = (bigEndian 10 i (x / 10 ^ (9 - i))).map digitChar := by
  induction i generalizing x with
  | zero => rfl
  | succ i ih =>
    have hmod : x - x / digMask * digMask = x % 10 ^ 8 := by
      rw [Nat.mod_eq_sub_div_mul]
      rfl
    have hlt : x % 10 ^ 8 * 10 < digBase := by
      rw [digBase_eq]
      omega
    have hpow : 10 ^ (9 - i) = 10 ^ (8 - i) * 10 := by
      rw [← pow_succ]
      congr 1
      omega
    have hdigit : x / 10 ^ (8 - i) / 10 ^ i % 10 = x / digMask := by
      rw [Nat.div_div_eq_div_mul, ← pow_add, Nat.sub_add_cancel (by omega)]
      apply Nat.mod_eq_of_lt
      rw [digBase_eq] at hx
      omega
    rw [fracChars, bigEndian, Nat.sub_add_eq, Nat.sub_right_comm]
    rw [hdigit, hmod, ih (by omega) hlt, hpow, Nat.mul_div_mul_right _ _ (by decide)]
    congr 2
    apply bigEndian_congr
    have hsplit : 10 ^ 8 = 10 ^ (8 - i) * 10 ^ i := by
      rw [← pow_add, Nat.sub_add_cancel (by omega)]
    rw [hsplit, Nat.mod_mul_right_div_self, Nat.mod_mod]

theorem fracText_eq (hn : n ≤ 9 * l.length) (hl : ∀ w ∈ l, w < digBase) :
    fracText n (l ++ rest) = ((l.flatMap (bigEndian 10 9)).take n).map digitChar := by
  induction l generalizing n with
  | nil =>
    obtain rfl : n = 0 := by simpa using hn
    cases rest <;> simp [fracText]
  | cons w l ih =>
    rw [forall_mem_cons] at hl
    rw [length_cons] at hn
    rw [cons_append, fracText, flatMap_cons, take_append]
    by_cases hpos : 0 < n
    · rw [if_pos hpos, digPerDec1, ih (by omega) hl.2, fracChars_eq (Nat.min_le_right n 9) hl.1,
        ← take_bigEndian (by decide) (Nat.min_le_right n 9), map_append]
      congr 2
      rcases Nat.le_total n 9 with hle | hle
      · rw [Nat.min_eq_left hle]
      · rw [Nat.min_eq_right hle, take_of_length_le (by simp),
          take_of_length_le (by simpa using hle)]
    · obtain rfl := Nat.eq_zero_of_not_pos hpos
      simp

def intgDigits (d : Decimal) : List ℕ :=
  if d.removeLeadingZeroes.1 = 0 then [0] else bigEndian 10 d.removeLeadingZeroes.1 d.intgValue

def fracDigits (d : Decimal) : List ℕ := (d.fracWords.flatMap (bigEndian 10 9)).take d.frac

def text (d : Decimal) : List Char :=
  (if d.sign then ['-'] else []) ++ d.intgDigits.map digitChar ++
    if d.frac ≠ 0 then '.' :: d.fracDigits.map digitChar else []

theorem WellFormed.length_flatMap_fracWords (h : d.WellFormed) :
    (d.fracWords.flatMap (bigEndian 10 9)).length = 9 * roundUp d.frac := by
  rw [length_flatMap_bigEndian, h.length_fracWords]

theorem le_roundUp (n : ℕ) : n ≤ 9 * roundUp n := by
  unfold roundUp digPerDec1
  omega

theorem WellFormed.length_fracDigits (h : d.WellFormed) : d.fracDigits.length = d.frac := by
  rw [fracDigits, length_take, h.length_flatMap_fracWords]
  exact Nat.min_eq_left (le_roundUp _)

theorem fracDigits_lt (d : Decimal) : ∀ x ∈ d.fracDigits, x < 10 := by
  intro x hx
  obtain ⟨w, -, hw⟩ := mem_flatMap.mp (mem_of_mem_take hx)
  exact bigEndian_lt (by decide) x hw

theorem intgDigits_lt (d : Decimal) : ∀ x ∈ d.intgDigits, x < 10 := by
  intro x hx
  unfold intgDigits at hx
  split at hx
  · simp only [mem_singleton] at hx
    omega
  · exact bigEndian_lt (by decide) x hx

theorem WellFormed.fracValue_eq (h : d.WellFormed) :
    d.fracValue = evalDigits 10 d.fracDigits * 10 ^ (9 * roundUp d.frac - d.frac) := by
  set flat := d.fracWords.flatMap (bigEndian 10 9) with hflat
  have hdrop : (flat.drop d.frac).length = 9 * roundUp d.frac - d.frac := by
    rw [length_drop, h.length_flatMap_fracWords]
  have hvalue : d.fracValue = evalDigits 10 d.fracDigits * 10 ^ (9 * roundUp d.frac - d.frac) +
      evalDigits 10 (flat.drop d.frac) := by
    rw [← hdrop, fracDigits, ← evalDigits_append, take_append_drop,
      evalDigits_flatMap (by decide) h.fracWords_lt]
    rfl
  -- The digits behind the last one are a multiple of what they are below.
  have hzero : evalDigits 10 (flat.drop d.frac) = 0 := by
    have hlt : evalDigits 10 (flat.drop d.frac) < 10 ^ (flat.drop d.frac).length := by
      apply evalDigits_lt
      intro x hx
      obtain ⟨w, -, hw⟩ := mem_flatMap.mp (mem_of_mem_drop hx)
      exact bigEndian_lt (by decide) x hw
    refine Nat.eq_zero_of_dvd_of_lt ?_ hlt
    rw [hdrop, ← Nat.dvd_add_right (Dvd.intro_left _ rfl), ← hvalue]
    exact (dvd_evalDigits_iff h.length_fracWords).mpr h.last
  rw [hvalue, hzero, Nat.add_zero]

theorem Leads.evalDigits_lt (h : Leads k u us) (hus : ∀ w ∈ us, w < digBase) :
    evalDigits digBase (u :: us) < 10 ^ k := by
  obtain ⟨j, -, rfl, -, hu⟩ := h
  have htail := Lib.evalDigits_lt hus
  have hmul := Nat.mul_le_mul_right (digBase ^ us.length) (Nat.succ_le_of_lt hu)
  rw [evalDigits_cons, Nat.add_assoc, Nat.add_comm (9 * us.length), pow_add, pow_mul, ← digBase_eq]
  rw [Nat.succ_mul] at hmul
  omega

theorem Leads.le_evalDigits (h : Leads k u us) : 10 ^ (k - 1) ≤ evalDigits digBase (u :: us) := by
  obtain ⟨j, -, rfl, hle, -⟩ := h
  rw [evalDigits_cons, Nat.add_sub_cancel, Nat.add_comm, pow_add, pow_mul]
  exact le_add_right (Nat.mul_le_mul_right _ hle)

theorem WellFormed.intgValue_bounds (h : d.WellFormed) :
    d.intgValue < 10 ^ d.removeLeadingZeroes.1 ∧
      (d.removeLeadingZeroes.1 ≠ 0 → 10 ^ (d.removeLeadingZeroes.1 - 1) ≤ d.intgValue) := by
  obtain ⟨rest, hbuf⟩ := d.buf_eq
  rcases h.removeLeadingZeroes_eq hbuf with ⟨z, hz, hr⟩ | ⟨z, u, us, k, hz, hr, hlead⟩
  · rw [hr, intgValue, hz, evalDigits_zeros]
    exact ⟨Nat.one_pos, fun hne => absurd rfl hne⟩
  · have hus : ∀ w ∈ us, w < digBase := fun w hw => h.intgWords_lt w (by simp [hz, hw])
    rw [hr, intgValue, hz, evalDigits_replicate_append]
    exact ⟨hlead.evalDigits_lt hus, fun _ => hlead.le_evalDigits⟩

theorem WellFormed.evalDigits_intgDigits (h : d.WellFormed) :
    evalDigits 10 d.intgDigits = d.intgValue := by
  have hlt := h.intgValue_bounds.1
  unfold intgDigits
  split
  next hzero =>
    rw [hzero] at hlt
    rw [evalDigits_singleton]
    omega
  next => rw [evalDigits_bigEndian, Nat.mod_eq_of_lt hlt]

theorem WellFormed.head_intgDigits (h : d.WellFormed) :
    d.intgDigits = [0] ∨ d.intgDigits.head? ≠ some 0 := by
  obtain ⟨hlt, hle⟩ := h.intgValue_bounds
  unfold intgDigits
  split
  next => exact .inl rfl
  next hne =>
    replace hle := hle hne
    obtain ⟨k, hk⟩ := Nat.exists_eq_succ_of_ne_zero hne
    rw [hk] at hlt hle ⊢
    refine .inr ?_
    rw [bigEndian, List.head?_cons, ne_eq, Option.some_inj,
      Nat.mod_eq_of_lt (Nat.div_lt_of_lt_mul (by rwa [← pow_succ])), Nat.div_eq_zero_iff, not_or,
      not_lt]
    exact ⟨by positivity, hle⟩

theorem length_intgDigits (d : Decimal) : d.intgDigits.length = max d.removeLeadingZeroes.1 1 := by
  unfold intgDigits
  split
  next hzero => rw [hzero]; rfl
  next hzero =>
    rw [length_bigEndian]
    omega

section

variable (h : d.WellFormed)

include h

theorem WellFormed.length_text :
    d.text.length = d.sign.toNat + max d.removeLeadingZeroes.1 1 +
      (if d.frac ≠ 0 then 1 else 0) + d.frac := by
  have hfrac := h.length_fracDigits
  unfold text
  cases d.sign <;> by_cases hzero : d.frac = 0 <;>
    simp [hzero, d.length_intgDigits, hfrac] <;> omega

theorem WellFormed.length_text_lt : d.text.length + 1 ≤ d.decimalStringSize := by
  have hle := d.removeLeadingZeroes_le
  have hsign := d.sign.toNat_le
  rw [h.length_text, decimalStringSize]
  split_ifs <;> omega

theorem WellFormed.intgText_eq (hne : d.removeLeadingZeroes.1 ≠ 0) :
    intgText d.removeLeadingZeroes.1
        (d.removeLeadingZeroes.2.take (roundUp d.removeLeadingZeroes.1)).reverse [] =
      d.intgDigits.map digitChar := by
  obtain ⟨rest, hbuf⟩ := d.buf_eq
  rcases h.removeLeadingZeroes_eq hbuf with ⟨z, hz, hr⟩ | ⟨z, u, us, k, hz, hr, hlead⟩
  · exact absurd (by rw [hr]) hne
  · have hus : ∀ w ∈ us, w < digBase := fun w hw => h.intgWords_lt w (by simp [hz, hw])
    rw [intgDigits, if_neg hne, hr, hlead.roundUp_eq, take_left, hlead.intgText_eq hus, intgValue,
      hz, evalDigits_replicate_append]

theorem WellFormed.fracText_eq :
    fracText d.frac (d.removeLeadingZeroes.2.drop (roundUp d.removeLeadingZeroes.1)) =
      d.fracDigits.map digitChar := by
  obtain ⟨rest, hbuf⟩ := d.buf_eq
  have hprint : fracText d.frac (d.fracWords ++ rest) = d.fracDigits.map digitChar :=
    Decimal.fracText_eq (by rw [h.length_fracWords]; exact le_roundUp _) h.fracWords_lt
  rcases h.removeLeadingZeroes_eq hbuf with ⟨z, hz, hr⟩ | ⟨z, u, us, k, hz, hr, hlead⟩
  · simp only [hr, roundUp_zero, drop_zero, hprint]
  · rw [hr, hlead.roundUp_eq, drop_left, hprint]

theorem WellFormed.writeText_eq (filler : Char) :
    writeText d.sign d.printedPlaces.1 d.frac
      (if d.printedPlaces.1 = 0 then 1 else d.printedPlaces.1) d.frac d.printedPlaces.2 filler =
        d.text := by
  unfold writeText text printedPlaces
  by_cases hzero : d.removeLeadingZeroes.1 + d.frac = 0
  · obtain ⟨hintg, hfrac⟩ := Nat.add_eq_zero_iff.mp hzero
    rw [if_pos hzero, intgDigits, if_pos hintg]
    simp only [hfrac]
    rfl
  · rw [if_neg hzero, h.fracText_eq]
    by_cases hintg : d.removeLeadingZeroes.1 = 0
    · rw [if_neg (not_not.mpr hintg), intgDigits, if_pos hintg, if_pos hintg]
      simp [digitChar]
    · rw [if_pos hintg, if_neg hintg, h.intgText_eq hintg]
      simp

theorem WellFormed.decimal2string_eq {dst : List Char} (filler : Char)
    (hlen : d.decimalStringSize ≤ dst.length) :
    d.decimal2string dst 0 0 filler =
      (d.text ++ Char.ofNat 0 :: dst.drop (d.text.length + 1), d.text.length, .ok) := by
  have hlength := h.length_text
  have hlt := h.length_text_lt
  have hset : (d.text ++ dst.drop d.text.length).set d.text.length (Char.ofNat 0) =
      d.text ++ Char.ofNat 0 :: dst.drop (d.text.length + 1) := by
    rw [set_append_right _ _ le_rfl, Nat.sub_self, drop_eq_getElem_cons (by omega),
      set_cons_zero]
  have hwidth : d.sign.toNat + (if d.printedPlaces.1 = 0 then 1 else d.printedPlaces.1) +
      (if d.frac ≠ 0 then 1 else 0) + d.frac = d.text.length := by
    rw [printedPlaces]
    split_ifs <;> simp_all <;> omega
  rw [← hset]
  simp only [decimal2string, ne_eq, not_true_eq_false, if_false, if_true]
  rw [hwidth, if_neg (by omega), h.writeText_eq, hwidth]

end

/-! ## Reading -/

def textValue (s : List Char) : ℕ := evalDigits 10 (s.map digitVal)

@[simp] theorem textValue_nil : textValue [] = 0 := rfl

theorem textValue_lt (h : ∀ c ∈ s, c.isDigit = true) : textValue s < 10 ^ s.length := by
  have hlt := evalDigits_lt (digitVal_lt_of_mem h)
  rwa [length_map] at hlt

theorem roundUp_add_nine (n : ℕ) : roundUp (n + 9) = roundUp n + 1 := by
  unfold roundUp digPerDec1
  omega

theorem packIntg_spec (hs : ∀ c ∈ s, c.isDigit = true) (hi : i < 9) (hx : x < 10 ^ i)
    (hl : ∀ w ∈ l, w < digBase) :
    (packIntg s x i l).length = roundUp (s.length + i) + l.length ∧
      (∀ w ∈ packIntg s x i l, w < digBase) ∧
      evalDigits digBase (packIntg s x i l) =
        (textValue s.reverse * 10 ^ i + x) * digBase ^ l.length + evalDigits digBase l := by
  induction s generalizing x i l with
  | nil =>
    by_cases hzero : i = 0
    · subst hzero
      obtain rfl : x = 0 := by simpa using hx
      simpa [packIntg] using hl
    · have hround : roundUp i = 1 := by
        unfold roundUp digPerDec1
        omega
      have hbase : x < digBase := hx.trans (Nat.pow_lt_pow_right (by decide) hi)
      rw [packIntg, if_pos hzero]
      refine ⟨?_, by simpa using ⟨hbase, hl⟩, ?_⟩
      · simp [hround, Nat.add_comm]
      · rw [evalDigits_cons, reverse_nil, textValue_nil, Nat.zero_mul, Nat.zero_add]
  | cons c s ih =>
    rw [forall_mem_cons] at hs
    have hc := digitVal_lt hs.1
    have hx' : x + digitVal c * 10 ^ i < 10 ^ (i + 1) := by
      have hmul := Nat.mul_le_mul_right (10 ^ i) (Nat.succ_le_of_lt hc)
      rw [Nat.succ_mul] at hmul
      omega
    have htext : textValue (c :: s).reverse = textValue s.reverse * 10 + digitVal c := by
      simp [textValue, evalDigits_append]
    rw [packIntg, powers10, htext]
    by_cases hfull : i + 1 = 9
    · obtain rfl : i = 8 := by omega
      have hword : ∀ w ∈ (x + digitVal c * 10 ^ 8) :: l, w < digBase := by
        simpa using ⟨hx', hl⟩
      obtain ⟨hlen, hlt, heval⟩ := ih (i := 0) (x := 0) hs.2 (by decide) (by decide) hword
      rw [digPerDec1, if_pos rfl]
      refine ⟨?_, hlt, ?_⟩
      · rw [hlen, length_cons, length_cons, Nat.add_zero, roundUp_add_nine]
        omega
      · rw [heval, evalDigits_cons, length_cons, digBase_eq]
        ring
    · obtain ⟨hlen, hlt, heval⟩ := ih hs.2 (by omega) hx' hl
      rw [digPerDec1, if_neg hfull]
      refine ⟨?_, hlt, ?_⟩
      · rw [hlen, length_cons, Nat.add_assoc, Nat.add_comm 1 i]
      · rw [heval]
        ring

theorem packFrac_spec (hs : ∀ c ∈ s, c.isDigit = true) (hi : i < 9) (hx : x < 10 ^ i)
    (hl : ∀ w ∈ l, w < digBase) :
    (packFrac s x i l).length = l.length + roundUp (s.length + i) ∧
      (∀ w ∈ packFrac s x i l, w < digBase) ∧
      evalDigits digBase (packFrac s x i l) =
        ((evalDigits digBase l * 10 ^ i + x) * 10 ^ s.length + textValue s) *
          10 ^ (9 * roundUp (s.length + i) - (s.length + i)) := by
  induction s generalizing x i l with
  | nil =>
    by_cases hzero : i = 0
    · subst hzero
      obtain rfl : x = 0 := by simpa using hx
      simpa [packFrac] using hl
    · have hround : roundUp i = 1 := by
        unfold roundUp digPerDec1
        omega
      have hbase : 10 ^ i * 10 ^ (9 - i) = digBase := by
        rw [← pow_add, Nat.add_sub_cancel' hi.le]
        rfl
      have hword : x * 10 ^ (9 - i) < digBase := by
        rw [← hbase]
        exact Nat.mul_lt_mul_of_pos_right hx (by positivity)
      rw [packFrac, if_pos hzero, powers10, digPerDec1]
      refine ⟨by simp [hround], ?_, ?_⟩
      · exact forall_mem_append.mpr ⟨hl, forall_mem_singleton.mpr hword⟩
      · rw [evalDigits_append, evalDigits_singleton, length_singleton,
          textValue_nil, length_nil, Nat.zero_add, hround, pow_zero,
          Nat.mul_one, Nat.add_zero, Nat.add_mul, Nat.mul_assoc, hbase, pow_one]
  | cons c s ih =>
    rw [forall_mem_cons] at hs
    have hc := digitVal_lt hs.1
    have hx' : digitVal c + x * 10 < 10 ^ (i + 1) := by
      omega
    have htext : textValue (c :: s) = digitVal c * 10 ^ s.length + textValue s := by
      simp [textValue, evalDigits_cons]
    rw [packFrac, htext]
    by_cases hfull : i + 1 = 9
    · obtain rfl : i = 8 := by omega
      have hword : ∀ w ∈ l ++ [digitVal c + x * 10], w < digBase :=
        forall_mem_append.mpr ⟨hl, forall_mem_singleton.mpr hx'⟩
      obtain ⟨hlen, hlt, heval⟩ := ih (i := 0) (x := 0) hs.2 (by decide) (by decide) hword
      rw [Nat.add_zero] at hlen heval
      have hround : roundUp (s.length + 1 + 8) = roundUp s.length + 1 := by
        rw [roundUp_add_nine]
      rw [digPerDec1, if_pos rfl]
      refine ⟨?_, hlt, ?_⟩
      · rw [hlen, length_append, length_singleton, length_cons]
        omega
      · rw [heval, evalDigits_append, evalDigits_singleton, length_singleton,
          length_cons, hround,
          show 9 * (roundUp s.length + 1) - (s.length + 1 + 8) =
            9 * roundUp s.length - s.length by omega]
        generalize 9 * roundUp s.length - s.length = e, evalDigits digBase l = v
        rw [digBase_eq]
        ring
    · obtain ⟨hlen, hlt, heval⟩ := ih hs.2 (by omega) hx' hl
      have hshift : s.length + (i + 1) = s.length + 1 + i := by omega
      rw [digPerDec1, if_neg hfull]
      refine ⟨?_, hlt, ?_⟩
      · rw [hlen, length_cons, hshift]
      · rw [heval, length_cons, hshift]
        generalize 9 * roundUp (s.length + 1 + i) - (s.length + 1 + i) = e
        ring

/-- The number that the digits on both sides of the point stand for. -/
structure IsRead (d : Decimal) (sign : Bool) (intgPart fracPart : List Char) : Prop where
  wellFormed : d.WellFormed
  sign_eq : d.sign = sign
  intg_eq : d.intg = intgPart.length
  frac_eq : d.frac = fracPart.length
  intgValue_eq : d.intgValue = textValue intgPart
  fracValue_eq : d.fracValue = textValue fracPart * 10 ^ (9 * roundUp d.frac - d.frac)

theorem ofDigits_of_fits (sign : Bool) {intgPart fracPart : List Char}
    (hint : ∀ c ∈ intgPart, c.isDigit = true) (hfrac : ∀ c ∈ fracPart, c.isDigit = true)
    (hfits : roundUp intgPart.length + roundUp fracPart.length ≤ dst.buf.length) :
    ∃ d, dst.ofDigits sign intgPart fracPart = (d, .ok) ∧ d.IsRead sign intgPart fracPart := by
  obtain ⟨hilen, hilt, hival⟩ := packIntg_spec (i := 0) (x := 0) (l := [])
    (fun c hc => hint c (mem_reverse.mp hc)) (by decide) (by decide) (by simp)
  obtain ⟨hflen, hflt, hfval⟩ := packFrac_spec (i := 0) (x := 0) (l := []) hfrac (by decide)
    (by decide) (by simp)
  simp only [length_reverse, reverse_reverse, length_nil, evalDigits_nil, pow_zero,
    Nat.mul_one, Nat.add_zero, Nat.zero_add, Nat.zero_mul] at hilen hival hflen hfval
  set iw := packIntg intgPart.reverse 0 0 []
  set fw := packFrac fracPart 0 0 []
  refine ⟨⟨intgPart.length, fracPart.length, sign,
    (iw ++ fw) ++ dst.buf.drop (iw ++ fw).length⟩, ?_, ?_⟩
  · simp only [ofDigits, fixIntgFrac, if_neg (Nat.not_lt.mpr hfits)]
    simp [iw, fw, take_of_length_le]
  · obtain ⟨hiw, hfw⟩ := words_of_buf (d := ⟨intgPart.length, fracPart.length, sign,
      (iw ++ fw) ++ dst.buf.drop (iw ++ fw).length⟩) (append_assoc iw fw _) hilen hflen
    refine ⟨⟨?_, ?_, ?_, ?_⟩, rfl, rfl, rfl, ?_, ?_⟩
    · simp only [length_append, length_drop, hilen, hflen]
      omega
    · rw [hiw, hfw]
      intro w hw
      exact (mem_append.mp hw).elim (hilt w) (hflt w)
    · rw [hiw]
      exact (evalDigits_lt_iff hilen hilt).mp (by rw [hival]; exact textValue_lt hint)
    · rw [hfw]
      exact (dvd_evalDigits_iff hflen).mp (by rw [hfval]; exact Dvd.intro_left _ rfl)
    · rw [intgValue, hiw, hival]
    · rw [fracValue, hfw, hfval]

/-- `[sign] digits [. digits]`. -/
structure Literal where
  sign : List Char
  intgPart : List Char
  fracPart : Option (List Char)
  sign_mem : sign ∈ [[], ['+'], ['-']]
  intg_isDigit : ∀ c ∈ intgPart, c.isDigit = true
  frac_isDigit : ∀ c ∈ fracPart.getD [], c.isDigit = true
  nonempty : intgPart ≠ [] ∨ fracPart.getD [] ≠ []

namespace Literal

def text (t : Literal) : List Char :=
  t.sign ++ (t.intgPart ++ (t.fracPart.map ('.' :: ·)).getD [])

def words (t : Literal) : ℕ := roundUp t.intgPart.length + roundUp (t.fracPart.getD []).length

def normalized (t : Literal) : List Char :=
  let stripped := t.intgPart.dropWhile (· == '0')
  (if t.sign = ['-'] then ['-'] else []) ++ (if stripped = [] then ['0'] else stripped) ++
    if t.fracPart.getD [] ≠ [] then '.' :: t.fracPart.getD [] else []

variable (t : Literal)

theorem scanDigits_eq :
    scanDigits (t.intgPart ++ (t.fracPart.map ('.' :: ·)).getD []) =
      (t.intgPart, t.fracPart.getD [], []) := by
  have hdrop (l : List Char) :
      (t.intgPart ++ l).dropWhile Char.isDigit = l.dropWhile Char.isDigit :=
    dropWhile_append_of_pos t.intg_isDigit
  have htake (l : List Char) :
      (t.intgPart ++ l).takeWhile Char.isDigit = t.intgPart ++ l.takeWhile Char.isDigit :=
    takeWhile_append_of_pos t.intg_isDigit
  have hfrac := t.frac_isDigit
  unfold scanDigits
  cases hpart : t.fracPart with
  | none =>
    rw [hdrop, htake]
    simp
  | some f =>
    rw [hpart] at hfrac
    have hpoint : ('.' :: f).dropWhile Char.isDigit = '.' :: f :=
      dropWhile_cons_of_neg (by decide)
    have hpoint' : ('.' :: f).takeWhile Char.isDigit = [] :=
      takeWhile_cons_of_neg (by decide)
    have hall : f.dropWhile Char.isDigit = [] := dropWhile_eq_nil_iff.mpr hfrac
    have hall' : f.takeWhile Char.isDigit = f := takeWhile_eq_self_iff.mpr hfrac
    simp only [hdrop, htake, Option.map_some, Option.getD_some, hpoint, hpoint', hall, hall',
      append_nil]

theorem exists_cons : ∃ c s, t.text = c :: s ∧ isSpace c = false ∧
    decide (c = '-') = decide (t.sign = ['-']) ∧ (if c = '-' ∨ c = '+' then s else c :: s) =
      t.intgPart ++ (t.fracPart.map ('.' :: ·)).getD [] := by
  have hsign := t.sign_mem
  simp only [mem_cons, not_mem_nil, or_false] at hsign
  unfold text
  rcases hsign with hnone | hplus | hminus
  · obtain ⟨c, s, hcons, hc⟩ : ∃ c s, t.intgPart ++ (t.fracPart.map ('.' :: ·)).getD [] = c :: s ∧
        (c.isDigit = true ∨ c = '.') := by
      cases hpart : t.intgPart with
      | nil =>
        cases hfrac : t.fracPart with
        | none => exact absurd t.nonempty (by simp [hpart, hfrac])
        | some f => exact ⟨'.', f, rfl, .inr rfl⟩
      | cons c s => exact ⟨c, _, rfl, .inl (t.intg_isDigit c (by simp [hpart]))⟩
    have hclass : isSpace c = false ∧ c ≠ '-' ∧ c ≠ '+' := by
      rcases hc with hc | rfl
      · have hle := isDigit_iff.mp hc
        refine ⟨?_, ?_, ?_⟩
        · simp only [isSpace, Bool.or_eq_false_iff, Bool.and_eq_false_iff, beq_eq_false_iff_ne,
            decide_eq_false_iff_not]
          omega
        · rintro rfl
          exact absurd hle (by decide)
        · rintro rfl
          exact absurd hle (by decide)
      · decide
    refine ⟨c, s, by rw [hnone, hcons, nil_append], hclass.1, ?_, ?_⟩
    · simp [hclass.2.1, hnone]
    · rw [if_neg (not_or.mpr hclass.2), hcons]
  · exact ⟨'+', _, by rw [hplus]; rfl, by decide, by rw [hplus]; decide, if_pos (.inr rfl)⟩
  · exact ⟨'-', _, by rw [hminus]; rfl, by decide, by rw [hminus]; decide, if_pos (.inl rfl)⟩

theorem string2decimal_eq (ops : ExponentOps) (hfits : t.words ≤ dst.buf.length) :
    ∃ d, string2decimal ops t.text dst = (d, .ok, []) ∧
      d.IsRead (decide (t.sign = ['-'])) t.intgPart (t.fracPart.getD []) := by
  obtain ⟨d, heq, hread⟩ := ofDigits_of_fits (decide (t.sign = ['-'])) t.intg_isDigit
    t.frac_isDigit hfits
  obtain ⟨c, s, htext, hspace, hsign, hrest⟩ := t.exists_cons
  refine ⟨d, ?_, hread⟩
  have hne : (t.fracPart.getD []).length + t.intgPart.length ≠ 0 := by
    have := t.nonempty
    simp only [ne_eq, Nat.add_eq_zero_iff, length_eq_zero_iff]
    tauto
  rw [string2decimal, htext, dropWhile_cons_of_neg (by simp [hspace])]
  simp only [hrest, t.scanDigits_eq, if_neg hne, hsign, heq]
  rfl

end Literal

/-! ## Round trips -/

def literal (d : Decimal) : Literal where
  sign := if d.sign then ['-'] else []
  intgPart := d.intgDigits.map digitChar
  fracPart := if d.frac ≠ 0 then some (d.fracDigits.map digitChar) else none
  sign_mem := by cases d.sign <;> simp
  intg_isDigit := by
    intro c hc
    obtain ⟨x, hx, rfl⟩ := List.mem_map.mp hc
    exact isDigit_digitChar (d.intgDigits_lt x hx)
  frac_isDigit := by
    intro c hc
    split at hc
    · obtain ⟨x, hx, rfl⟩ := List.mem_map.mp hc
      exact isDigit_digitChar (d.fracDigits_lt x hx)
    · cases hc
  nonempty := by
    left
    have hlen := d.length_intgDigits
    intro hnil
    rw [map_eq_nil_iff] at hnil
    rw [hnil, length_nil] at hlen
    omega

theorem fracPart_literal (d : Decimal) :
    d.literal.fracPart.getD [] = d.fracDigits.map digitChar := by
  change (if d.frac ≠ 0 then some (d.fracDigits.map digitChar) else none).getD [] = _
  split
  next => rfl
  next hzero =>
    rw [fracDigits, not_not.mp hzero]
    rfl

theorem text_literal (d : Decimal) : d.literal.text = d.text := by
  change (if d.sign then ['-'] else []) ++ (d.intgDigits.map digitChar ++
    ((if d.frac ≠ 0 then some (d.fracDigits.map digitChar) else none).map ('.' :: ·)).getD []) = _
  rw [text]
  split_ifs <;> rfl

theorem WellFormed.words_literal (h : d.WellFormed) :
    d.literal.words ≤ roundUp (max d.intg 1) + roundUp d.frac := by
  have hle := d.removeLeadingZeroes_le
  have hmono : roundUp (max d.removeLeadingZeroes.1 1) ≤ roundUp (max d.intg 1) := by
    unfold roundUp digPerDec1
    omega
  rw [Literal.words, d.fracPart_literal, length_map, h.length_fracDigits]
  change roundUp (d.intgDigits.map digitChar).length + _ ≤ _
  rw [length_map, d.length_intgDigits]
  omega

theorem IsRead.value_eq {e : Decimal} (h : d.WellFormed)
    (hread : e.IsRead d.sign (d.intgDigits.map digitChar) (d.fracDigits.map digitChar)) :
    e.value = d.value ∧ e.frac = d.frac := by
  have hfrac : e.frac = d.frac := by
    rw [hread.frac_eq, length_map, h.length_fracDigits]
  have hint : e.intgValue = d.intgValue := by
    rw [hread.intgValue_eq, textValue, map_digitVal_digitChar d.intgDigits_lt,
      h.evalDigits_intgDigits]
  have hfracValue : e.fracValue = d.fracValue := by
    rw [hread.fracValue_eq, textValue, map_digitVal_digitChar d.fracDigits_lt, hfrac,
      ← h.fracValue_eq]
  refine ⟨?_, hfrac⟩
  rw [value, value, abs, abs, hread.sign_eq, hint, hfracValue, h.length_fracWords,
    hread.wellFormed.length_fracWords, hfrac]

theorem textValue_dropWhile (s : List Char) : textValue (s.dropWhile (· == '0')) = textValue s := by
  induction s with
  | nil => rfl
  | cons c s ih =>
    rw [dropWhile_cons]
    split
    next hc =>
      obtain rfl : c = '0' := by simpa using hc
      rw [ih, textValue, textValue, map_cons, evalDigits_cons]
      exact (Nat.zero_add _).symm.trans (by rw [show digitVal '0' = 0 from rfl, Nat.zero_mul])
    next => rfl

theorem digitVal_eq_zero {c : Char} (h : c.isDigit = true) (hzero : digitVal c = 0) : c = '0' := by
  rw [← digitChar_digitVal h, hzero]
  rfl

theorem IsRead.intgDigits_eq {sign : Bool} {intgPart fracPart : List Char}
    (hread : d.IsRead sign intgPart fracPart) (hint : ∀ c ∈ intgPart, c.isDigit = true) :
    d.intgDigits.map digitChar = if intgPart.dropWhile (· == '0') = [] then ['0']
      else intgPart.dropWhile (· == '0') := by
  set stripped := intgPart.dropWhile (· == '0') with hstripped
  have hdigits : ∀ c ∈ stripped, c.isDigit = true := fun c hc =>
    hint c (dropWhile_subset _ hc)
  have hvalue : evalDigits 10 d.intgDigits = textValue stripped := by
    rw [hread.wellFormed.evalDigits_intgDigits, hread.intgValue_eq, textValue_dropWhile]
  have hhead : (stripped.map digitVal).head? ≠ some 0 := by
    cases hs : stripped with
    | nil => simp
    | cons c s =>
      have hnot := List.head?_dropWhile_not (· == '0') intgPart
      rw [← hstripped, hs] at hnot
      rw [map_cons, List.head?_cons, ne_eq, Option.some_inj]
      intro hzero
      rw [digitVal_eq_zero (hdigits c (by simp [hs])) hzero] at hnot
      simp at hnot
  rcases hread.wellFormed.head_intgDigits with hzero | hne
  · -- The value is zero, and a digit other than zero would be in front.
    have hnil : stripped = [] := by
      by_contra hcons
      obtain ⟨c, s, hcons⟩ := exists_cons_of_ne_nil hcons
      rw [hcons, map_cons, List.head?_cons, ne_eq, Option.some_inj] at hhead
      have hpos := pow_le_evalDigits_cons (B := 10) (l := s.map digitVal) (Nat.pos_of_ne_zero hhead)
      rw [hzero, textValue, hcons, map_cons] at hvalue
      rw [← hvalue] at hpos
      exact absurd hpos (Nat.not_le.mpr (by positivity))
    rw [if_pos hnil, hzero]
    rfl
  · have heq : d.intgDigits = stripped.map digitVal :=
      eq_of_evalDigits_eq_of_head (by decide) d.intgDigits_lt (digitVal_lt_of_mem hdigits) hne hhead
        hvalue
    have hcons : stripped ≠ [] := by
      intro hnil
      have hlen := d.length_intgDigits
      rw [heq, hnil, map_nil, length_nil] at hlen
      omega
    rw [if_neg hcons, heq, map_digitChar_digitVal hdigits]

theorem IsRead.fracDigits_eq {sign : Bool} {intgPart fracPart : List Char}
    (hread : d.IsRead sign intgPart fracPart) (hfrac : ∀ c ∈ fracPart, c.isDigit = true) :
    d.fracDigits.map digitChar = fracPart := by
  have hvalue : evalDigits 10 d.fracDigits = textValue fracPart := by
    have heq := hread.fracValue_eq
    rw [hread.wellFormed.fracValue_eq] at heq
    exact Nat.eq_of_mul_eq_mul_right (by positivity) heq
  have hlen : d.fracDigits.length = (fracPart.map digitVal).length := by
    rw [hread.wellFormed.length_fracDigits, hread.frac_eq, length_map]
  rw [eq_of_evalDigits_eq hlen d.fracDigits_lt (digitVal_lt_of_mem hfrac) hvalue,
    map_digitChar_digitVal hfrac]

theorem IsRead.text_eq {t : Literal}
    (hread : d.IsRead (decide (t.sign = ['-'])) t.intgPart (t.fracPart.getD [])) :
    d.text = t.normalized := by
  have hzero : d.frac ≠ 0 ↔ t.fracPart.getD [] ≠ [] := by
    rw [hread.frac_eq, ne_eq, length_eq_zero_iff]
  simp only [text, Literal.normalized, hread.intgDigits_eq t.intg_isDigit,
    hread.fracDigits_eq t.frac_isDigit, hread.sign_eq, hzero, decide_eq_true_eq]

/-- Printing and reading back keeps the value and the number of places of the fraction, in a
target with a word for the digit in front of the point; reading and printing keeps the text, up
to leading zeros. -/
theorem decimal2string_string2decimal (ops : ExponentOps) (filler : Char) :
    (∀ (d : Decimal) (dst : List Char), d.WellFormed → d.decimalStringSize ≤ dst.length →
      ∃ s, d.decimal2string dst 0 0 filler =
          (s ++ Char.ofNat 0 :: dst.drop (s.length + 1), s.length, .ok) ∧
        s.length + 1 ≤ d.decimalStringSize ∧
        ∀ target : Decimal,
          roundUp (max d.intg 1) + roundUp d.frac ≤ target.buf.length →
          ∃ e, string2decimal ops s target = (e, .ok, []) ∧ e.value = d.value ∧
            e.frac = d.frac) ∧
    ∀ (t : Literal) (target : Decimal), t.words ≤ target.buf.length →
      ∃ d, string2decimal ops t.text target = (d, .ok, []) ∧
        ∀ dst : List Char, d.decimalStringSize ≤ dst.length →
          d.decimal2string dst 0 0 filler =
            (t.normalized ++ Char.ofNat 0 :: dst.drop (t.normalized.length + 1),
              t.normalized.length, .ok) := by
  constructor
  · intro d dst h hlen
    refine ⟨d.text, h.decimal2string_eq filler hlen, h.length_text_lt, fun target hfits => ?_⟩
    obtain ⟨e, heq, hread⟩ := d.literal.string2decimal_eq ops (h.words_literal.trans hfits)
    rw [d.text_literal] at heq
    have hsign : decide (d.literal.sign = ['-']) = d.sign := by
      change decide ((if d.sign then ['-'] else []) = ['-']) = d.sign
      cases d.sign <;> rfl
    rw [d.fracPart_literal, hsign] at hread
    exact ⟨e, heq, hread.value_eq h⟩
  · intro t target hfits
    obtain ⟨d, heq, hread⟩ := t.string2decimal_eq ops hfits
    refine ⟨d, heq, fun dst hlen => ?_⟩
    rw [← hread.text_eq]
    exact hread.wellFormed.decimal2string_eq filler hlen

def noExponent : ExponentOps where
  strtoll10 s := (0, 0, s)
  shift d _ := (d, .ok)

/-- The number -3.5. -/
theorem decimal2string_string2decimal_negative :
    (⟨1, 1, true, [3, 500000000]⟩ : Decimal).WellFormed ∧
      ∃ s, (⟨1, 1, true, [3, 500000000]⟩ : Decimal).decimal2string (replicate 9 ' ') 0 0 '0' =
          (s ++ Char.ofNat 0 :: (replicate 9 ' ').drop (s.length + 1), s.length, .ok) ∧
        s.length + 1 ≤ (⟨1, 1, true, [3, 500000000]⟩ : Decimal).decimalStringSize ∧
        ∀ target : Decimal, roundUp (max 1 1) + roundUp 1 ≤ target.buf.length →
          ∃ e, string2decimal noExponent s target = (e, .ok, []) ∧
            e.value = (⟨1, 1, true, [3, 500000000]⟩ : Decimal).value ∧ e.frac = 1 :=
  ⟨by decide, (decimal2string_string2decimal noExponent '0').1 ⟨1, 1, true, [3, 500000000]⟩
    (replicate 9 ' ') (by decide) (by decide)⟩

/-- The number 0.5 in one word without integer digits is printed with a digit in front of the
point, and there is no room for it in a target of one word. -/
theorem string2decimal_half_truncated :
    (⟨0, 1, false, [500000000]⟩ : Decimal).WellFormed ∧
      (⟨0, 1, false, [500000000]⟩ : Decimal).decimal2string (replicate 5 ' ') 0 0 '0' =
        (['0', '.', '5', Char.ofNat 0, ' '], 3, .ok) ∧
      string2decimal noExponent ['0', '.', '5'] ⟨0, 0, false, [0]⟩ =
        (⟨1, 0, false, [0]⟩, .truncated, []) :=
  ⟨by decide, by decide, by decide⟩

end Decimal

end MySQL.Strings
