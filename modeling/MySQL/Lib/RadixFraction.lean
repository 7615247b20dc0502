import MySQL.Lib.Radix

/-!
# Numerals behind the point

Fractions are ordered as their digits are, if no zeros stand at their ends.
-/

namespace MySQL.Lib

open List

def evalFraction (B : ℕ) (l : List ℕ) : ℚ := evalDigits B l / B ^ l.length

variable {B d k : ℕ} {l l' : List ℕ}

@[simp] theorem evalFraction_nil : evalFraction B [] = 0 := by simp [evalFraction]

theorem evalFraction_nonneg : 0 ≤ evalFraction B l := by
  unfold evalFraction
  positivity

theorem evalFraction_cons (hB : 0 < B) : evalFraction B (d :: l) = (d + evalFraction B l) / B := by
  rw [evalFraction, evalFraction, evalDigits_cons, length_cons, pow_succ]
  push_cast
  field_simp

theorem evalFraction_lt_one (hB : 0 < B) (h : ∀ x ∈ l, x < B) : evalFraction B l < 1 := by
  rw [evalFraction, div_lt_one (by positivity)]
  exact_mod_cast evalDigits_lt h

theorem evalFraction_append_zeros (hB : 0 < B) :
    evalFraction B (l ++ replicate k 0) = evalFraction B l := by
  rw [evalFraction, evalFraction, evalDigits_append_zeros, length_append,
    length_replicate, pow_add]
  push_cast
  field_simp

theorem evalFraction_pos (hB : 0 < B) (hne : l ≠ []) (hlast : l.getLast? ≠ some 0) :
    0 < evalFraction B l := by
  have hpos : (0 : ℚ) < B := by exact_mod_cast hB
  induction l with
  | nil => exact absurd rfl hne
  | cons d l ih =>
    rw [evalFraction_cons hB]
    apply div_pos _ hpos
    cases l with
    | nil =>
      have hd : (0 : ℚ) < d := by
        exact_mod_cast Nat.pos_of_ne_zero (by simpa using hlast)
      simpa using hd
    | cons e l =>
      have htail := ih (by simp) (by simpa using hlast)
      positivity

theorem compare_add_of_lt_one {a b : ℕ} {x y : ℚ} (hx : 0 ≤ x) (hx' : x < 1) (hy : 0 ≤ y)
    (hy' : y < 1) : compare (a + x) (b + y) = (compare a b).then (compare x y) := by
  rcases lt_trichotomy a b with hab | rfl | hab
  · have hle : (a : ℚ) + 1 ≤ b := by exact_mod_cast hab
    rw [compare_lt_iff_lt.mpr hab, compare_lt_iff_lt.mpr (by linarith)]
    rfl
  · have hmono : StrictMono fun z : ℚ => (a : ℚ) + z := fun _ _ hz => add_lt_add_right hz _
    rw [compare_eq_iff_eq.mpr rfl]
    exact compare_map hmono x y
  · have hle : (b : ℚ) + 1 ≤ a := by exact_mod_cast hab
    rw [compare_gt_iff_gt.mpr hab, compare_gt_iff_gt.mpr (by linarith)]
    rfl

theorem compare_evalFraction (hB : 0 < B) (h : ∀ x ∈ l, x < B) (h' : ∀ x ∈ l', x < B)
    (hlast : l.getLast? ≠ some 0) (hlast' : l'.getLast? ≠ some 0) :
    compare (evalFraction B l) (evalFraction B l') = lexCmp l l' := by
  have htail {a : ℕ} {t : List ℕ} (ht : (a :: t).getLast? ≠ some 0) : t.getLast? ≠ some 0 := by
    cases t with
    | nil => simp
    | cons b t => simpa using ht
  induction l generalizing l' with
  | nil =>
    cases l' with
    | nil => rw [compare_eq_iff_eq.mpr rfl, lexCmp]
    | cons b l' =>
      rw [evalFraction_nil, lexCmp, compare_lt_iff_lt]
      exact evalFraction_pos hB (by simp) hlast'
  | cons a l ih =>
    cases l' with
    | nil =>
      rw [evalFraction_nil, lexCmp, compare_gt_iff_gt]
      exact evalFraction_pos hB (by simp) hlast
    | cons b l' =>
      rw [forall_mem_cons] at h h'
      have hpos : (0 : ℚ) < B := by exact_mod_cast hB
      have hmono : StrictMono fun q : ℚ => q / B := fun _ _ hq => div_lt_div_of_pos_right hq hpos
      rw [evalFraction_cons hB, evalFraction_cons hB, compare_map hmono,
        compare_add_of_lt_one evalFraction_nonneg (evalFraction_lt_one hB h.2)
          evalFraction_nonneg (evalFraction_lt_one hB h'.2),
        ih h.2 h'.2 (htail hlast) (htail hlast'), lexCmp]

end MySQL.Lib
