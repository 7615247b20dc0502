import Mathlib

/-!
# Numerals and lexicographic comparison

Numerals are read with the most significant digit first, so the numeric order of numerals of
one length is the lexicographic order of their digits.
-/

namespace MySQL.Lib

open List

/-! ## Comparison -/

def lexCmp : List ℕ → List ℕ → Ordering
  | [], [] => .eq
  | [], _ :: _ => .lt
  | _ :: _, [] => .gt
  | a :: l, b :: l' => (compare a b).then (lexCmp l l')

theorem compare_map {α β : Type*} [LinearOrder α] [LinearOrder β] {f : α → β} (hf : StrictMono f)
    (x y : α) : compare (f x) (f y) = compare x y := by
  rw [← cmp_eq_compare, ← cmp_eq_compare, hf.cmp_map_eq]

theorem compare_map_anti {α β : Type*} [LinearOrder α] [LinearOrder β] {f : α → β}
    (hf : StrictAnti f) (x y : α) : compare (f x) (f y) = (compare x y).swap := by
  rw [← cmp_eq_compare, ← cmp_eq_compare, hf.cmp_map_eq, cmp_swap]

section Compare

variable {a b c d m : ℕ} {l l' t t' : List ℕ}

theorem compare_mul_add (hc : c < m) (hd : d < m) :
    compare (a * m + c) (b * m + d) = (compare a b).then (compare c d) := by
  rcases lt_trichotomy a b with hab | rfl | hab
  · have hle : (a + 1) * m ≤ b * m := Nat.mul_le_mul_right m hab
    rw [Nat.add_mul] at hle
    rw [compare_lt_iff_lt.mpr hab, compare_lt_iff_lt.mpr (by omega)]
    rfl
  · rw [compare_eq_iff_eq.mpr rfl]
    rcases lt_trichotomy c d with hcd | rfl | hcd
    · rw [compare_lt_iff_lt.mpr hcd]
      exact compare_lt_iff_lt.mpr (by omega)
    · rw [compare_eq_iff_eq.mpr rfl, compare_eq_iff_eq.mpr rfl]
      rfl
    · rw [compare_gt_iff_gt.mpr hcd]
      exact compare_gt_iff_gt.mpr (by omega)
  · have hle : (b + 1) * m ≤ a * m := Nat.mul_le_mul_right m hab
    rw [Nat.add_mul] at hle
    rw [compare_gt_iff_gt.mpr hab, compare_gt_iff_gt.mpr (by omega)]
    rfl

theorem lexCmp_swap (l l' : List ℕ) : (lexCmp l l').swap = lexCmp l' l := by
  induction l generalizing l' with
  | nil => cases l' <;> rfl
  | cons a l ih =>
    cases l' with
    | nil => rfl
    | cons b l' => rw [lexCmp, lexCmp, Ordering.swap_then, ih, Nat.compare_swap]

theorem eq_of_lexCmp_eq (h : lexCmp l l' = .eq) : l = l' := by
  induction l generalizing l' with
  | nil =>
    cases l' with
    | nil => rfl
    | cons b l' => cases h
  | cons a l ih =>
    cases l' with
    | nil => cases h
    | cons b l' =>
      rw [lexCmp, Ordering.then_eq_eq, compare_eq_iff_eq] at h
      rw [h.1, ih h.2]

theorem lexCmp_append (h : l.length = l'.length) :
    lexCmp (l ++ t) (l' ++ t') = (lexCmp l l').then (lexCmp t t') := by
  induction l generalizing l' with
  | nil =>
    cases l' with
    | nil => rfl
    | cons b l' => cases h
  | cons a l ih =>
    cases l' with
    | nil => cases h
    | cons b l' =>
      simp only [cons_append, lexCmp, ih (Nat.succ.inj h)]
      cases compare a b <;> rfl

theorem lexCmp_complement (h : l.length = l'.length) (hl : ∀ x ∈ l, x ≤ m) (hl' : ∀ x ∈ l', x ≤ m) :
    lexCmp (l.map (m - ·)) (l'.map (m - ·)) = lexCmp l' l := by
  induction l generalizing l' with
  | nil =>
    cases l' with
    | nil => rfl
    | cons b l' => cases h
  | cons a l ih =>
    cases l' with
    | nil => cases h
    | cons b l' =>
      rw [forall_mem_cons] at hl hl'
      have hab : compare (m - a) (m - b) = compare b a := by
        rcases lt_trichotomy a b with hab | rfl | hab
        · rw [compare_gt_iff_gt.mpr hab, compare_gt_iff_gt]
          omega
        · simp
        · rw [compare_lt_iff_lt.mpr hab, compare_lt_iff_lt]
          omega
      simp only [map_cons, lexCmp, hab, ih (Nat.succ.inj h) hl.2 hl'.2]

end Compare

/-! ## Numerals -/

/-- The value of a numeral to the base `B`. -/
def evalDigits (B : ℕ) (l : List ℕ) : ℕ := l.foldl (fun v d => v * B + d) 0

section Digits

variable {B d n k x : ℕ} {l l' : List ℕ}

@[simp] theorem evalDigits_nil : evalDigits B [] = 0 := rfl

@[simp] theorem evalDigits_singleton : evalDigits B [d] = d := by simp [evalDigits]

theorem evalDigits_append :
    evalDigits B (l ++ l') = evalDigits B l * B ^ l'.length + evalDigits B l' := by
  induction l' using List.reverseRecOn with
  | nil => simp
  | append_singleton l' d ih =>
    have hstep (t : List ℕ) : evalDigits B (t ++ [d]) = evalDigits B t * B + d := by
      simp [evalDigits]
    rw [← append_assoc, hstep, ih, hstep, length_append, length_singleton]
    ring

theorem evalDigits_cons : evalDigits B (d :: l) = d * B ^ l.length + evalDigits B l := by
  rw [← singleton_append, evalDigits_append, evalDigits_singleton]

@[simp] theorem evalDigits_replicate_append :
    evalDigits B (replicate k 0 ++ l) = evalDigits B l := by
  induction k with
  | zero => simp
  | succ k ih =>
    rw [replicate_succ, cons_append, evalDigits_cons, ih, Nat.zero_mul, zero_add]

@[simp] theorem evalDigits_zeros : evalDigits B (replicate k 0) = 0 := by
  rw [← append_nil (replicate k 0), evalDigits_replicate_append, evalDigits_nil]

theorem evalDigits_append_zeros : evalDigits B (l ++ replicate k 0) = evalDigits B l * B ^ k := by
  have hzero := evalDigits_replicate_append (B := B) (k := k) (l := [])
  rw [append_nil, evalDigits_nil] at hzero
  rw [evalDigits_append, hzero, length_replicate, add_zero]

theorem evalDigits_lt (h : ∀ x ∈ l, x < B) : evalDigits B l < B ^ l.length := by
  induction l with
  | nil => simp
  | cons d l ih =>
    rw [forall_mem_cons] at h
    have hle : (d + 1) * B ^ l.length ≤ B * B ^ l.length := Nat.mul_le_mul_right _ h.1
    rw [evalDigits_cons, length_cons, pow_succ']
    rw [Nat.add_mul] at hle
    have hlt := ih h.2
    omega

theorem evalDigits_eq_zero (hB : 0 < B) : evalDigits B l = 0 ↔ ∀ x ∈ l, x = 0 := by
  induction l with
  | nil => simp
  | cons x l ih =>
    rw [evalDigits_cons, Nat.add_eq_zero_iff, ih, Nat.mul_eq_zero, forall_mem_cons,
      or_iff_left (Nat.pow_pos hB).ne']

theorem evalDigits_complement (h : ∀ x ∈ l, x < B) :
    evalDigits B (l.map (B - 1 - ·)) + evalDigits B l + 1 = B ^ l.length := by
  induction l with
  | nil => rfl
  | cons d l ih =>
    rw [forall_mem_cons] at h
    have hd : B - 1 - d + d + 1 = B := by omega
    have hmul := congrArg (· * B ^ l.length) hd
    simp only [Nat.add_mul, Nat.one_mul] at hmul
    have htail := ih h.2
    rw [map_cons, evalDigits_cons, evalDigits_cons, length_map, length_cons,
      pow_succ']
    omega

theorem compare_evalDigits (hlen : l.length = l'.length) (h : ∀ x ∈ l, x < B)
    (h' : ∀ x ∈ l', x < B) : compare (evalDigits B l) (evalDigits B l') = lexCmp l l' := by
  induction l generalizing l' with
  | nil =>
    cases l' with
    | nil => rfl
    | cons b l' => cases hlen
  | cons a l ih =>
    cases l' with
    | nil => cases hlen
    | cons b l' =>
      rw [forall_mem_cons] at h h'
      have htail := evalDigits_lt h'.2
      rw [← Nat.succ.inj hlen] at htail
      rw [evalDigits_cons, evalDigits_cons, ← Nat.succ.inj hlen,
        compare_mul_add (evalDigits_lt h.2) htail, ih (Nat.succ.inj hlen) h.2 h'.2, lexCmp]

theorem compare_evalDigits_base {C : ℕ} (hB : 0 < B) (hC : B ≤ C) (h : ∀ x ∈ l, x < B)
    (h' : ∀ x ∈ l', x < B) :
    compare (evalDigits C l) (evalDigits C l') = compare (evalDigits B l) (evalDigits B l') := by
  -- Zeros in front bring both to the same length.
  have hpad {k : ℕ} {t : List ℕ} (ht : ∀ x ∈ t, x < B) : ∀ x ∈ replicate k 0 ++ t, x < B := by
    refine forall_mem_append.mpr ⟨fun x hx => ?_, ht⟩
    rwa [(mem_replicate.mp hx).2]
  have hlen : (replicate (l'.length - l.length) 0 ++ l).length =
      (replicate (l.length - l'.length) 0 ++ l').length := by
    simp only [length_append, length_replicate]
    omega
  have hlarge := compare_evalDigits hlen (fun x hx => (hpad h x hx).trans_le hC)
    (fun x hx => (hpad h' x hx).trans_le hC)
  have hsmall := compare_evalDigits hlen (hpad h) (hpad h')
  rw [evalDigits_replicate_append, evalDigits_replicate_append] at hlarge hsmall
  rw [hlarge, hsmall]

/-! ## Numerals of a fixed length -/

/-- The last `n` digits of a number to the base `B`. -/
def bigEndian (B : ℕ) : ℕ → ℕ → List ℕ
  | 0, _ => []
  | n + 1, x => x / B ^ n % B :: bigEndian B n x

@[simp] theorem length_bigEndian : (bigEndian B n x).length = n := by
  induction n with
  | zero => rfl
  | succ n ih => rw [bigEndian, length_cons, ih]

theorem length_flatMap_bigEndian : (l.flatMap (bigEndian B n)).length = n * l.length := by
  induction l with
  | nil => rfl
  | cons w l ih =>
    rw [flatMap_cons, length_append, length_bigEndian, ih, length_cons,
      Nat.mul_succ, Nat.add_comm]

theorem bigEndian_eq_map :
    bigEndian B n x = (List.range n).map fun k => x / B ^ (n - 1 - k) % B := by
  induction n with
  | zero => rfl
  | succ n ih =>
    rw [bigEndian, ih, range_succ_eq_map, map_cons, List.map_map]
    congr 1
    refine map_congr_left fun k _ => ?_
    rw [Function.comp_apply, Nat.add_sub_cancel, Nat.succ_eq_one_add, Nat.sub_sub]

theorem bigEndian_lt (hB : 0 < B) : ∀ d ∈ bigEndian B n x, d < B := by
  induction n with
  | zero => simp [bigEndian]
  | succ n ih =>
    rw [bigEndian, forall_mem_cons]
    exact ⟨Nat.mod_lt _ hB, ih⟩

theorem evalDigits_bigEndian : evalDigits B (bigEndian B n x) = x % B ^ n := by
  induction n with
  | zero => simp [bigEndian, Nat.mod_one]
  | succ n ih =>
    rw [bigEndian, evalDigits_cons, length_bigEndian, ih, pow_succ, Nat.mod_mul, Nat.mul_comm,
      Nat.add_comm]

theorem bigEndian_congr {y : ℕ} (h : x % B ^ n = y % B ^ n) :
    bigEndian B n x = bigEndian B n y := by
  induction n with
  | zero => rfl
  | succ n ih =>
    have hlow : x % B ^ n = y % B ^ n := by
      have hdvd : B ^ n ∣ B ^ (n + 1) := pow_dvd_pow B (Nat.le_succ n)
      rw [← Nat.mod_mod_of_dvd x hdvd, h, Nat.mod_mod_of_dvd y hdvd]
    rw [bigEndian, bigEndian, ih hlow, ← Nat.mod_mul_right_div_self, ← Nat.mod_mul_right_div_self,
      ← pow_succ, h]

theorem bigEndian_append {a b y : ℕ} (hB : 0 < B) (hy : y < B ^ b) :
    bigEndian B (a + b) (x * B ^ b + y) = bigEndian B a x ++ bigEndian B b y := by
  induction a with
  | zero =>
    rw [Nat.zero_add, bigEndian]
    exact bigEndian_congr (by simp)
  | succ a ih =>
    have hdigit : (x * B ^ b + y) / B ^ (a + b) = x / B ^ a := by
      rw [Nat.pow_add, Nat.mul_comm (B ^ a), ← Nat.div_div_eq_div_mul, Nat.mul_comm x,
        Nat.mul_add_div (Nat.pow_pos hB), Nat.div_eq_of_lt hy, Nat.add_zero]
    rw [Nat.add_right_comm, bigEndian, bigEndian, cons_append, ih, hdigit]

theorem bigEndian_zero : bigEndian B n 0 = replicate n 0 := by
  induction n with
  | zero => rfl
  | succ n ih => rw [bigEndian, ih, replicate_succ, Nat.zero_div, Nat.zero_mod]

theorem bigEndian_of_lt {a b y : ℕ} (hB : 0 < B) (hy : y < B ^ b) (hab : b ≤ a) :
    bigEndian B a y = replicate (a - b) 0 ++ bigEndian B b y := by
  have happend := bigEndian_append (a := a - b) (x := 0) hB hy
  rwa [Nat.sub_add_cancel hab, Nat.zero_mul, Nat.zero_add, bigEndian_zero] at happend

theorem bigEndian_evalDigits {a : ℕ} (hB : 0 < B) (hl : ∀ w ∈ l, w < B ^ n) :
    bigEndian B (a + n * l.length) (x * (B ^ n) ^ l.length + evalDigits (B ^ n) l) =
      bigEndian B a x ++ l.flatMap (bigEndian B n) := by
  have hlt := evalDigits_lt hl
  rw [← pow_mul] at hlt ⊢
  rw [bigEndian_append hB hlt]
  congr 1
  clear hlt
  induction l with
  | nil => rfl
  | cons w l ih =>
    rw [forall_mem_cons] at hl
    have htail := evalDigits_lt hl.2
    rw [← pow_mul] at htail
    rw [evalDigits_cons, length_cons, Nat.mul_succ, Nat.add_comm (n * l.length), ← pow_mul,
      bigEndian_append hB htail, ih hl.2, flatMap_cons]

theorem lexCmp_bigEndian {y : ℕ} (hB : 0 < B) (hx : x < B ^ n) (hy : y < B ^ n) :
    lexCmp (bigEndian B n x) (bigEndian B n y) = compare x y := by
  rw [← compare_evalDigits (by simp) (bigEndian_lt hB) (bigEndian_lt hB),
    evalDigits_bigEndian, evalDigits_bigEndian, Nat.mod_eq_of_lt hx, Nat.mod_eq_of_lt hy]

theorem lexCmp_flatMap (hB : 0 < B) (hlen : l.length = l'.length) (hl : ∀ w ∈ l, w < B ^ n)
    (hl' : ∀ w ∈ l', w < B ^ n) :
    lexCmp (l.flatMap (bigEndian B n)) (l'.flatMap (bigEndian B n)) = lexCmp l l' := by
  induction l generalizing l' with
  | nil =>
    cases l' with
    | nil => rfl
    | cons b l' => cases hlen
  | cons a l ih =>
    cases l' with
    | nil => cases hlen
    | cons b l' =>
      rw [forall_mem_cons] at hl hl'
      rw [flatMap_cons, flatMap_cons, lexCmp_append (by simp),
        ih (Nat.succ.inj hlen) hl.2 hl'.2, lexCmp_bigEndian hB hl.1 hl'.1, lexCmp]

theorem bigEndian_concat (hB : 0 < B) :
    bigEndian B (n + 1) x = bigEndian B n (x / B) ++ [x % B] := by
  have happend := bigEndian_append (a := n) (x := x / B) hB
    (by rw [pow_one]; exact Nat.mod_lt x hB)
  rw [pow_one, Nat.div_add_mod'] at happend
  rw [happend]
  simp [bigEndian]

theorem take_bigEndian (hB : 0 < B) (hk : k ≤ n) :
    (bigEndian B n x).take k = bigEndian B k (x / B ^ (n - k)) := by
  have happend := bigEndian_append (a := k) (b := n - k) (x := x / B ^ (n - k)) hB
    (Nat.mod_lt x (Nat.pow_pos hB))
  rw [Nat.div_add_mod', Nat.add_sub_cancel' hk] at happend
  rw [happend, take_left' length_bigEndian]

theorem evalDigits_flatMap (hB : 0 < B) (hl : ∀ w ∈ l, w < B ^ n) :
    evalDigits B (l.flatMap (bigEndian B n)) = evalDigits (B ^ n) l := by
  have hlt := evalDigits_lt hl
  have hdigits := bigEndian_evalDigits (a := 0) (x := 0) hB hl
  rw [Nat.zero_add, Nat.zero_mul, Nat.zero_add, bigEndian, nil_append] at hdigits
  rw [← hdigits, evalDigits_bigEndian, pow_mul, Nat.mod_eq_of_lt hlt]

/-! ## The digits of a number -/

theorem eq_of_evalDigits_eq (hlen : l.length = l'.length) (h : ∀ x ∈ l, x < B)
    (h' : ∀ x ∈ l', x < B) (heq : evalDigits B l = evalDigits B l') : l = l' := by
  apply eq_of_lexCmp_eq
  rw [← compare_evalDigits hlen h h', heq, compare_eq_iff_eq]

theorem pow_le_evalDigits_cons (hd : 0 < d) : B ^ l.length ≤ evalDigits B (d :: l) := by
  rw [evalDigits_cons]
  exact le_add_right (Nat.le_mul_of_pos_left _ hd)

theorem length_le_of_evalDigits_le (hB : 1 < B) (h' : ∀ x ∈ l', x < B) (hhead : l.head? ≠ some 0)
    (hle : evalDigits B l ≤ evalDigits B l') : l.length ≤ l'.length := by
  cases l with
  | nil => exact Nat.zero_le _
  | cons d l =>
    have hd : 0 < d := Nat.pos_of_ne_zero (by simpa using hhead)
    have hlt := ((pow_le_evalDigits_cons hd).trans hle).trans_lt (evalDigits_lt h')
    exact (Nat.pow_lt_pow_iff_right hB).mp hlt

theorem eq_of_evalDigits_eq_of_head (hB : 1 < B) (h : ∀ x ∈ l, x < B) (h' : ∀ x ∈ l', x < B)
    (hhead : l.head? ≠ some 0) (hhead' : l'.head? ≠ some 0)
    (heq : evalDigits B l = evalDigits B l') : l = l' :=
  eq_of_evalDigits_eq
    (le_antisymm (length_le_of_evalDigits_le hB h' hhead heq.le)
      (length_le_of_evalDigits_le hB h hhead' heq.ge)) h h' heq

end Digits

end MySQL.Lib
