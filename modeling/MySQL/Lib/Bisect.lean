import Mathlib

/-!
# Binary searches

A sorted sequence is seen through a predicate on its indices that holds up to some index and
fails from there on.  The searches differ in how the middle is rounded and in which of the
bounds jump over it.
-/

namespace MySQL.Lib

/-- Of the indices below `n` those below `k` have the property. -/
structure IsCut (p : ℕ → Prop) (n k : ℕ) : Prop where
  le : k ≤ n
  below : ∀ i, i < k → p i
  above : ∀ i, k ≤ i → i < n → ¬ p i

namespace IsCut

variable {p : ℕ → Prop} {n k i : ℕ}

theorem lt_iff (h : IsCut p n k) (hi : i < n) : i < k ↔ p i :=
  ⟨h.below i, fun hp => Nat.lt_of_not_le fun hle => h.above i hle hi hp⟩

theorem exists_of_closed (n : ℕ) (h : ∀ i j, i ≤ j → j < n → p j → p i) : ∃ k, IsCut p n k := by
  classical
  induction n with
  | zero => exact ⟨0, le_rfl, fun i hi => absurd hi (Nat.not_lt_zero i), fun i _ hi =>
      absurd hi (Nat.not_lt_zero i)⟩
  | succ n ih =>
    by_cases hn : p n
    · exact ⟨n + 1, le_rfl, fun i hi => h i n (Nat.lt_succ_iff.mp hi) (Nat.lt_succ_self n) hn,
        fun i hle hi => absurd hi (Nat.not_lt.mpr hle)⟩
    · obtain ⟨k, hk⟩ := ih fun i j hij hj => h i j hij (Nat.lt_succ_of_lt hj)
      refine ⟨k, Nat.le_succ_of_le hk.le, hk.below, fun i hki hi => ?_⟩
      rcases Nat.lt_succ_iff_lt_or_eq.mp hi with hlt | rfl
      · exact hk.above i hki hlt
      · exact hn

end IsCut

/-! ## Two-way searches -/

/-- `while (hi > lo)` with the middle rounded down; the upper bound stays at the middle. -/
def bisectFloor (p : ℕ → Bool) : ℕ → ℕ → ℕ → ℕ
  | 0, _, hi => hi
  | fuel + 1, lo, hi =>
    if lo < hi then
      let mid := (hi + lo) / 2
      if p mid then bisectFloor p fuel (mid + 1) hi else bisectFloor p fuel lo mid
    else hi

/-- `while (hi > lo)` with the middle rounded up; both bounds jump over the middle. -/
def bisectCeil (p : ℕ → Bool) : ℕ → ℕ → ℕ → ℕ
  | 0, _, hi => hi
  | fuel + 1, lo, hi =>
    if lo < hi then
      let mid := (hi + lo + 1) / 2
      if p mid then bisectCeil p fuel (mid + 1) hi else bisectCeil p fuel lo (mid - 1)
    else hi

section

variable {p : ℕ → Bool} {n k : ℕ}

theorem bisectFloor_eq (h : IsCut (fun i => p i = true) n k) (fuel lo hi : ℕ)
    (hfuel : hi - lo ≤ fuel) (hlo : lo ≤ min k (n - 1)) (hhi : min k (n - 1) ≤ hi)
    (hn : hi ≤ n - 1) : bisectFloor p fuel lo hi = min k (n - 1) := by
  induction fuel generalizing lo hi with
  | zero =>
    rw [bisectFloor]
    omega
  | succ fuel ih =>
    simp only [bisectFloor]
    split_ifs with hlt hp
    · have hmid : (hi + lo) / 2 < k := (h.lt_iff (by omega)).mpr hp
      exact ih _ _ (by omega) (by omega) hhi hn
    · have hmid : ¬ (hi + lo) / 2 < k := fun hk => hp (h.below _ hk)
      exact ih _ _ (by omega) hlo (by omega) (by omega)
    · omega

theorem bisectFloor_spec (hp : ∀ i j, i ≤ j → j < n → p j = true → p i = true) (hn : 0 < n) :
    bisectFloor p n 0 (n - 1) < n ∧ (∀ i, i < bisectFloor p n 0 (n - 1) → p i = true) ∧
      (bisectFloor p n 0 (n - 1) + 1 < n → p (bisectFloor p n 0 (n - 1)) = false) := by
  obtain ⟨k, hk⟩ := IsCut.exists_of_closed n hp
  rw [bisectFloor_eq hk n 0 (n - 1) (by omega) (by omega) (by omega) le_rfl]
  refine ⟨by omega, fun i hi => hk.below i (by omega), fun hlt => ?_⟩
  exact Bool.eq_false_iff.mpr (hk.above _ (by omega) (by omega))

theorem bisectCeil_spec (h : IsCut (fun i => p i = true) n k) (fuel lo hi : ℕ)
    (hfuel : hi - lo ≤ fuel) (hlo : lo ≤ k) (hhi : k ≤ hi + 1) (hle : lo ≤ hi + 1) (hn : hi < n) :
    bisectCeil p fuel lo hi ≤ k ∧ k ≤ bisectCeil p fuel lo hi + 1 ∧
      bisectCeil p fuel lo hi ≤ hi := by
  induction fuel generalizing lo hi with
  | zero =>
    rw [bisectCeil]
    omega
  | succ fuel ih =>
    simp only [bisectCeil]
    split_ifs with hlt hp
    · have hmid : (hi + lo + 1) / 2 < k := (h.lt_iff (by omega)).mpr hp
      exact ih _ _ (by omega) (by omega) hhi (by omega) hn
    · have hmid : ¬ (hi + lo + 1) / 2 < k := fun hk => hp (h.below _ hk)
      obtain ⟨h₁, h₂, h₃⟩ := ih lo ((hi + lo + 1) / 2 - 1) (by omega) hlo (by omega) (by omega)
        (by omega)
      exact ⟨h₁, h₂, h₃.trans (by omega)⟩
    · omega

end

/-! ## Three-way search -/

/-- `do { .. } while (hi >= lo)`, where `c i` is the place of the entry `i` relative to what is
searched for.  The result is the last entry that was looked at, with its place. -/
def bisect (c : ℕ → Ordering) : ℕ → ℕ → ℕ → ℕ × Ordering
  | 0, lo, hi => ((hi + lo) / 2, c ((hi + lo) / 2))
  | fuel + 1, lo, hi =>
    let mid := (hi + lo) / 2
    match c mid with
    | .lt => if mid + 1 ≤ hi then bisect c fuel (mid + 1) hi else (mid, .lt)
    | .gt => if mid = 0 then (mid, .gt)
        else if lo ≤ mid - 1 then bisect c fuel lo (mid - 1) else (mid, .gt)
    | .eq => (mid, .eq)

/-- What is known of the result: an entry that is equal, or two neighbours between which the
searched value would be. -/
def BisectSpec (c : ℕ → Ordering) (n : ℕ) : ℕ × Ordering → Prop
  | (i, .eq) => i < n ∧ c i = .eq
  | (i, .lt) => i < n ∧ (∀ j, j ≤ i → c j = .lt) ∧ ∀ j, i < j → j < n → c j = .gt
  | (i, .gt) => i < n ∧ (∀ j, j < i → c j = .lt) ∧ ∀ j, i ≤ j → j < n → c j = .gt

/-- The places along a sorted sequence: below, then equal, then above. -/
structure Ascending (c : ℕ → Ordering) (n : ℕ) : Prop where
  lt : ∀ i j, i ≤ j → j < n → c j = .lt → c i = .lt
  gt : ∀ i j, i ≤ j → j < n → c i = .gt → c j = .gt

theorem bisect_spec {c : ℕ → Ordering} {n : ℕ} (h : Ascending c n) (fuel lo hi : ℕ)
    (hfuel : hi - lo ≤ fuel) (hle : lo ≤ hi) (hn : hi < n) (hlo : ∀ j, j < lo → c j = .lt)
    (hhi : ∀ j, hi < j → j < n → c j = .gt) : BisectSpec c n (bisect c fuel lo hi) := by
  induction fuel generalizing lo hi with
  | zero =>
    have hmid : (hi + lo) / 2 = lo := by omega
    have hall : hi = lo := by omega
    subst hall
    rw [bisect, hmid]
    cases hc : c hi with
    | eq => exact ⟨hn, hc⟩
    | lt => exact ⟨hn, fun j hj => h.lt j hi hj hn hc, hhi⟩
    | gt => exact ⟨hn, hlo, fun j hj hjn => h.gt hi j hj hjn hc⟩
  | succ fuel ih =>
    have hmid : (hi + lo) / 2 < n := by omega
    have hlt : c ((hi + lo) / 2) = .lt → ∀ j, j ≤ (hi + lo) / 2 → c j = .lt :=
      fun hc j hj => h.lt j _ hj hmid hc
    have hgt : c ((hi + lo) / 2) = .gt → ∀ j, (hi + lo) / 2 ≤ j → j < n → c j = .gt :=
      fun hc j hj hjn => h.gt _ j hj hjn hc
    rw [bisect]
    cases hc : c ((hi + lo) / 2) with
    | eq => exact ⟨hmid, hc⟩
    | lt =>
      simp only
      split_ifs with hnext
      · exact ih _ _ (by omega) hnext hn (fun j hj => hlt hc j (by omega)) hhi
      · exact ⟨hmid, hlt hc, fun j hj => hhi j (by omega)⟩
    | gt =>
      simp only
      split_ifs with hzero hnext
      · exact ⟨hmid, fun j hj => by omega, hgt hc⟩
      · exact ih _ _ (by omega) hnext (by omega) hlo fun j hj => hgt hc j (by omega)
      · exact ⟨hmid, fun j hj => hlo j (by omega), hgt hc⟩

theorem bisect_spec_zero {c : ℕ → Ordering} {n : ℕ} (h : Ascending c n) (hn : 0 < n) :
    BisectSpec c n (bisect c n 0 (n - 1)) :=
  bisect_spec h n 0 (n - 1) (by omega) (by omega) (by omega)
    (fun j hj => absurd hj (Nat.not_lt_zero j)) fun j hj hjn => by omega

def bisectIdx (front : Bool) : ℕ × Ordering → ℕ
  | (i, .eq) => if front then i else i + 1
  | (i, .lt) => i + 1
  | (i, .gt) => i

section

variable {c : ℕ → Ordering} {n : ℕ} (h : Ascending c n)
  (huniq : ∀ i j, i < j → j < n → c i = .eq → c j ≠ .eq)

include h huniq

/-- Without equal entries the result tells the places of all entries. -/
theorem bisect_places (hn : 0 < n) {j : ℕ} {o : Ordering} (hr : bisect c n 0 (n - 1) = (j, o)) :
    j < n ∧ c j = o ∧ (∀ i, i < j → c i = .lt) ∧ ∀ i, j < i → i < n → c i = .gt := by
  have hspec := bisect_spec_zero h hn
  rw [hr] at hspec
  cases o with
  | lt => exact ⟨hspec.1, hspec.2.1 j le_rfl, fun i hi => hspec.2.1 i hi.le, hspec.2.2⟩
  | gt => exact ⟨hspec.1, hspec.2.2 j le_rfl hspec.1, hspec.2.1, fun i hi => hspec.2.2 i hi.le⟩
  | eq =>
    obtain ⟨hj, heq⟩ := hspec
    refine ⟨hj, heq, fun i hi => ?_, fun i hi hin => ?_⟩
    · cases hc : c i with
      | lt => rfl
      | eq => exact absurd heq (huniq i j hi hj hc)
      | gt => rw [h.gt i j hi.le hj hc] at heq; cases heq
    · cases hc : c i with
      | lt => rw [h.lt j i hi.le hin hc] at heq; cases heq
      | eq => exact absurd hc (huniq j i hi hin heq)
      | gt => rfl

theorem bisectIdx_le (front : Bool) (hn : 0 < n) :
    bisectIdx front (bisect c n 0 (n - 1)) ≤ n := by
  rcases hr : bisect c n 0 (n - 1) with ⟨j, o⟩
  obtain ⟨hj, -⟩ := bisect_places h huniq hn hr
  cases o <;> cases front <;> simp only [bisectIdx, if_true, Bool.false_eq_true, if_false] <;> omega

theorem bisectIdx_le_iff (front : Bool) {i : ℕ} (hi : i < n) :
    bisectIdx front (bisect c n 0 (n - 1)) ≤ i ↔ if front then c i ≠ .lt else c i = .gt := by
  rcases hr : bisect c n 0 (n - 1) with ⟨j, o⟩
  obtain ⟨-, ho, hbelow, habove⟩ := bisect_places h huniq (Nat.zero_lt_of_lt hi) hr
  have hplace : i < j ∧ c i = .lt ∨ i = j ∧ c i = o ∨ j < i ∧ c i = .gt := by
    rcases Nat.lt_trichotomy i j with hlt | rfl | hlt
    · exact .inl ⟨hlt, hbelow i hlt⟩
    · exact .inr (.inl ⟨rfl, ho⟩)
    · exact .inr (.inr ⟨hlt, habove i hlt hi⟩)
  rcases hplace with ⟨hij, hc⟩ | ⟨hij, hc⟩ | ⟨hij, hc⟩ <;> rw [hc] <;> cases o <;> cases front <;>
    simp [bisectIdx] <;> omega

theorem bisect_eq_iff (hn : 0 < n) (i : ℕ) :
    bisect c n 0 (n - 1) = (i, .eq) ↔ i < n ∧ c i = .eq := by
  rcases hr : bisect c n 0 (n - 1) with ⟨j, o⟩
  obtain ⟨hj, ho, hbelow, habove⟩ := bisect_places h huniq hn hr
  constructor
  · rintro ⟨⟩
    exact ⟨hj, ho⟩
  · rintro ⟨hi, hc⟩
    rcases Nat.lt_trichotomy i j with hlt | rfl | hlt
    · rw [hbelow i hlt] at hc; cases hc
    · rw [← ho, hc]
    · rw [habove i hlt hi] at hc; cases hc

end

end MySQL.Lib
