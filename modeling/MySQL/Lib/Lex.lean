import Mathlib

/-!
# Comparing the heads of tuples

Tuples are compared from left to right, each component by an order of its own, until one of
them ends: a short tuple is equal to all tuples that begin with it.
-/

namespace MySQL.Lib

variable {γ : Type*}

def headCmp (c : ℕ → γ → γ → Ordering) : ℕ → List γ → List γ → Ordering
  | _, [], _ => .eq
  | _, _ :: _, [] => .eq
  | i, a :: l, b :: l' => (c i a b).then (headCmp c (i + 1) l l')

section

variable {c : ℕ → γ → γ → Ordering} {i : ℕ} {l₁ l₂ l₃ : List γ}

theorem headCmp_swap (l l' : List γ) :
    headCmp (fun i a b => (c i a b).swap) i l l' = (headCmp c i l l').swap := by
  induction l generalizing i l' with
  | nil => rfl
  | cons a l ih =>
    cases l' with
    | nil => rfl
    | cons b l' => simp only [headCmp, ih, Ordering.swap_then]

theorem lt_or_eq_trans {cmp : γ → γ → Ordering} [Std.TransCmp cmp] {x y z : γ} {p q r : Prop}
    (hxy : cmp x y = .lt ∨ cmp x y = .eq ∧ p) (hyz : cmp y z = .lt ∨ cmp y z = .eq ∧ q)
    (hr : p → q → r) : cmp x z = .lt ∨ cmp x z = .eq ∧ r := by
  rcases hxy with hxy | ⟨hxy, hp⟩ <;> rcases hyz with hyz | ⟨hyz, hq⟩
  · exact .inl (Std.TransCmp.lt_trans hxy hyz)
  · exact .inl (Std.TransCmp.lt_of_lt_of_eq hxy hyz)
  · exact .inl (Std.TransCmp.lt_of_eq_of_lt hxy hyz)
  · exact .inr ⟨Std.TransCmp.eq_trans hxy hyz, hr hp hq⟩

variable [∀ i, Std.TransCmp (c i)]

section

variable (h₁₂ : l₁.length ≤ l₂.length) (h₂₃ : l₂.length ≤ l₃.length)

include h₁₂ h₂₃

theorem headCmp_trans :
    (headCmp c i l₁ l₂ = .lt → (headCmp c i l₂ l₃).isLE → headCmp c i l₁ l₃ = .lt) ∧
      ((headCmp c i l₁ l₂).isLE → (headCmp c i l₂ l₃).isLE → (headCmp c i l₁ l₃).isLE) ∧
        (l₁.length = l₂.length → (headCmp c i l₁ l₂).isLE → headCmp c i l₂ l₃ = .lt →
          headCmp c i l₁ l₃ = .lt) := by
  induction l₁ generalizing i l₂ l₃ with
  | nil =>
    refine ⟨fun h => ?_, fun _ _ => rfl, fun hlen _ h => ?_⟩
    · cases h
    · rw [List.length_eq_zero_iff.mp hlen.symm] at h
      cases h
  | cons x l₁ ih =>
    obtain ⟨y, l₂, rfl⟩ := List.exists_cons_of_length_pos (Nat.zero_lt_of_lt h₁₂)
    obtain ⟨z, l₃, rfl⟩ := List.exists_cons_of_length_pos (Nat.zero_lt_of_lt h₂₃)
    have h₁₂ := Nat.le_of_succ_le_succ h₁₂
    obtain ⟨hlt, hle, hlast⟩ := ih h₁₂ (Nat.le_of_succ_le_succ h₂₃)
    simp only [headCmp, Ordering.then_eq_lt, Ordering.isLE_then_iff_or, List.length_cons,
      Nat.succ.injEq]
    exact ⟨fun h h' => lt_or_eq_trans h h' hlt, fun h h' => lt_or_eq_trans h h' hle,
      fun hlen h h' => lt_or_eq_trans h h' (hlast hlen)⟩

theorem headCmp_lt_of_lt_of_isLE (h : headCmp c i l₁ l₂ = .lt) (h' : (headCmp c i l₂ l₃).isLE) :
    headCmp c i l₁ l₃ = .lt :=
  (headCmp_trans h₁₂ h₂₃).1 h h'

theorem headCmp_isLE_trans (h : (headCmp c i l₁ l₂).isLE) (h' : (headCmp c i l₂ l₃).isLE) :
    (headCmp c i l₁ l₃).isLE :=
  (headCmp_trans h₁₂ h₂₃).2.1 h h'

end

theorem headCmp_lt_of_isLE_of_lt (h₁₂ : l₁.length = l₂.length) (h₂₃ : l₂.length ≤ l₃.length)
    (h : (headCmp c i l₁ l₂).isLE) (h' : headCmp c i l₂ l₃ = .lt) : headCmp c i l₁ l₃ = .lt :=
  (headCmp_trans (Nat.le_of_eq h₁₂) h₂₃).2.2 h₁₂ h h'

/-! ### The reversed orders -/

instance swapTransCmp (i : ℕ) : Std.TransCmp fun a b => (c i a b).swap where
  eq_swap {a b} := congrArg Ordering.swap Std.OrientedCmp.eq_swap
  isLE_trans {x y z} hxy hyz := by
    rw [← Std.OrientedCmp.eq_swap] at hxy hyz ⊢
    exact Std.TransCmp.isLE_trans hyz hxy

theorem headCmp_gt_of_gt_of_isGE (h₁₂ : l₁.length ≤ l₂.length) (h₂₃ : l₂.length ≤ l₃.length)
    (h : headCmp c i l₁ l₂ = .gt) (h' : (headCmp c i l₂ l₃).isGE) : headCmp c i l₁ l₃ = .gt := by
  have hswap := headCmp_lt_of_lt_of_isLE (c := fun i a b => (c i a b).swap) (i := i) h₁₂ h₂₃
  simp only [headCmp_swap, Ordering.swap_eq_lt, Ordering.isLE_swap] at hswap
  exact hswap h h'

theorem headCmp_isGE_trans (h₁₂ : l₁.length ≤ l₂.length) (h₂₃ : l₂.length ≤ l₃.length)
    (h : (headCmp c i l₁ l₂).isGE) (h' : (headCmp c i l₂ l₃).isGE) : (headCmp c i l₁ l₃).isGE := by
  have hswap := headCmp_isLE_trans (c := fun i a b => (c i a b).swap) (i := i) h₁₂ h₂₃
  simp only [headCmp_swap, Ordering.isLE_swap] at hswap
  exact hswap h h'

end

end MySQL.Lib
