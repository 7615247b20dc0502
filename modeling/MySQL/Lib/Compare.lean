import Mathlib

/-!
# Comparison functions

A comparison function gives the sign of an order in which different values may be equal.
-/

namespace MySQL.Lib

variable {α : Type*} {cmp : α → α → ℤ} {a b c : α}

/-- The signs of `cmp` are those of a total preorder. -/
structure TotalCmp (cmp : α → α → ℤ) : Prop where
  swap : ∀ a b, 0 < cmp a b ↔ cmp b a < 0
  trans : ∀ a b c, cmp a b ≤ 0 → cmp b c ≤ 0 → cmp a c ≤ 0

namespace TotalCmp

theorem self (h : TotalCmp cmp) (a : α) : cmp a a = 0 := by
  have hswap := h.swap a a
  omega

theorem not_lt (h : TotalCmp cmp) : ¬ cmp a b < 0 ↔ cmp b a ≤ 0 := by
  have hswap := h.swap b a
  omega

theorem le_of_lt (h : TotalCmp cmp) (hab : 0 ≤ cmp a b) : cmp b a ≤ 0 :=
  h.not_lt.mp (not_lt_of_ge hab)

theorem mul_sign (h : TotalCmp cmp) {m : ℤ} (hm : m = 1 ∨ m = -1) :
    TotalCmp fun a b => cmp a b * m := by
  rcases hm with rfl | rfl
  · simpa using h
  · refine ⟨fun a b => ?_, fun a b c hab hbc => ?_⟩
    · have hswap := h.swap b a
      omega
    · have hba : cmp b a ≤ 0 := h.le_of_lt (by omega)
      have hcb : cmp c b ≤ 0 := h.le_of_lt (by omega)
      have hca := h.trans c b a hcb hba
      have hac : ¬ cmp a c < 0 := h.not_lt.mpr hca
      omega

end TotalCmp

end MySQL.Lib
