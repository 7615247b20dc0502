import Mathlib

/-!
# Counting the parties that are in a given place

Finitely many parties each have a place; `count` says how many of them are in a
place with a property.  A step that moves one party changes the count by what that
party contributes.
-/

namespace MySQL.Lib

open Function

variable {ι α : Type*} (T : Finset ι) (p : α → Prop) [DecidablePred p]

/-- The number of parties of `T` whose place satisfies `p`. -/
def count (f : ι → α) : ℕ := (T.filter fun t => p (f t)).card

variable {T p}

theorem count_eq_sum (f : ι → α) : count T p f = ∑ t ∈ T, if p (f t) then 1 else 0 :=
  Finset.card_filter _ _

theorem count_le_card (f : ι → α) : count T p f ≤ T.card :=
  Finset.card_filter_le _ _

theorem count_eq_zero_iff {f : ι → α} : count T p f = 0 ↔ ∀ t ∈ T, ¬ p (f t) := by
  simp [count, Finset.filter_eq_empty_iff]

theorem count_pos {f : ι → α} {t : ι} (ht : t ∈ T) (hp : p (f t)) : 0 < count T p f :=
  Finset.card_pos.mpr ⟨t, Finset.mem_filter.mpr ⟨ht, hp⟩⟩

theorem count_update [DecidableEq ι] (f : ι → α) {t : ι} (ht : t ∈ T) (x : α) :
    count T p (update f t x) + (if p (f t) then 1 else 0) =
      count T p f + if p x then 1 else 0 := by
  have hrest : ∑ u ∈ T.erase t, (if p (update f t x u) then 1 else 0) =
      ∑ u ∈ T.erase t, if p (f u) then 1 else 0 := by
    refine Finset.sum_congr rfl ?_
    intro u hu
    rw [update_of_ne (Finset.ne_of_mem_erase hu)]
  rw [count_eq_sum, count_eq_sum, ← Finset.add_sum_erase T _ ht, ← Finset.add_sum_erase T _ ht,
    update_self]
  omega

theorem count_update_of_iff [DecidableEq ι] (f : ι → α) {t : ι} (ht : t ∈ T) {x : α}
    (h : p x ↔ p (f t)) : count T p (update f t x) = count T p f := by
  have := count_update (p := p) f ht x
  simp only [h] at this
  omega

end MySQL.Lib
