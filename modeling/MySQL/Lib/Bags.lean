import Mathlib

/-!
# The values of a part of an array

The values that stand at some positions, each as often as it stands there.
-/

namespace MySQL.Lib

open Function

variable {α : Type*} {f g : ℕ → α} {s : Finset ℕ} {i j : ℕ} {x : α}

def bag (f : ℕ → α) (s : Finset ℕ) : Multiset α := s.val.map f

theorem mem_bag : x ∈ bag f s ↔ ∃ i ∈ s, f i = x := Multiset.mem_map

theorem bag_congr (h : ∀ i ∈ s, f i = g i) : bag f s = bag g s :=
  Multiset.map_congr rfl h

theorem bag_insert (hi : i ∉ s) : bag f (insert i s) = f i ::ₘ bag f s := by
  rw [bag, Finset.insert_val_of_notMem hi, Multiset.map_cons, bag]

theorem bag_update_insert (hi : i ∉ s) : bag (update f i x) (insert i s) = x ::ₘ bag f s := by
  rw [bag_insert hi, update_self]
  congr 1
  refine bag_congr fun j hj => update_of_ne ?_ ..
  rintro rfl
  exact hi hj

theorem bag_comp_swap (hi : i ∈ s) (hj : j ∈ s) : bag (f ∘ Equiv.swap i j) s = bag f s := by
  have hmap : s.map (Equiv.swap i j).toEmbedding = s := by
    refine Finset.eq_of_subset_of_card_le (fun k hk => ?_) (by simp)
    obtain ⟨l, hl, rfl⟩ := Finset.mem_map.mp hk
    rw [Equiv.coe_toEmbedding, Equiv.swap_apply_def]
    split
    · exact hj
    · split
      · exact hi
      · exact hl
  have hval : s.val.map (Equiv.swap i j) = s.val := congrArg Finset.val hmap
  rw [bag, ← Multiset.map_map, hval, bag]

theorem bag_move (hi : i ∈ s) (hj : j ∈ s) :
    bag (update (update f i (f j)) j x) s = bag (update f i x) s := by
  rw [← bag_comp_swap hi hj (f := update f i x)]
  refine bag_congr fun k _ => ?_
  rw [comp_apply, Equiv.swap_apply_def]
  by_cases hkj : k = j
  · subst hkj
    by_cases hki : k = i
    · simp [hki]
    · simp [hki]
  · by_cases hki : k = i
    · subst hki
      rw [update_of_ne hkj, update_self, if_pos rfl,
        update_of_ne (Ne.symm hkj)]
    · simp [hki, hkj]

end MySQL.Lib
