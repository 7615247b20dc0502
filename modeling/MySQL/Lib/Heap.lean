import Mathlib

/-!
# Binary heaps in an array

The children of the position `i` are `2 * i` and `2 * i + 1`, beginning with position 1.  Only the
edges below a position are looked at, so that a heap can be built from its end.  While a value is
on its way to its place, the array has a hole: its edges are not in order, but what is below the
hole is in order with what is above it.
-/

namespace MySQL.Lib

open Function

variable {α : Type*} {le : α → α → Prop} {f : ℕ → α} {b n h c i : ℕ} {x : α}

/-- The edges with a parent from `b` on are in order. -/
def HeapFrom (le : α → α → Prop) (b n : ℕ) (f : ℕ → α) : Prop :=
  ∀ i ≤ n, b ≤ i / 2 → le (f (i / 2)) (f i)

instance [DecidableRel le] : Decidable (HeapFrom le b n f) :=
  inferInstanceAs (Decidable (∀ i ≤ n, b ≤ i / 2 → le (f (i / 2)) (f i)))

/-- The array but for a hole at `h`. -/
structure HeapHole (le : α → α → Prop) (b n h : ℕ) (f : ℕ → α) : Prop where
  order : ∀ i ≤ n, b ≤ i / 2 → i ≠ h → i / 2 ≠ h → le (f (i / 2)) (f i)
  skip : ∀ i ≤ n, i / 2 = h → b ≤ h / 2 → le (f (h / 2)) (f i)

theorem HeapFrom.hole (htrans : ∀ a b c, le a b → le b c → le a c) (hf : HeapFrom le b n f)
    (hh : 0 < h) : HeapHole le b n h (update f h x) where
  order i hi hb hih hpih := by
    rw [update_of_ne hih, update_of_ne hpih]
    exact hf i hi hb
  skip i hi hih hb := by
    rw [update_of_ne (by omega), update_of_ne (by omega)]
    refine htrans _ _ _ (hf h (by omega) hb) ?_
    have hle := hf i hi (by omega)
    rwa [hih] at hle

namespace HeapHole

theorem sink (hf : HeapHole le b n h f) (hb : 0 < b) (hbh : b ≤ h) (hc : c / 2 = h) (hcn : c ≤ n)
    (hmin : ∀ i ≤ n, i / 2 = h → le (f c) (f i)) :
    HeapHole le b n c (update f h (f c)) where
  order i hi hbi hic hpic := by
    by_cases hih : i = h
    · subst hih
      rw [update_self, update_of_ne (by omega)]
      exact hf.skip c hcn hc hbi
    · rw [update_of_ne hih]
      by_cases hpih : i / 2 = h
      · rw [hpih, update_self]
        exact hmin i hi hpih
      · rw [update_of_ne hpih]
        exact hf.order i hi hbi hih hpih
  skip i hi hic hbc := by
    rw [hc, update_self, update_of_ne (by omega), ← hic]
    exact hf.order i hi (by omega) (by omega) (by omega)

theorem climb (htrans : ∀ a b c, le a b → le b c → le a c) (hf : HeapHole le b n h f) (hb : 0 < b)
    (hbh : b ≤ h / 2) (hn : h ≤ n) :
    HeapHole le b n (h / 2) (update f h (f (h / 2))) where
  order i hi hbi hip hpip := by
    have hih : i ≠ h := by
      rintro rfl
      exact hpip rfl
    rw [update_of_ne hih]
    by_cases hpih : i / 2 = h
    · rw [hpih, update_self]
      exact hf.skip i hi hpih hbh
    · rw [update_of_ne hpih]
      exact hf.order i hi hbi hih hpih
  skip i hi hip hbp := by
    have hup := hf.order (h / 2) (by omega) hbp (by omega) (by omega)
    rw [update_of_ne (by omega : h / 2 / 2 ≠ h)]
    by_cases hih : i = h
    · rw [hih, update_self]
      exact hup
    · rw [update_of_ne hih]
      refine htrans _ _ _ hup ?_
      rw [← hip]
      exact hf.order i hi (by omega) hih (by omega)

theorem fill (hf : HeapHole le b n h f) (hb : 0 < b) (hup : h ≤ n → b ≤ h / 2 → le (f (h / 2)) x)
    (hdown : ∀ i ≤ n, i / 2 = h → le x (f i)) : HeapFrom le b n (update f h x) := by
  intro i hi hbi
  by_cases hih : i = h
  · subst hih
    rw [update_self, update_of_ne (by omega)]
    exact hup hi hbi
  · rw [update_of_ne hih]
    by_cases hpih : i / 2 = h
    · rw [hpih, update_self]
      exact hdown i hi hpih
    · rw [update_of_ne hpih]
      exact hf.order i hi hbi hih hpih

end HeapHole

theorem HeapFrom.top_le (hrefl : ∀ a, le a a) (htrans : ∀ a b c, le a b → le b c → le a c)
    (hf : HeapFrom le 1 n f) (hi : 1 ≤ i) (hin : i ≤ n) : le (f 1) (f i) := by
  induction i using Nat.strongRecOn with
  | ind i ih =>
    by_cases h1 : i = 1
    · rw [h1]
      exact hrefl _
    · exact htrans _ _ _ (ih (i / 2) (by omega) (by omega) (by omega)) (hf i hin (by omega))

end MySQL.Lib
