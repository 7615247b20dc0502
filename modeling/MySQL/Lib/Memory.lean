import Mathlib

/-!
# Memory that is written and read through pointers

A memory has a value at every address.  What stands from an address on is a list of values, and
writing a list changes nothing else.
-/

namespace MySQL.Lib

open Function

variable {β : Type*} {m m' : ℕ → β} {p q : ℕ} {l l' : List β} {b : β}

section

variable (m : ℕ → β) (p : ℕ) (l : List β)

def write : ℕ → β :=
  fun q => if q < p then m q else (l[q - p]?).getD (m q)

def Stands : Prop := ∀ i b, l[i]? = some b → m (p + i) = b

def shifted : ℕ → β := fun i => m (p + i)

def slice (p n : ℕ) : List β := (List.range n).map fun i => m (p + i)

end

theorem write_of_lt (h : q < p) : write m p l q = m q := if_pos h

theorem write_of_le (h : p + l.length ≤ q) : write m p l q = m q := by
  rw [write, if_neg (by omega), List.getElem?_eq_none (by omega), Option.getD_none]

section

variable (m : ℕ → β) (p : ℕ)

@[simp] theorem write_nil : write m p [] = m := by
  funext q
  simp [write]

theorem stands_write (l : List β) : Stands (write m p l) p l := by
  intro i b hb
  rw [write, if_neg (by omega), Nat.add_sub_cancel_left, hb, Option.getD_some]

theorem stands_nil : Stands m p [] := by
  intro i b hb
  simp at hb

end

theorem stands_append : Stands m p (l ++ l') ↔ Stands m p l ∧ Stands m (p + l.length) l' := by
  constructor
  · refine fun h => ⟨fun i b hb => h i b ?_, fun i b hb => ?_⟩
    · rw [List.getElem?_append_left (List.getElem?_eq_some_iff.mp hb).1, hb]
    · rw [Nat.add_assoc]
      refine h _ b ?_
      rw [List.getElem?_append_right (by omega), Nat.add_sub_cancel_left, hb]
  · rintro ⟨h, h'⟩ i b hb
    by_cases hi : i < l.length
    · rw [List.getElem?_append_left hi] at hb
      exact h i b hb
    · rw [List.getElem?_append_right (by omega)] at hb
      have heq := h' _ b hb
      rwa [show p + l.length + (i - l.length) = p + i by omega] at heq

theorem stands_singleton : Stands m p [b] ↔ m p = b := by
  constructor
  · exact fun h => h 0 b rfl
  · intro h i c hc
    obtain ⟨rfl, rfl⟩ : i = 0 ∧ b = c := by
      cases i <;> simp_all
    exact h

theorem stands_shifted : Stands (shifted m p) q l ↔ Stands m (p + q) l := by
  simp only [Stands, shifted, Nat.add_assoc]

theorem Stands.congr (h : Stands m p l) (hm : ∀ q, p ≤ q → q < p + l.length → m' q = m q) :
    Stands m' p l := by
  intro i b hb
  rw [hm _ (by omega)]
  · exact h i b hb
  · have hi := (List.getElem?_eq_some_iff.mp hb).1
    omega

theorem Stands.write_of_disjoint (h : Stands m p l) (hq : q + l'.length ≤ p ∨ p + l.length ≤ q) :
    Stands (write m q l') p l := by
  refine h.congr fun r hr hr' => ?_
  rcases hq with hq | hq
  · exact write_of_le (by omega)
  · exact write_of_lt (by omega)

@[simp] theorem length_slice (m : ℕ → β) (p n : ℕ) : (slice m p n).length = n := by
  simp [slice]

@[simp] theorem slice_zero (m : ℕ → β) (p : ℕ) : slice m p 0 = [] := rfl

theorem slice_add (m : ℕ → β) (p n k : ℕ) :
    slice m p (n + k) = slice m p n ++ slice m (p + n) k := by
  simp [slice, List.range_add, Nat.add_assoc]

theorem slice_congr {n : ℕ} (h : ∀ q, p ≤ q → q < p + n → m' q = m q) :
    slice m' p n = slice m p n :=
  List.map_congr_left fun _ hi => h _ (Nat.le_add_right _ _)
    (Nat.add_lt_add_left (List.mem_range.mp hi) _)

theorem stands_iff_slice : Stands m p l ↔ slice m p l.length = l := by
  constructor
  · intro h
    refine List.ext_getElem? fun i => ?_
    by_cases hi : i < l.length
    · simp [slice, hi, h i _ (List.getElem?_eq_getElem hi)]
    · rw [List.getElem?_eq_none (by simpa using hi), List.getElem?_eq_none (by omega)]
  · intro h i b hb
    have hi := (List.getElem?_eq_some_iff.mp hb).1
    rw [← h] at hb
    simpa [slice, hi] using hb

theorem stands_slice (m : ℕ → β) (p n : ℕ) : Stands m p (slice m p n) :=
  stands_iff_slice.mpr (by rw [length_slice])

theorem Stands.slice_eq (h : Stands m p l) {n : ℕ} (hn : n = l.length) : slice m p n = l := by
  rw [hn]
  exact stands_iff_slice.mp h

end MySQL.Lib
