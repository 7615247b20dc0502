import Mathlib

/-!
# Iterators with an end mark

An iterator is a state with a function that returns the next element and the state after it,
or an end mark.
-/

namespace MySQL.Lib

open List

variable {σ α : Type*} (next : σ → Option α × σ)

/-- What at most `n` calls return before the first end mark. -/
def drain : ℕ → σ → List α
  | 0, _ => []
  | n + 1, s =>
    match next s with
    | (none, _) => []
    | (some a, t) => a :: drain n t

def Yields (s : σ) (a : α) : Prop := ∃ n, a ∈ drain next n s

variable {next} {s t : σ} {a b : α}

theorem drain_of_some (h : next s = (some b, t)) (n : ℕ) :
    drain next (n + 1) s = b :: drain next n t := by
  rw [drain, h]

theorem drain_of_none (h : next s = (none, t)) (n : ℕ) : drain next n s = [] := by
  cases n with
  | zero => rfl
  | succ n => rw [drain, h]

theorem not_yields (h : next s = (none, t)) : ¬ Yields next s a := by
  rintro ⟨n, hn⟩
  rw [drain_of_none h] at hn
  exact not_mem_nil hn

theorem yields_iff (h : next s = (some b, t)) : Yields next s a ↔ a = b ∨ Yields next t a := by
  constructor
  · rintro ⟨n, hn⟩
    cases n with
    | zero => exact absurd hn not_mem_nil
    | succ n =>
      rw [drain_of_some h, mem_cons] at hn
      exact hn.imp_right fun hn => ⟨n, hn⟩
  · rintro (rfl | ⟨n, hn⟩)
    · exact ⟨1, by rw [drain_of_some h]; exact mem_cons_self⟩
    · exact ⟨n + 1, by rw [drain_of_some h]; exact mem_cons_of_mem b hn⟩

theorem yields_congr (h : next s = next t) : Yields next s a ↔ Yields next t a := by
  cases ht : next t with
  | mk o u =>
    cases o with
    | none => exact iff_of_false (not_yields (h.trans ht)) (not_yields ht)
    | some b => rw [yields_iff (h.trans ht), yields_iff ht]

theorem yields_map {τ : Type*} {next' : τ → Option α × τ} (f : σ → τ)
    (h : ∀ s, next' (f s) = (next s).map id f) : Yields next' (f s) a ↔ Yields next s a := by
  have hdrain : ∀ n s, drain next' n (f s) = drain next n s := by
    intro n
    induction n with
    | zero => exact fun _ => rfl
    | succ n ih =>
      intro s
      have hs := h s
      rcases hn : next s with ⟨_ | b, t⟩
      · rw [hn] at hs
        rw [drain_of_none hn, drain_of_none hs]
      · rw [hn] at hs
        rw [drain_of_some hn, drain_of_some hs, ih]
  simp only [Yields, hdrain]

end MySQL.Lib
