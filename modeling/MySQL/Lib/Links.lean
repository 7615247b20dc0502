import Mathlib

/-!
# Lists linked by a successor function

A list of places is linked if each place points to the one after it.  What the last place
points to is left open, so linked lists can be cut and joined at any place.
-/

namespace MySQL.Lib

open List

variable {α : Type*} {next next' : α → α} {a b c : α} {l l₁ l₂ : List α}

def Links (next : α → α) (l : List α) : Prop := l.IsChain fun a b => next a = b

theorem links_split : Links next (l₁ ++ a :: l₂) ↔ Links next (l₁ ++ [a]) ∧ Links next (a :: l₂) :=
  isChain_split

theorem links_cons_cons : Links next (a :: b :: l) ↔ next a = b ∧ Links next (b :: l) :=
  isChain_cons_cons

theorem links_singleton (next : α → α) (a : α) : Links next [a] := .singleton a

theorem Links.congr (h : Links next l) (heq : ∀ a ∈ l.dropLast, next' a = next a) :
    Links next' l := by
  induction l with
  | nil => exact .nil
  | cons a l ih =>
    cases l with
    | nil => exact .singleton a
    | cons b l =>
      obtain ⟨hab, htail⟩ := links_cons_cons.mp h
      obtain ⟨ha, hrest⟩ := forall_mem_cons.mp heq
      exact links_cons_cons.mpr ⟨ha.trans hab, ih htail hrest⟩

theorem Links.iterate (h : Links next (a :: (l ++ [b]))) : next^[l.length + 1] a = b := by
  induction l generalizing a with
  | nil => exact (links_cons_cons.mp h).1
  | cons c l ih =>
    obtain ⟨hac, htail⟩ := links_cons_cons.mp h
    rw [Function.iterate_succ_apply, hac]
    exact ih htail

theorem Links.insert (h : Links next (l₁ ++ a :: b :: l₂)) (hnodup : (l₁ ++ a :: b :: l₂).Nodup)
    (hc : c ∉ l₁ ++ a :: b :: l₂) (hnext : ∀ x, x ≠ a → x ≠ c → next' x = next x)
    (ha : next' a = c) (hcb : next' c = b) : Links next' (l₁ ++ a :: c :: b :: l₂) := by
  obtain ⟨hleft, hright⟩ := links_split.mp h
  obtain ⟨-, hright⟩ := links_cons_cons.mp hright
  simp only [mem_append, mem_cons, not_or] at hc
  obtain ⟨hcl, -, hcb', hcr⟩ := hc
  rw [nodup_append] at hnodup
  obtain ⟨-, hnodup, hdisjoint⟩ := hnodup
  obtain ⟨har, -⟩ := nodup_cons.mp hnodup
  refine links_split.mpr ⟨hleft.congr fun x hx => ?_,
    links_cons_cons.mpr ⟨ha, links_cons_cons.mpr ⟨hcb, hright.congr fun x hx => ?_⟩⟩⟩
  · rw [dropLast_concat] at hx
    refine hnext x (hdisjoint x hx a mem_cons_self) ?_
    rintro rfl
    exact hcl hx
  · have hmem := (dropLast_sublist _).subset hx
    refine hnext x ?_ ?_
    · rintro rfl
      exact har hmem
    · rintro rfl
      exact (mem_cons.mp hmem).elim hcb' hcr

theorem Links.remove (h : Links next (l₁ ++ a :: c :: b :: l₂))
    (hnodup : (l₁ ++ a :: c :: b :: l₂).Nodup) (hnext : ∀ x, x ≠ a → x ≠ c → next' x = next x)
    (ha : next' a = b) : Links next' (l₁ ++ a :: b :: l₂) := by
  obtain ⟨hleft, hright⟩ := links_split.mp h
  obtain ⟨-, hright⟩ := links_cons_cons.mp hright
  obtain ⟨-, hright⟩ := links_cons_cons.mp hright
  rw [nodup_append] at hnodup
  obtain ⟨-, hnodup, hdisjoint⟩ := hnodup
  obtain ⟨hac, hnodup⟩ := nodup_cons.mp hnodup
  obtain ⟨hcb, -⟩ := nodup_cons.mp hnodup
  refine links_split.mpr ⟨hleft.congr fun x hx => ?_,
    links_cons_cons.mpr ⟨ha, hright.congr fun x hx => ?_⟩⟩
  · rw [dropLast_concat] at hx
    exact hnext x (hdisjoint x hx a mem_cons_self)
      (hdisjoint x hx c (mem_cons_of_mem a mem_cons_self))
  · have hmem := (dropLast_sublist _).subset hx
    refine hnext x ?_ ?_
    · rintro rfl
      exact hac (mem_cons_of_mem c hmem)
    · rintro rfl
      exact hcb hmem

end MySQL.Lib
