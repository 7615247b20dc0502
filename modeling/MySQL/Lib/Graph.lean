import Mathlib

/-!
# Relations without cycles

Two rules for keeping a relation free of cycles while it changes: removing edges does no
harm, and new edges from one vertex do no harm if a search from that vertex does not come
back to it.
-/

namespace MySQL.Lib

open Relation

variable {α : Type*} {r p : α → α → Prop} {v a b : α}

def Acyclic (r : α → α → Prop) : Prop := ∀ a, ¬ TransGen r a a

theorem Acyclic.mono (h : Acyclic r) (hp : ∀ a b, p a b → r a b) : Acyclic p :=
  fun a hcycle => h a (TransGen.mono hp a a hcycle)

theorem avoids_or_passes (h : TransGen r a b) :
    TransGen (fun a b => a ≠ v ∧ r a b) a b ∨ ReflTransGen r a v ∧ TransGen r v b := by
  induction h using TransGen.head_induction_on with
  | single hab =>
    rename_i a
    by_cases hav : a = v
    · subst hav
      exact .inr ⟨.refl, .single hab⟩
    · exact .inl (.single ⟨hav, hab⟩)
  | head hac hcb ih =>
    rename_i a c
    by_cases hav : a = v
    · subst hav
      exact .inr ⟨.refl, .head hac hcb⟩
    · rcases ih with havoid | ⟨hcv, hvb⟩
      · exact .inl (.head ⟨hav, hac⟩ havoid)
      · exact .inr ⟨.head hac hcv, hvb⟩

theorem acyclic_of_avoiding (h : Acyclic fun a b => a ≠ v ∧ r a b) (hv : ¬ TransGen r v v) :
    Acyclic r := by
  intro a hcycle
  rcases avoids_or_passes hcycle with havoid | ⟨hav, hva⟩
  · exact h a havoid
  · exact hv (hva.trans_left hav)

/-- What a search has finished with: every edge from a vertex of `M` leads to a vertex of
`M` or to a dead end, and never to `v`. -/
def Explored (r : α → α → Prop) (v : α) (M : α → Prop) : Prop :=
  ∀ m, M m → ∀ u, r m u → u ≠ v ∧ ((∃ w, r u w) → M u)

theorem Explored.not_transGen {M : α → Prop} (h : Explored r v M) (hv : M v) :
    ¬ TransGen r v v := by
  have hreach : ∀ b, TransGen r v b → b ≠ v ∧ ((∃ w, r b w) → M b) := by
    intro b hb
    induction hb with
    | single hvb => exact h v hv _ hvb
    | tail _ hbc ih => exact h _ (ih.2 ⟨_, hbc⟩) _ hbc
  exact fun hcycle => (hreach v hcycle).1 rfl

end MySQL.Lib
