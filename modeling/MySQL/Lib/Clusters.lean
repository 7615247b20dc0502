import Mathlib

/-!
# Lists cut into clusters

A list is cut into clusters; each of them ends with the place that owns it.  A directory keeps
the owners only.
-/

namespace MySQL.Lib

open List

structure Cluster (α : Type*) where
  init : List α
  owner : α

namespace Cluster

variable {α : Type*} {a : α} {G : Cluster α} {g g₁ g₂ : List (Cluster α)} {l₁ l₂ : List α}

def toList (G : Cluster α) : List α := G.init ++ [G.owner]

def size (G : Cluster α) : ℕ := G.init.length + 1

@[simp] theorem length_toList (G : Cluster α) : G.toList.length = G.size := by
  simp [toList, size]

theorem mem_toList : a ∈ G.toList ↔ a ∈ G.init ∨ a = G.owner := by
  simp [toList]

theorem owner_mem (G : Cluster α) : G.owner ∈ G.toList := by simp [toList]

def flat (g : List (Cluster α)) : List α := g.flatMap toList

@[simp] theorem flat_nil : flat ([] : List (Cluster α)) = [] := rfl

@[simp] theorem flat_cons : flat (G :: g) = G.toList ++ flat g := rfl

@[simp] theorem flat_append : flat (g₁ ++ g₂) = flat g₁ ++ flat g₂ := flatMap_append

theorem flat_cut (g₁ g₂ : List (Cluster α)) (i j : List α) (o : α) :
    flat (g₁ ++ [⟨i ++ j, o⟩] ++ g₂) = (flat g₁ ++ i) ++ (j ++ o :: flat g₂) := by
  simp [toList]

theorem mem_flat : a ∈ flat g ↔ ∃ G ∈ g, a ∈ G.toList := mem_flatMap

theorem owners_sublist (g : List (Cluster α)) : (g.map owner).Sublist (flat g) := by
  induction g with
  | nil => exact .slnil
  | cons G g ih =>
    rw [flat_cons, toList, append_assoc]
    exact (ih.cons_cons G.owner).trans (sublist_append_right ..)

theorem exists_cut (h : flat g = l₁ ++ l₂) (hne : l₂ ≠ []) :
    ∃ g₁ i j o g₂, g = g₁ ++ ⟨i ++ j, o⟩ :: g₂ ∧ l₁ = flat g₁ ++ i ∧ l₂ = j ++ o :: flat g₂ := by
  induction g generalizing l₁ with
  | nil =>
    obtain ⟨-, rfl⟩ := append_eq_nil_iff.mp h.symm
    exact absurd rfl hne
  | cons G g ih =>
    obtain ⟨init, o⟩ := G
    have hlist : init ++ (o :: flat g) = l₁ ++ l₂ := by simpa [toList] using h
    rcases append_eq_append_iff.mp hlist with ⟨i, hl₁, hg⟩ | ⟨j, rfl, hl₂⟩
    · cases i with
      | nil => exact ⟨[], init, [], o, g, by simp, by simpa using hl₁, hg.symm⟩
      | cons b i =>
        injection hg with hob hrest
        obtain ⟨g₁, i', j, o', g₂, rfl, hi, hl₂⟩ := ih hrest
        exact ⟨⟨init, o⟩ :: g₁, i', j, o', g₂, rfl, by simp [hl₁, hi, hob, toList], hl₂⟩
    · exact ⟨[], l₁, j, o, g, rfl, rfl, hl₂⟩

def Sized (lo hi : ℕ) : List (Cluster α) → Prop
  | [] => False
  | [G] => G.size ≤ hi
  | G :: G' :: g => lo ≤ G.size ∧ G.size ≤ hi ∧ Sized lo hi (G' :: g)

section Sized

variable {lo hi : ℕ} {G' : Cluster α}

@[simp] theorem sized_singleton : Sized lo hi [G] ↔ G.size ≤ hi := Iff.rfl

theorem sized_cons (hne : g ≠ []) :
    Sized lo hi (G :: g) ↔ lo ≤ G.size ∧ G.size ≤ hi ∧ Sized lo hi g := by
  obtain ⟨G', g', rfl⟩ := exists_cons_of_ne_nil hne
  exact Iff.rfl

theorem sized_append (hne : g₂ ≠ []) :
    Sized lo hi (g₁ ++ g₂) ↔ (∀ G ∈ g₁, lo ≤ G.size ∧ G.size ≤ hi) ∧ Sized lo hi g₂ := by
  induction g₁ with
  | nil => simp
  | cons G g₁ ih =>
    rw [cons_append, sized_cons (append_ne_nil_of_right_ne_nil g₁ hne), forall_mem_cons]
    tauto

theorem sized_cons_iff :
    Sized lo hi (G :: g) ↔ G.size ≤ hi ∧ (g ≠ [] → lo ≤ G.size ∧ Sized lo hi g) := by
  cases g with
  | nil => simp
  | cons G' g =>
    rw [sized_cons (cons_ne_nil G' g)]
    tauto

theorem sized_middle : Sized lo hi (g₁ ++ G :: g₂) ↔ (∀ G ∈ g₁, lo ≤ G.size ∧ G.size ≤ hi) ∧
    G.size ≤ hi ∧ (g₂ ≠ [] → lo ≤ G.size ∧ Sized lo hi g₂) := by
  rw [sized_append (cons_ne_nil G g₂), sized_cons_iff]

theorem Sized.set (h : Sized lo hi (g₁ ++ G :: g₂)) (hlo : g₂ ≠ [] → lo ≤ G'.size)
    (hhi : G'.size ≤ hi) : Sized lo hi (g₁ ++ G' :: g₂) := by
  obtain ⟨hleft, -, hright⟩ := sized_middle.mp h
  exact sized_middle.mpr ⟨hleft, hhi, fun hne => ⟨hlo hne, (hright hne).2⟩⟩

theorem Sized.split {G₁ G₂ : Cluster α} (h : Sized lo hi (g₁ ++ G :: g₂))
    (h₁ : lo ≤ G₁.size ∧ G₁.size ≤ hi) (h₂ : lo ≤ G₂.size ∧ G₂.size ≤ hi) :
    Sized lo hi (g₁ ++ G₁ :: G₂ :: g₂) := by
  obtain ⟨hleft, hright⟩ := (sized_append (cons_ne_nil G₂ g₂)).mp (h.set (fun _ => h₂.1) h₂.2)
  exact sized_middle.mpr ⟨hleft, h₁.2, fun _ => ⟨h₁.1, hright⟩⟩

theorem Sized.ne_nil (h : Sized lo hi g) : g ≠ [] := by
  rintro rfl
  exact h

end Sized

end Cluster

end MySQL.Lib
