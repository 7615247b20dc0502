import Mathlib

/-!
# Chains of cells

A memory of cells with a datum and the address of the next cell.  A segment is a list of
addresses and data that the cells hold one after another; what the last cell points to is part
of the statement, so segments can be cut and joined.
-/

namespace MySQL.Lib

open List Function

structure Cell (ι δ : Type*) where
  next : Option ι
  data : δ

variable {ι δ : Type*}

def first : List (ι × δ) → Option ι → Option ι
  | [], e => e
  | p :: _, _ => some p.1

/-- The cells hold the segment, and behind it comes `e`. -/
def Seg (mem : ι → Cell ι δ) : List (ι × δ) → Option ι → Prop
  | [], _ => True
  | p :: l, e => mem p.1 = ⟨first l e, p.2⟩ ∧ Seg mem l e

variable {mem mem' : ι → Cell ι δ} {l m : List (ι × δ)} {e : Option ι} {p q : ι × δ}

@[simp] theorem seg_nil : Seg mem [] e := trivial

theorem seg_cons : Seg mem (p :: l) e ↔ mem p.1 = ⟨first l e, p.2⟩ ∧ Seg mem l e := Iff.rfl

theorem first_append : first (l ++ m) e = first l (first m e) := by
  cases l <;> rfl

theorem seg_append : Seg mem (l ++ m) e ↔ Seg mem l (first m e) ∧ Seg mem m e := by
  induction l with
  | nil => exact (and_iff_right seg_nil).symm
  | cons p l ih => rw [cons_append, seg_cons, seg_cons, ih, first_append, and_assoc]

theorem seg_concat : Seg mem (l ++ [p]) e ↔ Seg mem l (some p.1) ∧ mem p.1 = ⟨e, p.2⟩ := by
  rw [seg_append]
  exact and_congr_right fun _ => and_iff_left seg_nil

theorem Seg.congr (h : Seg mem l e) (heq : ∀ i ∈ l.map Prod.fst, mem' i = mem i) :
    Seg mem' l e := by
  induction l with
  | nil => exact seg_nil
  | cons p l ih =>
    rw [map_cons, forall_mem_cons] at heq
    exact ⟨heq.1.trans h.1, ih h.2 heq.2⟩

theorem Seg.data_eq (h : Seg mem l e) (hp : p ∈ l) : (mem p.1).data = p.2 := by
  induction l with
  | nil => exact absurd hp not_mem_nil
  | cons q l ih =>
    rcases mem_cons.mp hp with rfl | hp
    · rw [h.1]
    · exact ih h.2 hp

theorem Seg.update [DecidableEq ι] {i : ι} {c : Cell ι δ} (h : Seg mem l e)
    (hi : i ∉ l.map Prod.fst) : Seg (Function.update mem i c) l e := by
  apply h.congr
  intro j hj
  exact update_of_ne (ne_of_mem_of_not_mem hj hi) _ _

theorem Seg.eq_of_first (hl : Seg mem l none) (hm : Seg mem m none)
    (h : first l none = first m none) : l = m := by
  induction l generalizing m with
  | nil =>
    cases m with
    | nil => rfl
    | cons q m => exact absurd h (Option.some_ne_none q.1).symm
  | cons p l ih =>
    cases m with
    | nil => exact absurd h (Option.some_ne_none p.1)
    | cons q m =>
      have hpq : p.1 = q.1 := Option.some_inj.mp h
      have hcell : (⟨first l none, p.2⟩ : Cell ι δ) = ⟨first m none, q.2⟩ :=
        hl.1.symm.trans ((congrArg mem hpq).trans hm.1)
      obtain ⟨hfirst, hdata⟩ := Cell.mk.inj hcell
      rw [ih hl.2 hm.2 hfirst, Prod.ext hpq hdata]

theorem Seg.nodup (h : Seg mem l none) : (l.map Prod.fst).Nodup := by
  induction l with
  | nil => exact nodup_nil
  | cons p l ih =>
    refine nodup_cons.mpr ⟨?_, ih h.2⟩
    intro hmem
    obtain ⟨q, hq, hqp⟩ := List.mem_map.mp hmem
    obtain ⟨l₁, l₂, rfl⟩ := append_of_mem hq
    have hq' : Seg mem (q :: l₂) none := (seg_append.mp h.2).2
    have heq : p :: (l₁ ++ q :: l₂) = q :: l₂ :=
      h.eq_of_first hq' (congrArg some hqp.symm)
    have hlen := congrArg List.length heq
    simp only [length_cons, length_append] at hlen
    omega

theorem Seg.concat [DecidableEq ι] {i : ι} {d : δ} (h : Seg mem l (some i))
    (hi : i ∉ l.map Prod.fst) : Seg (Function.update mem i ⟨e, d⟩) (l ++ [(i, d)]) e :=
  seg_concat.mpr ⟨h.update hi, update_self ..⟩

/-! ## Changing the end of a segment -/

/-- Follow the links from a cell to the one in front of `find`, and let it point elsewhere.  There
is no result if the links end before that, or if there are more than `fuel` of them. -/
def relink [DecidableEq ι] (mem : ι → Cell ι δ) (find new : Option ι) :
    ℕ → ι → Option (ι → Cell ι δ)
  | 0, _ => none
  | fuel + 1, i =>
    if (mem i).next = find then some (Function.update mem i ⟨new, (mem i).data⟩)
    else (mem i).next.bind (relink mem find new fuel)

theorem relink_spec [DecidableEq ι] (new : Option ι) {fuel : ℕ} (h : Seg mem (p :: l) e)
    (hnodup : ((p :: l).map Prod.fst).Nodup) (he : ∀ i ∈ l.map Prod.fst, e ≠ some i)
    (hfuel : l.length < fuel) :
    ∃ mem', relink mem e new fuel p.1 = some mem' ∧ Seg mem' (p :: l) new ∧
      ∀ i ∉ (p :: l).map Prod.fst, mem' i = mem i := by
  induction l generalizing p fuel with
  | nil =>
    obtain ⟨fuel, rfl⟩ := Nat.exists_eq_succ_of_ne_zero (Nat.ne_zero_of_lt hfuel)
    refine ⟨Function.update mem p.1 ⟨new, p.2⟩, ?_, ?_, ?_⟩
    · rw [relink, h.1]
      exact if_pos rfl
    · exact ⟨update_self .., seg_nil⟩
    · intro i hi
      exact update_of_ne (ne_of_not_mem_cons hi) _ _
  | cons q l ih =>
    obtain ⟨fuel, rfl⟩ := Nat.exists_eq_succ_of_ne_zero (Nat.ne_zero_of_lt hfuel)
    obtain ⟨hp, hnodup'⟩ := nodup_cons.mp hnodup
    obtain ⟨mem', hrun, hseg, hother⟩ := ih h.2 hnodup'
      (fun i hi => he i (mem_cons_of_mem _ hi)) (Nat.lt_of_succ_lt_succ hfuel)
    have hnext : (mem p.1).next = some q.1 := by rw [h.1]; rfl
    refine ⟨mem', ?_, ⟨?_, hseg⟩, ?_⟩
    · rw [relink, hnext, if_neg (he q.1 mem_cons_self).symm]
      exact hrun
    · rw [hother p.1 hp, h.1]
      rfl
    · intro i hi
      rw [map_cons, mem_cons, not_or] at hi
      exact hother i hi.2

end MySQL.Lib
