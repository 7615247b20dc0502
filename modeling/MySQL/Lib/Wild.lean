import Mathlib

/-!
# Patterns with wild cards

A pattern is a list of literals, of wild cards for one character and of wild cards for any sequence.
A matcher that goes back from right to left only says one of three things: that the string matches,
that it does not, or that no later start of it matches either.  The rules below say what may be
concluded from the verdict about the rest of a string.
-/

namespace MySQL.Lib

open List

inductive WildToken (β : Type*) where
  | one
  | many
  | lit (d : β)
deriving DecidableEq, Repr

open WildToken

variable {α β : Type*} {same : α → β → Prop} {p : List (WildToken β)} {s t u v : List α} {c : α}
  {d : β}

def WildMatches (same : α → β → Prop) : List (WildToken β) → List α → Prop
  | [], s => s = []
  | one :: p, s => ∃ c t, s = c :: t ∧ WildMatches same p t
  | many :: p, s => ∃ t, t <:+ s ∧ WildMatches same p t
  | lit d :: p, s => ∃ c t, s = c :: t ∧ same c d ∧ WildMatches same p t

/-! ## Matching step by step -/

theorem wildMatches_nil : WildMatches same [] s ↔ s = [] := Iff.rfl

theorem not_wildMatches_one_nil : ¬WildMatches same (one :: p) [] := by
  rintro ⟨c, t, h, -⟩
  cases h

theorem not_wildMatches_lit_nil : ¬WildMatches same (lit d :: p) [] := by
  rintro ⟨c, t, h, -⟩
  cases h

theorem wildMatches_one_cons : WildMatches same (one :: p) (c :: s) ↔ WildMatches same p s := by
  constructor
  · rintro ⟨c', t, h, hmatch⟩
    cases h
    exact hmatch
  · exact fun h => ⟨c, s, rfl, h⟩

theorem wildMatches_lit_cons :
    WildMatches same (lit d :: p) (c :: s) ↔ same c d ∧ WildMatches same p s := by
  constructor
  · rintro ⟨c', t, h, hsame, hmatch⟩
    cases h
    exact ⟨hsame, hmatch⟩
  · rintro ⟨hsame, h⟩
    exact ⟨c, s, rfl, hsame, h⟩

theorem WildMatches.many_of_suffix (h : WildMatches same (many :: p) t) (hsuffix : t <:+ s) :
    WildMatches same (many :: p) s := by
  obtain ⟨u, hu, hmatch⟩ := h
  exact ⟨u, hu.trans hsuffix, hmatch⟩

theorem wildMatches_many_nil : WildMatches same (many :: p) [] ↔ WildMatches same p [] := by
  constructor
  · rintro ⟨t, ht, h⟩
    rwa [suffix_nil.1 ht] at h
  · exact fun h => ⟨[], suffix_rfl, h⟩

theorem wildMatches_many_cons : WildMatches same (many :: p) (c :: s) ↔
    WildMatches same p (c :: s) ∨ WildMatches same (many :: p) s := by
  constructor
  · rintro ⟨t, ht, h⟩
    rcases suffix_cons_iff.1 ht with rfl | ht
    · exact Or.inl h
    · exact Or.inr ⟨t, ht, h⟩
  · rintro (h | h)
    · exact ⟨c :: s, suffix_rfl, h⟩
    · exact h.many_of_suffix (suffix_cons c s)

theorem wildMatches_many_many :
    WildMatches same (many :: many :: p) s ↔ WildMatches same (many :: p) s := by
  constructor
  · rintro ⟨t, ht, h⟩
    exact h.many_of_suffix ht
  · exact fun h => ⟨s, suffix_rfl, h⟩

theorem wildMatches_many_one_cons :
    WildMatches same (many :: one :: p) (c :: s) ↔ WildMatches same (many :: p) s := by
  induction s generalizing c with
  | nil =>
    rw [wildMatches_many_cons, wildMatches_one_cons, wildMatches_many_nil, wildMatches_many_nil,
      or_iff_left not_wildMatches_one_nil]
  | cons c' s ih =>
    rw [wildMatches_many_cons, wildMatches_one_cons, ih, wildMatches_many_cons]

/-! ## Verdicts -/

def tailLit : List (WildToken β) → Bool
  | one :: p => tailLit p
  | [lit _] => true
  | _ => false

def endsManyLit : List (WildToken β) → Bool
  | [] => false
  | many :: p => tailLit p || endsManyLit p
  | one :: p => endsManyLit p
  | lit _ :: p => endsManyLit p

/-- The string has a proper initial part that matches, and the pattern ends with a literal behind a
wild card for any sequence. -/
def WildEarly (same : α → β → Prop) (p : List (WildToken β)) (s : List α) : Prop :=
  endsManyLit p = true ∧ ∃ u v, s = u ++ v ∧ v ≠ [] ∧ WildMatches same p u

/-- What the result of a matcher says, if it may `stop` at the first place at which the last literal
is found. -/
structure WildVerdict (same : α → β → Prop) (stop : Prop) (p : List (WildToken β)) (s : List α)
    (r : ℤ) : Prop where
  zero_iff : r = 0 ↔ WildMatches same p s ∧ ¬(stop ∧ WildEarly same p s)
  of_early : stop → WildEarly same p s → r = -1
  of_neg : r = -1 → (∀ t, t <:+ s → ¬WildMatches same p t) ∨ stop ∧ WildEarly same p s
  range : r = 0 ∨ r = -1 ∨ r = 1 ∧ p.head? ≠ some many

variable {stop : Prop} {r : ℤ}

theorem not_wildEarly_nil : ¬WildEarly same p ([] : List α) := by
  rintro ⟨-, u, v, h, hv, -⟩
  exact hv (append_eq_nil_iff.1 h.symm).2

theorem exists_part_cons_iff {P : List α → Prop} (hnil : ¬P []) :
    (∃ u v, c :: s = u ++ v ∧ v ≠ [] ∧ P u) ↔ ∃ u v, s = u ++ v ∧ v ≠ [] ∧ P (c :: u) := by
  constructor
  · rintro ⟨u, v, h, hv, hu⟩
    cases u with
    | nil => exact absurd hu hnil
    | cons c' u =>
      rw [cons_append, List.cons.injEq] at h
      obtain ⟨rfl, h⟩ := h
      exact ⟨u, v, h, hv, hu⟩
  · rintro ⟨u, v, rfl, hv, hu⟩
    exact ⟨c :: u, v, rfl, hv, hu⟩

theorem wildEarly_one_cons : WildEarly same (one :: p) (c :: s) ↔ WildEarly same p s := by
  rw [WildEarly, exists_part_cons_iff not_wildMatches_one_nil]
  simp only [wildMatches_one_cons]
  rfl

theorem wildEarly_lit_cons :
    WildEarly same (lit d :: p) (c :: s) ↔ same c d ∧ WildEarly same p s := by
  rw [WildEarly, exists_part_cons_iff not_wildMatches_lit_nil, WildEarly]
  simp only [wildMatches_lit_cons]
  tauto

theorem wildEarly_many_many :
    WildEarly same (many :: many :: p) s ↔ WildEarly same (many :: p) s := by
  simp only [WildEarly, wildMatches_many_many, endsManyLit, tailLit, Bool.false_or]

theorem not_wildMatches_many_one_nil : ¬WildMatches same (many :: one :: p) ([] : List α) := by
  rw [wildMatches_many_nil]
  exact not_wildMatches_one_nil

theorem not_wildMatches_many_lit_nil : ¬WildMatches same (many :: lit d :: p) ([] : List α) := by
  rw [wildMatches_many_nil]
  exact not_wildMatches_lit_nil

theorem wildEarly_many_one_cons :
    WildEarly same (many :: one :: p) (c :: s) ↔ WildEarly same (many :: p) s := by
  rw [WildEarly, exists_part_cons_iff not_wildMatches_many_one_nil, WildEarly, endsManyLit,
    endsManyLit, endsManyLit, tailLit]
  simp only [wildMatches_many_one_cons]

theorem wildEarly_many_lit_cons_of_not (hsame : ¬same c d) :
    WildEarly same (many :: lit d :: p) (c :: s) ↔ WildEarly same (many :: lit d :: p) s := by
  rw [WildEarly, exists_part_cons_iff not_wildMatches_many_lit_nil, WildEarly]
  simp only [wildMatches_many_cons, wildMatches_lit_cons, hsame, false_and, false_or]

theorem wildEarly_many_lit_cons (hsame : same c d) :
    WildEarly same (many :: lit d :: p) (c :: s) ↔
      p = [] ∧ s ≠ [] ∨ WildEarly same p s ∨ WildEarly same (many :: lit d :: p) s := by
  rw [WildEarly, exists_part_cons_iff not_wildMatches_many_lit_nil]
  simp only [wildMatches_many_cons, wildMatches_lit_cons, hsame, true_and]
  cases p with
  | nil =>
    simp only [WildEarly, endsManyLit, tailLit, Bool.or_false, true_and, Bool.false_eq_true,
      false_and, false_or, wildMatches_nil]
    constructor
    · rintro ⟨u, v, rfl, hv, -⟩
      simp [hv]
    · rintro (hs | ⟨u, v, h, hv, hu⟩)
      · exact ⟨[], s, rfl, hs, Or.inl rfl⟩
      · exact ⟨u, v, h, hv, Or.inr hu⟩
  | cons w p =>
    have hends : endsManyLit (many :: lit d :: w :: p) = endsManyLit (w :: p) := rfl
    simp only [WildEarly, hends, reduceCtorEq, false_and, false_or]
    constructor
    · rintro ⟨hmany, u, v, h, hv, hu | hu⟩
      · exact Or.inl ⟨hmany, u, v, h, hv, hu⟩
      · exact Or.inr ⟨hmany, u, v, h, hv, hu⟩
    · rintro (⟨hmany, u, v, h, hv, hu⟩ | ⟨hmany, u, v, h, hv, hu⟩)
      · exact ⟨hmany, u, v, h, hv, Or.inl hu⟩
      · exact ⟨hmany, u, v, h, hv, Or.inr hu⟩

theorem WildMatches.append_of_append (hmany : endsManyLit p = true)
    (hwhole : WildMatches same p (t ++ u ++ v)) (hpart : WildMatches same p u) :
    WildMatches same p (t ++ u) := by
  induction p generalizing t u with
  | nil => exact Bool.noConfusion hmany
  | cons w p ih =>
    cases w with
    | many => exact hpart.many_of_suffix (suffix_append t u)
    | one =>
      cases t with
      | nil => exact hpart
      | cons c t =>
        obtain ⟨c', u', rfl, hrest⟩ := hpart
        rw [cons_append, wildMatches_one_cons]
        rw [cons_append, cons_append, wildMatches_one_cons] at hwhole
        have := ih (t := t ++ [c']) hmany (by simpa using hwhole) hrest
        simpa using this
    | lit d =>
      cases t with
      | nil => exact hpart
      | cons c t =>
        obtain ⟨c', u', rfl, hsame, hrest⟩ := hpart
        rw [cons_append, wildMatches_lit_cons]
        rw [cons_append, cons_append, wildMatches_lit_cons] at hwhole
        have := ih (t := t ++ [c']) hmany (by simpa using hwhole.2) hrest
        exact ⟨hwhole.1, by simpa using this⟩

theorem not_wildEarly_many_lit (hsame : same c d) (hmatch : WildMatches same p s)
    (hearly : ¬WildEarly same p s) : ¬WildEarly same (many :: lit d :: p) (c :: s) := by
  rw [wildEarly_many_lit_cons hsame]
  rintro (⟨rfl, hs⟩ | hpart | hpart)
  · exact hs hmatch
  · exact hearly hpart
  · obtain ⟨hmany, u, v, rfl, hv, t, ⟨a, rfl⟩, c', t', rfl, -, ht⟩ := hpart
    cases p with
    | nil => exact hv (append_eq_nil_iff.1 hmatch).2
    | cons w p =>
      have hsplit : a ++ c' :: t' = (a ++ [c']) ++ t' := by rw [append_assoc]; rfl
      rw [hsplit] at hmatch hearly
      exact hearly ⟨hmany, _, v, rfl, hv, hmatch.append_of_append hmany ht⟩

theorem exists_wildMatches (hsame : ∀ d, ∃ c, same c d) (hone : Nonempty α)
    (p : List (WildToken β)) : ∃ s, WildMatches same p s := by
  induction p with
  | nil => exact ⟨[], rfl⟩
  | cons w p ih =>
    obtain ⟨s, hs⟩ := ih
    cases w with
    | one => exact ⟨hone.some :: s, wildMatches_one_cons.mpr hs⟩
    | many => exact ⟨s, s, suffix_rfl, hs⟩
    | lit d =>
      obtain ⟨c, hc⟩ := hsame d
      exact ⟨c :: s, wildMatches_lit_cons.mpr ⟨hc, hs⟩⟩

/-- The literal at the end can come once more. -/
theorem WildMatches.exists_longer (hs : WildMatches same p s) (hmany : endsManyLit p = true) :
    ∃ v, v ≠ [] ∧ WildMatches same p (s ++ v) := by
  induction p generalizing s with
  | nil => exact Bool.noConfusion hmany
  | cons w p ih =>
    cases w with
    | many =>
      obtain ⟨t, ht, hmatch⟩ := hs
      rcases Bool.or_eq_true_iff.mp hmany with htail | hends
      · refine ⟨t, fun hnil => ?_, t, suffix_append s t, hmatch⟩
        subst hnil
        cases p with
        | nil => exact Bool.noConfusion htail
        | cons w p =>
          cases w with
          | one => exact not_wildMatches_one_nil hmatch
          | many => exact Bool.noConfusion htail
          | lit d => exact not_wildMatches_lit_nil hmatch
      · obtain ⟨v, hv, hlonger⟩ := ih hmatch hends
        obtain ⟨a, rfl⟩ := ht
        exact ⟨v, hv, t ++ v, ⟨a, (append_assoc ..).symm⟩, hlonger⟩
    | one =>
      obtain ⟨c, t, rfl, hmatch⟩ := hs
      obtain ⟨v, hv, hlonger⟩ := ih hmatch hmany
      exact ⟨v, hv, wildMatches_one_cons.mpr hlonger⟩
    | lit d =>
      obtain ⟨c, t, rfl, hsame, hmatch⟩ := hs
      obtain ⟨v, hv, hlonger⟩ := ih hmatch hmany
      exact ⟨v, hv, wildMatches_lit_cons.mpr ⟨hsame, hlonger⟩⟩

namespace WildVerdict

/-! ## Rules -/

theorem pos (hmatch : ¬WildMatches same p s) (hearly : ¬WildEarly same p s)
    (hhead : p.head? ≠ some many) : WildVerdict same stop p s 1 where
  zero_iff := by simp [hmatch]
  of_early _ h := absurd h hearly
  of_neg h := by simp at h
  range := Or.inr (Or.inr ⟨rfl, hhead⟩)

theorem neg (h : (∀ t, t <:+ s → ¬WildMatches same p t) ∨ stop ∧ WildEarly same p s) :
    WildVerdict same stop p s (-1) where
  zero_iff := by
    refine ⟨fun h => by simp at h, fun hmatch => ?_⟩
    rcases h with hnone | hearly
    · exact absurd hmatch.1 (hnone s suffix_rfl)
    · exact absurd hearly hmatch.2
  of_early _ _ := rfl
  of_neg _ := h
  range := Or.inr (Or.inl rfl)

theorem zero (hmatch : WildMatches same p s) (hearly : ¬(stop ∧ WildEarly same p s)) :
    WildVerdict same stop p s 0 where
  zero_iff := iff_of_true rfl ⟨hmatch, hearly⟩
  of_early hstop h := absurd ⟨hstop, h⟩ hearly
  of_neg h := by simp at h
  range := Or.inl rfl

theorem of_iff {q : List (WildToken β)} (h : WildVerdict same stop p s r)
    (hmatch : WildMatches same q t ↔ WildMatches same p s)
    (hearly : stop → (WildEarly same q t ↔ WildEarly same p s))
    (hsuffix : (∀ x, x <:+ s → ¬WildMatches same p x) → ∀ x, x <:+ t → ¬WildMatches same q x)
    (hhead : q.head? = some many → p.head? = some many) : WildVerdict same stop q t r where
  zero_iff := by rw [h.zero_iff, hmatch, and_congr_right hearly]
  of_early hstop hq := h.of_early hstop ((hearly hstop).1 hq)
  of_neg hr := by
    rw [and_congr_right hearly]
    exact (h.of_neg hr).imp_left hsuffix
  range := h.range.imp_right (Or.imp_right fun hr => ⟨hr.1, fun hq => hr.2 (hhead hq)⟩)

theorem nil : WildVerdict same stop [] s (if s ≠ [] then 1 else 0) := by
  have hearly : ¬WildEarly same [] s := fun h => Bool.noConfusion h.1
  by_cases hs : s = []
  · rw [if_neg (not_not.2 hs)]
    exact zero hs fun h => hearly h.2
  · rw [if_pos hs]
    exact pos hs hearly (by simp)

theorem suffix_of_cons {c' : α} (h : c' :: t <:+ c :: s) : t <:+ s := by
  rcases suffix_cons_iff.1 h with heq | hsuffix
  · cases heq
    exact suffix_rfl
  · exact (suffix_cons c' t).trans hsuffix

theorem one_cons (h : WildVerdict same stop p s r) :
    WildVerdict same stop (one :: p) (c :: s) r := by
  apply h.of_iff wildMatches_one_cons fun _ => wildEarly_one_cons
  · rintro hnone x hx ⟨c', t, rfl, hmatch⟩
    exact hnone t (suffix_of_cons hx) hmatch
  · intro hq
    cases hq

theorem one_nil (hr : r = 1 ∨ r = -1) : WildVerdict same stop (one :: p) ([] : List α) r := by
  rcases hr with rfl | rfl
  · exact pos not_wildMatches_one_nil not_wildEarly_nil (by simp)
  · apply neg
    left
    intro t ht
    rw [suffix_nil.1 ht]
    exact not_wildMatches_one_nil

theorem lit_nil : WildVerdict same stop (lit d :: p) ([] : List α) 1 :=
  pos not_wildMatches_lit_nil not_wildEarly_nil (by simp)

theorem lit_cons_of_not (hsame : ¬same c d) : WildVerdict same stop (lit d :: p) (c :: s) 1 := by
  apply pos
  · rw [wildMatches_lit_cons]
    exact fun h => hsame h.1
  · rw [wildEarly_lit_cons]
    exact fun h => hsame h.1
  · simp

theorem suffix_lit (hnone : ∀ x, x <:+ s → ¬WildMatches same p x) :
    ∀ x, x <:+ c :: s → ¬WildMatches same (lit d :: p) x := by
  rintro x hx ⟨c', t, rfl, -, hmatch⟩
  exact hnone t (suffix_of_cons hx) hmatch

theorem lit_cons (hsame : same c d) (h : WildVerdict same stop p s r) :
    WildVerdict same stop (lit d :: p) (c :: s) r := by
  apply h.of_iff
  · rw [wildMatches_lit_cons, and_iff_right hsame]
  · intro _
    rw [wildEarly_lit_cons, and_iff_right hsame]
  · exact suffix_lit
  · intro hq
    cases hq

theorem many_nil : WildVerdict same stop [many] s 0 := by
  apply zero
  · exact ⟨[], nil_suffix, rfl⟩
  · exact fun h => Bool.noConfusion h.2.1

theorem many_many (h : WildVerdict same stop (many :: p) s r) :
    WildVerdict same stop (many :: many :: p) s r := by
  apply h.of_iff wildMatches_many_many fun _ => wildEarly_many_many
  · intro hnone x hx
    rw [wildMatches_many_many]
    exact hnone x hx
  · exact fun _ => rfl

theorem many_one_nil : WildVerdict same stop (many :: one :: p) ([] : List α) (-1) := by
  apply neg
  left
  intro t ht
  rw [suffix_nil.1 ht]
  exact not_wildMatches_many_one_nil

theorem many_lit_nil : WildVerdict same stop (many :: lit d :: p) ([] : List α) (-1) := by
  apply neg
  left
  intro t ht
  rw [suffix_nil.1 ht]
  exact not_wildMatches_many_lit_nil

theorem suffix_many (h : ¬WildMatches same (many :: p) s) :
    ∀ x, x <:+ s → ¬WildMatches same (many :: p) x :=
  fun _ hx hmatch => h (hmatch.many_of_suffix hx)

theorem many_one_cons (h : WildVerdict same stop (many :: p) s r) :
    WildVerdict same stop (many :: one :: p) (c :: s) r := by
  apply h.of_iff wildMatches_many_one_cons fun _ => wildEarly_many_one_cons
  · intro hnone
    apply suffix_many
    rw [wildMatches_many_one_cons]
    exact hnone s suffix_rfl
  · exact fun _ => rfl

theorem many_lit_cons_of_not (hsame : ¬same c d)
    (h : WildVerdict same stop (many :: lit d :: p) s r) :
    WildVerdict same stop (many :: lit d :: p) (c :: s) r := by
  have hmatch : WildMatches same (many :: lit d :: p) (c :: s) ↔
      WildMatches same (many :: lit d :: p) s := by
    rw [wildMatches_many_cons, wildMatches_lit_cons, or_iff_right fun h => hsame h.1]
  apply h.of_iff hmatch fun _ => wildEarly_many_lit_cons_of_not hsame
  · intro hnone
    apply suffix_many
    rw [hmatch]
    exact hnone s suffix_rfl
  · exact fun _ => rfl

theorem many_lit_found (hsame : same c d) (h : WildVerdict same stop p s r) (hr : r ≤ 0) :
    WildVerdict same stop (many :: lit d :: p) (c :: s) r := by
  rcases h.range with rfl | rfl | ⟨rfl, -⟩
  · obtain ⟨hmatch, hearly⟩ := h.zero_iff.1 rfl
    apply zero
    · exact ⟨c :: s, suffix_rfl, wildMatches_lit_cons.2 ⟨hsame, hmatch⟩⟩
    · rintro ⟨hstop, hpart⟩
      exact not_wildEarly_many_lit hsame hmatch (fun h => hearly ⟨hstop, h⟩) hpart
  · apply neg
    rcases h.of_neg rfl with hnone | ⟨hstop, hpart⟩
    · left
      apply suffix_many
      rintro ⟨x, hx, hmatch⟩
      exact suffix_lit hnone x hx hmatch
    · exact Or.inr ⟨hstop, (wildEarly_many_lit_cons hsame).2 (Or.inr (Or.inl hpart))⟩
  · exact absurd hr (by decide)

theorem many_lit_end (h : WildVerdict same stop p ([] : List α) r) (hr : ¬r ≤ 0) :
    WildVerdict same stop (many :: lit d :: p) [c] (-1) := by
  apply neg
  left
  apply suffix_many
  rw [wildMatches_many_cons, wildMatches_lit_cons, or_iff_left not_wildMatches_many_lit_nil]
  rintro ⟨-, hmatch⟩
  have := h.zero_iff.2 ⟨hmatch, fun hearly => not_wildEarly_nil hearly.2⟩
  omega

theorem many_lit_stop (hsame : same c d) (hstop : stop) (hs : s ≠ []) :
    WildVerdict same stop [many, lit d] (c :: s) (-1) :=
  neg (Or.inr ⟨hstop, (wildEarly_many_lit_cons hsame).2 (Or.inl ⟨rfl, hs⟩)⟩)

theorem many_lit_next {r' : ℤ} (hsame : same c d) (h : WildVerdict same stop p s r) (hr : ¬r ≤ 0)
    (hlast : p = [] → ¬stop) (hnext : WildVerdict same stop (many :: lit d :: p) s r') :
    WildVerdict same stop (many :: lit d :: p) (c :: s) r' := by
  have hpart (hstop : stop) : ¬WildEarly same p s := by
    intro hearly
    have := h.of_early hstop hearly
    omega
  have hno : ¬WildMatches same p s := by
    intro hmatch
    have := h.zero_iff.2 ⟨hmatch, fun hearly => hpart hearly.1 hearly.2⟩
    omega
  have hmatch : WildMatches same (many :: lit d :: p) (c :: s) ↔
      WildMatches same (many :: lit d :: p) s := by
    rw [wildMatches_many_cons, wildMatches_lit_cons, or_iff_right fun h => hno h.2]
  have hearly : stop → (WildEarly same (many :: lit d :: p) (c :: s) ↔
      WildEarly same (many :: lit d :: p) s) := by
    intro hstop
    rw [wildEarly_many_lit_cons hsame, or_iff_right fun h => hlast h.1 hstop,
      or_iff_right (hpart hstop)]
  apply hnext.of_iff hmatch hearly
  · intro hnone
    apply suffix_many
    rw [hmatch]
    exact hnone s suffix_rfl
  · exact fun _ => rfl

end WildVerdict

end MySQL.Lib
