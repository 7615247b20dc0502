import MySQL.Mysys.HashMoves

/-!
# Splitting a chain

With one slot more, the records of one chain are divided between this chain and the chain of the
new slot.  The loop of `my_hash_insert` writes a link only where the next record of the same chain
was not the next one before, and it writes it late: the last slot of each of the two chains is
kept in variables.
-/

namespace MySQL.Mysys

open Lib List Function

variable {ρ : Type*}

/-- What is known of one of the two chains in the loop.  The slot `gpos` of its last record is
still to be written, unless it is `used`: then it points to the rest of the old chain. -/
def Track (array : ℕ → HashLink ρ) (l : List (ℕ × ρ)) (gpos : ℕ) (ptrToRec : ρ) (used : Bool)
    (rest : List (ℕ × ρ)) : Prop :=
  l ≠ [] → ∃ l₀, l = l₀ ++ [(gpos, ptrToRec)] ∧ Seg array l₀ (some gpos) ∧
    (used = true → array gpos = ⟨first rest none, ptrToRec⟩)

/-- The write that is made before the chain goes on at `pos`. -/
def linkTo (array : ℕ → HashLink ρ) (used : Bool) (gpos : ℕ) (ptrToRec : ρ) (pos : Option ℕ) :
    ℕ → HashLink ρ :=
  if used = false then update array gpos ⟨pos, ptrToRec⟩ else array

theorem linkTo_of_ne {array : ℕ → HashLink ρ} {used : Bool} {gpos i : ℕ} {ptrToRec : ρ}
    {pos : Option ℕ} (h : i ≠ gpos) : linkTo array used gpos ptrToRec pos i = array i := by
  rw [linkTo]
  split_ifs
  · exact update_of_ne h _ _
  · rfl

namespace Track

variable {array array' : ℕ → HashLink ρ} {l rest rest' : List (ℕ × ρ)} {gpos pos : ℕ}
  {ptrToRec d : ρ} {used : Bool} {e' : Option ℕ}

theorem singleton (pos : ℕ) (d : ρ) (h : used = true → array pos = ⟨first rest none, d⟩) :
    Track array [(pos, d)] pos d used rest :=
  fun _ => ⟨[], rfl, seg_nil, h⟩

section

variable (h : Track array l gpos ptrToRec used rest)

include h

theorem gpos_mem (hl : l ≠ []) : gpos ∈ slots l := by
  obtain ⟨l₀, rfl, -⟩ := h hl
  simp

theorem keep (hsame : ∀ i ∈ slots l, array' i = array i) :
    Track array' l gpos ptrToRec false rest' := by
  intro hl
  obtain ⟨l₀, rfl, hseg, -⟩ := h hl
  refine ⟨l₀, rfl, hseg.congr fun i hi => hsame i ?_, fun h => absurd h Bool.false_ne_true⟩
  rw [slots_append]
  exact mem_append_left _ hi

theorem seg_linkTo (hl : l ≠ []) (hnodup : (slots l).Nodup)
    (hpos : used = true → first rest none = e') :
    Seg (linkTo array used gpos ptrToRec e') l e' := by
  obtain ⟨l₀, rfl, hseg, hused⟩ := h hl
  rw [slots_append, nodup_append] at hnodup
  have hgpos : gpos ∉ slots l₀ := fun hmem =>
    hnodup.2.2 gpos hmem gpos mem_cons_self rfl
  rw [linkTo]
  split_ifs with hcase
  · exact hseg.concat hgpos
  · have htrue : used = true := Bool.not_eq_false used ▸ hcase
    refine seg_concat.mpr ⟨hseg, ?_⟩
    rw [hused htrue, hpos htrue]

end

theorem push (h : Track array l gpos ptrToRec used ((pos, d) :: rest)) (hl : l ≠ [])
    (hnodup : (slots l).Nodup) (hpos : pos ∉ slots l) (hcell : array pos = ⟨first rest none, d⟩) :
    Track (linkTo array used gpos ptrToRec (some pos)) (l ++ [(pos, d)]) pos d true rest := by
  intro _
  refine ⟨l, rfl, h.seg_linkTo hl hnodup fun _ => rfl, fun _ => ?_⟩
  rw [linkTo_of_ne (ne_of_mem_of_not_mem (h.gpos_mem hl) hpos).symm, hcell]

end Track

/-! ## The loop -/

/-- The state of the loop: the chain `l` of the slot `f` is divided into `lo`, `hi` and the rest
that is still to be read; `r` is the new slot. -/
structure Splitting (array : ℕ → HashLink ρ) (f r : ℕ) (l : List (ℕ × ρ)) (s : Split ρ)
    (lo hi rest : List (ℕ × ρ)) : Prop where
  lowfind : s.lowfind = true ↔ lo ≠ []
  highfind : s.highfind = true ↔ hi ≠ []
  excl : s.lowused = true → s.highused = false
  low : Track s.array lo s.gpos s.ptrToRec s.lowused rest
  high : Track s.array hi s.gpos2 s.ptrToRec2 s.highused rest
  seg : Seg s.array rest none
  perm : (slots lo ++ (slots hi ++ s.empty :: slots rest)).Perm (slots l ++ [r])
  other : ∀ i, i ∉ slots l → i ≠ r → s.array i = array i
  recs_eq : recs lo + recs hi + recs rest = recs l
  head_lo : ∀ p, lo.head? = some p → p.1 = f
  head_hi : ∀ p, hi.head? = some p → p.1 = r
  empty_hi : hi = [] → s.empty = r
  empty_lo : lo = [] → hi ≠ [] → s.empty = f
  start : lo = [] → hi = [] → ∀ p, rest.head? = some p → p.1 = f

theorem nodup_parts {A B C : List ℕ} {e : ℕ} (h : (A ++ (B ++ e :: C)).Nodup) :
    A.Nodup ∧ B.Nodup ∧ (∀ i ∈ A, i ∉ B) ∧ (∀ i ∈ C, i ∉ A ∧ i ∉ B ∧ i ≠ e) := by
  obtain ⟨hA, hBC, hdisj⟩ := nodup_append.mp h
  obtain ⟨hB, hC, hdisj'⟩ := nodup_append.mp hBC
  refine ⟨hA, hB, ?_, ?_⟩
  · intro i hi hiB
    exact hdisj i hi i (mem_append_left _ hiB) rfl
  · intro i hi
    refine ⟨fun hiA => hdisj i hiA i (by simp [hi]) rfl,
      fun hiB => hdisj' i hiB i (by simp [hi]) rfl,
      ?_⟩
    rintro rfl
    exact (nodup_cons.mp hC).1 hi

namespace Splitting

variable {array : ℕ → HashLink ρ} {f r pos : ℕ} {d : ρ} {l lo hi rest : List (ℕ × ρ)}
  {s : Split ρ}

theorem lowfind_eq_false (h : Splitting array f r l s [] hi rest) : s.lowfind = false :=
  Bool.eq_false_iff.mpr fun hf => h.lowfind.mp hf rfl

theorem highfind_eq_false (h : Splitting array f r l s lo [] rest) : s.highfind = false :=
  Bool.eq_false_iff.mpr fun hf => h.highfind.mp hf rfl


theorem mem_of_mem_lo (h : Splitting array f r l s lo hi rest) {i : ℕ} (hi : i ∈ slots lo) :
    i ∈ slots l ∨ i = r := by
  have := h.perm.mem_iff.mp (mem_append_left _ hi)
  simpa using this

theorem mem_of_mem_hi (h : Splitting array f r l s lo hi rest) {i : ℕ} (hi : i ∈ slots hi) :
    i ∈ slots l ∨ i = r := by
  have := h.perm.mem_iff.mp (mem_append_right _ (mem_append_left _ hi))
  simpa using this

section Step

variable (h : Splitting array f r l s lo hi ((pos, d) :: rest))

include h

theorem cell : s.array pos = ⟨first rest none, d⟩ := h.seg.1

theorem low_first_moved (hlo : lo = []) (hhi : hi ≠ []) :
    Splitting array f r l (s.low pos) [(s.empty, d)] hi rest := by
  subst hlo
  have hstep : s.low pos =
      { s with
        lowfind := true, lowused := false, highfind := true, highused := false
        gpos := s.empty, ptrToRec := d, empty := pos } := by
    rw [Split.low, if_pos h.lowfind_eq_false, if_pos (h.highfind.mpr hhi), h.cell]
  rw [hstep]
  exact { h with
    lowfind := by simp
    highfind := by simp [hhi]
    excl := fun _ => rfl
    low := Track.singleton _ _ fun hf => absurd hf Bool.false_ne_true
    high := h.high.keep fun _ _ => rfl
    seg := h.seg.2
    perm := (perm_middle : (slots hi ++ s.empty :: pos :: slots rest).Perm _).symm.trans h.perm
    recs_eq := by
      rw [← h.recs_eq]
      simp only [recs_cons, recs_nil, Multiset.cons_add, Multiset.add_cons, zero_add]
    head_lo := by
      rintro p hp
      rw [← Option.some_inj.mp hp]
      exact h.empty_lo rfl hhi
    empty_hi := fun hf => absurd hf hhi
    empty_lo := fun hf => absurd hf (cons_ne_nil _ _)
    start := fun hf => absurd hf (cons_ne_nil _ _) }

theorem low_first (hlo : lo = []) (hhi : hi = []) :
    Splitting array f r l (s.low pos) [(pos, d)] hi rest := by
  subst hlo hhi
  have hstep : s.low pos =
      { s with
        lowfind := true, lowused := true, highfind := false, highused := false
        gpos := pos, ptrToRec := d } := by
    rw [Split.low, if_pos h.lowfind_eq_false, if_neg (by rw [h.highfind_eq_false]; decide), h.cell]
  rw [hstep]
  exact { h with
    lowfind := by simp
    highfind := by simp
    excl := fun _ => rfl
    low := Track.singleton _ _ fun _ => h.cell
    high := fun hf => absurd rfl hf
    seg := h.seg.2
    perm := (Perm.swap _ _ _).trans h.perm
    recs_eq := by
      rw [← h.recs_eq]
      simp only [recs_cons, recs_nil, Multiset.cons_add, zero_add]
    head_lo := by
      rintro p hp
      rw [← Option.some_inj.mp hp]
      exact h.start rfl rfl _ rfl
    empty_lo := fun hf => absurd hf (cons_ne_nil _ _)
    start := fun hf => absurd hf (cons_ne_nil _ _) }

theorem low_next (hnodup : (slots l ++ [r]).Nodup) (hlo : lo ≠ []) :
    Splitting array f r l (s.low pos) (lo ++ [(pos, d)]) hi rest := by
  obtain ⟨hndLo, -, hdisj, hrest⟩ := nodup_parts (h.perm.nodup_iff.mpr hnodup)
  obtain ⟨hposLo, hposHi, -⟩ := hrest pos mem_cons_self
  have hgpos := h.low.gpos_mem hlo
  have hpos : pos ≠ s.gpos := (ne_of_mem_of_not_mem hgpos hposLo).symm
  have hlow : s.lowfind = true := h.lowfind.mpr hlo
  have hused : s.lowused = true → s.highused = false := h.excl
  have hstep : s.low pos =
      { s with
        array := linkTo s.array s.lowused s.gpos s.ptrToRec (some pos)
        lowused := true, highused := false, gpos := pos, ptrToRec := d } := by
    obtain ⟨a, lf, lu, hf, hu, g, pr, g2, pr2, e⟩ := s
    subst hlow
    have hcell : a pos = ⟨first rest none, d⟩ := h.cell
    cases lu with
    | false => simp [Split.low, linkTo, update_of_ne hpos, hcell]
    | true =>
      obtain rfl : hu = false := hused rfl
      simp [Split.low, linkTo, hcell]
  rw [hstep]
  exact { h with
    lowfind := by simp [hlow]
    excl := fun _ => rfl
    low := h.low.push hlo hndLo hposLo h.cell
    high := h.high.keep fun i hi => linkTo_of_ne fun hig => hdisj _ hgpos (hig ▸ hi)
    seg := h.seg.2.congr fun i hi => linkTo_of_ne fun hig =>
      (hrest i (mem_cons_of_mem _ hi)).1 (hig ▸ hgpos)
    perm := by
      refine Perm.trans ?_ h.perm
      rw [slots_append, append_assoc]
      exact ((perm_middle : (slots hi ++ pos :: s.empty :: slots rest).Perm _).symm.trans
        ((Perm.swap _ _ _).append_left _)).append_left _
    other := by
      intro i hil hir
      rw [← h.other i hil hir]
      apply linkTo_of_ne
      rintro rfl
      exact (h.mem_of_mem_lo hgpos).elim hil hir
    recs_eq := by
      rw [← h.recs_eq]
      simp only [recs_append, recs_cons, recs_nil, Multiset.cons_add, Multiset.add_cons, add_zero]
    head_lo := by
      intro p hp
      apply h.head_lo p
      rwa [List.head?_append_of_ne_nil _ hlo] at hp
    empty_lo := fun hf => absurd hf (by simp)
    start := fun hf => absurd hf (by simp) }

theorem high_first (hhi : hi = []) : Splitting array f r l (s.high pos) lo [(s.empty, d)] rest := by
  subst hhi
  have hstep : s.high pos =
      { s with
        lowused := false, highfind := true, highused := false
        gpos2 := s.empty, empty := pos, ptrToRec2 := d } := by
    rw [Split.high, if_pos h.highfind_eq_false, h.cell]
  rw [hstep]
  exact { h with
    highfind := by simp
    excl := fun _ => rfl
    low := h.low.keep fun _ _ => rfl
    high := Track.singleton _ _ fun hf => absurd hf Bool.false_ne_true
    seg := h.seg.2
    perm := h.perm
    recs_eq := by
      rw [← h.recs_eq]
      simp only [recs_cons, recs_nil, Multiset.cons_add, Multiset.add_cons, add_zero]
    head_hi := by
      rintro p hp
      rw [← Option.some_inj.mp hp]
      exact h.empty_hi rfl
    empty_hi := fun hf => absurd hf (cons_ne_nil _ _)
    empty_lo := fun hf _ => h.start hf rfl _ rfl
    start := fun _ hf => absurd hf (cons_ne_nil _ _) }

theorem high_next (hnodup : (slots l ++ [r]).Nodup) (hhi : hi ≠ []) :
    Splitting array f r l (s.high pos) lo (hi ++ [(pos, d)]) rest := by
  obtain ⟨-, hndHi, hdisj, hrest⟩ := nodup_parts (h.perm.nodup_iff.mpr hnodup)
  obtain ⟨hposLo, hposHi, -⟩ := hrest pos mem_cons_self
  have hgpos := h.high.gpos_mem hhi
  have hpos : pos ≠ s.gpos2 := (ne_of_mem_of_not_mem hgpos hposHi).symm
  have hhigh : s.highfind = true := h.highfind.mpr hhi
  have hused : s.highused = true → s.lowused = false := fun hu =>
    Bool.eq_false_iff.mpr fun hl => absurd (h.excl hl) (by rw [hu]; exact Bool.noConfusion)
  have hstep : s.high pos =
      { s with
        array := linkTo s.array s.highused s.gpos2 s.ptrToRec2 (some pos)
        lowused := false, highused := true, gpos2 := pos, ptrToRec2 := d } := by
    obtain ⟨a, lf, lu, hf, hu, g, pr, g2, pr2, e⟩ := s
    subst hhigh
    have hcell : a pos = ⟨first rest none, d⟩ := h.cell
    cases hu with
    | false => simp [Split.high, linkTo, update_of_ne hpos, hcell]
    | true =>
      obtain rfl : lu = false := hused rfl
      simp [Split.high, linkTo, hcell]
  rw [hstep]
  exact { h with
    highfind := by simp [hhigh]
    excl := fun hf => absurd hf Bool.false_ne_true
    low := h.low.keep fun i hi => linkTo_of_ne fun hig => hdisj i hi (hig ▸ hgpos)
    high := h.high.push hhi hndHi hposHi h.cell
    seg := h.seg.2.congr fun i hi => linkTo_of_ne fun hig =>
      (hrest i (mem_cons_of_mem _ hi)).2.1 (hig ▸ hgpos)
    perm := by
      refine Perm.trans ?_ h.perm
      rw [slots_append, append_assoc]
      exact ((Perm.swap _ _ _).append_left _).append_left _
    other := by
      intro i hil hir
      rw [← h.other i hil hir]
      apply linkTo_of_ne
      rintro rfl
      exact (h.mem_of_mem_hi hgpos).elim hil hir
    recs_eq := by
      rw [← h.recs_eq]
      simp only [recs_append, recs_cons, recs_nil, Multiset.cons_add, Multiset.add_cons, add_zero]
    head_hi := by
      intro p hp
      apply h.head_hi p
      rwa [List.head?_append_of_ne_nil _ hhi] at hp
    empty_hi := fun hf => absurd hf (by simp)
    empty_lo := fun hf _ => h.empty_lo hf hhi
    start := fun _ hf => absurd hf (by simp) }

variable (hnodup : (slots l ++ [r]).Nodup)

include hnodup

theorem lowStep : ∃ i, Splitting array f r l (s.low pos) (lo ++ [(i, d)]) hi rest := by
  by_cases hlo : lo = []
  · by_cases hhi : hi = []
    · exact ⟨pos, by rw [hlo]; exact h.low_first hlo hhi⟩
    · exact ⟨s.empty, by rw [hlo]; exact h.low_first_moved hlo hhi⟩
  · exact ⟨pos, h.low_next hnodup hlo⟩

theorem highStep : ∃ i, Splitting array f r l (s.high pos) lo (hi ++ [(i, d)]) rest := by
  by_cases hhi : hi = []
  · exact ⟨s.empty, by rw [hhi]; exact h.high_first hhi⟩
  · exact ⟨pos, h.high_next hnodup hhi⟩

/-- The slot that is read is not one of those that are still to be written. -/
theorem pos_ne : (s.lowfind = true → pos ≠ s.gpos) ∧ (s.highfind = true → pos ≠ s.gpos2) := by
  obtain ⟨-, -, -, hrest⟩ := nodup_parts (h.perm.nodup_iff.mpr hnodup)
  obtain ⟨hlo, hhi, -⟩ := hrest pos mem_cons_self
  exact ⟨fun hf => (ne_of_mem_of_not_mem (h.low.gpos_mem (h.lowfind.mp hf)) hlo).symm,
    fun hf => (ne_of_mem_of_not_mem (h.high.gpos_mem (h.highfind.mp hf)) hhi).symm⟩

theorem next_low : ((s.low pos).array pos).next = first rest none := by
  rw [show (s.low pos).array pos = s.array pos from ?_, h.cell]
  unfold Split.low
  split_ifs with hfind
  · rfl
  · rfl
  · exact update_of_ne ((h.pos_ne hnodup).1 (Bool.eq_true_of_not_eq_false hfind)) _ _
  · rfl

theorem next_high : ((s.high pos).array pos).next = first rest none := by
  rw [show (s.high pos).array pos = s.array pos from ?_, h.cell]
  unfold Split.high
  split_ifs with hfind
  · rfl
  · exact update_of_ne ((h.pos_ne hnodup).2 (Bool.eq_true_of_not_eq_false hfind)) _ _
  · rfl

end Step

section Loop

variable {κ : Type*} (ops : KeyOps κ) (key : ρ → κ) (halfbuff : ℕ) {fuel : ℕ}

theorem loop (h : Splitting array f r l s lo hi rest) (hnodup : (slots l ++ [r]).Nodup)
    (hfuel : rest.length ≤ fuel) (hlo : ∀ p ∈ lo, recHashnr ops key p.2 &&& halfbuff = 0)
    (hhi : ∀ p ∈ hi, recHashnr ops key p.2 &&& halfbuff ≠ 0) :
    ∃ s' lo' hi', splitLoop ops key halfbuff fuel s (first rest none) = some s' ∧
      Splitting array f r l s' lo' hi' [] ∧
      (∀ p ∈ lo', recHashnr ops key p.2 &&& halfbuff = 0) ∧
      ∀ p ∈ hi', recHashnr ops key p.2 &&& halfbuff ≠ 0 := by
  induction rest generalizing s lo hi fuel with
  | nil => exact ⟨s, lo, hi, by rw [first, splitLoop], h, hlo, hhi⟩
  | cons p rest ih =>
    obtain ⟨pos, d⟩ := p
    obtain ⟨fuel, rfl⟩ := Nat.exists_eq_succ_of_ne_zero
      (Nat.ne_zero_of_lt (Nat.lt_of_lt_of_le rest.length.succ_pos hfuel))
    have hfuel' := Nat.le_of_succ_le_succ hfuel
    rw [first, splitLoop, Split.body, h.cell]
    by_cases hbit : recHashnr ops key d &&& halfbuff = 0
    · obtain ⟨i, hstep⟩ := h.lowStep hnodup
      rw [if_pos hbit, h.next_low hnodup]
      exact ih hstep hfuel' (forall_mem_append.mpr ⟨hlo, forall_mem_singleton.mpr hbit⟩) hhi
    · obtain ⟨i, hstep⟩ := h.highStep hnodup
      rw [if_neg hbit, h.next_high hnodup]
      exact ih hstep hfuel' hlo (forall_mem_append.mpr ⟨hhi, forall_mem_singleton.mpr hbit⟩)

end Loop

theorem finish (h : Splitting array f r l s lo hi []) (hnodup : (slots l ++ [r]).Nodup) :
    Seg s.finish.array lo none ∧ Seg s.finish.array hi none ∧ s.finish.empty = s.empty ∧
      ∀ i, i ∉ slots l → i ≠ r → s.finish.array i = array i := by
  obtain ⟨hndLo, hndHi, hdisj, -⟩ := nodup_parts (h.perm.nodup_iff.mpr hnodup)
  obtain ⟨A, hA⟩ : ∃ A, A = if s.lowfind then
      linkTo s.array s.lowused s.gpos s.ptrToRec none else s.array := ⟨_, rfl⟩
  have hfin : s.finish = { s with
      array := if s.highfind then linkTo A s.highused s.gpos2 s.ptrToRec2 none else A } := by
    rw [hA]
    obtain ⟨a, lf, lu, hf, hu, g, pr, g2, pr2, e⟩ := s
    cases lf <;> cases lu <;> cases hf <;> cases hu <;> rfl
  have hAlo : Seg A lo none := by
    by_cases hlo : lo = []
    · rw [hlo]
      exact seg_nil
    · rw [hA, if_pos (h.lowfind.mpr hlo)]
      exact h.low.seg_linkTo hlo hndLo fun _ => rfl
  have hAother : ∀ i, i ∉ slots lo → A i = s.array i := by
    intro i hi
    rw [hA]
    split_ifs with hlf
    · exact linkTo_of_ne fun hig => hi (hig ▸ h.low.gpos_mem (h.lowfind.mp hlf))
    · rfl
  have hhigh : Track A hi s.gpos2 s.ptrToRec2 s.highused [] := by
    intro hhi
    obtain ⟨l₀, hl, hseg, hused⟩ := h.high hhi
    have hmem : ∀ i ∈ slots hi, A i = s.array i := fun i hi' =>
      hAother i fun hlo => hdisj i hlo hi'
    refine ⟨l₀, hl, hseg.congr fun i hi' => hmem i ?_, fun hu => ?_⟩
    · rw [hl, slots_append]
      exact mem_append_left _ hi'
    · rw [hmem _ (h.high.gpos_mem hhi), hused hu]
  have hgpos : ∀ i, i ∉ slots hi → s.finish.array i = A i := by
    intro i hi'
    rw [hfin]
    split_ifs with hhf
    · exact linkTo_of_ne fun hig => hi' (hig ▸ h.high.gpos_mem (h.highfind.mp hhf))
    · rfl
  refine ⟨hAlo.congr fun i hi' => hgpos i (hdisj i hi'), ?_, by rw [hfin], ?_⟩
  · by_cases hhi : hi = []
    · rw [hhi]
      exact seg_nil
    · rw [hfin]
      rw [if_pos (h.highfind.mpr hhi)]
      exact hhigh.seg_linkTo hhi hndHi fun _ => rfl
  · intro i hil hir
    have hihi : i ∉ slots hi := fun hi' => (h.mem_of_mem_hi hi').elim hil hir
    have hilo : i ∉ slots lo := fun hi' => (h.mem_of_mem_lo hi').elim hil hir
    rw [hgpos i hihi, hAother i hilo, h.other i hil hir]

end Splitting

/-! ## The table with one slot more -/

namespace Table

variable {home home' : ρ → ℕ} {n f : ℕ} {array array' : ℕ → HashLink ρ}
  {chains : ℕ → List (ℕ × ρ)}

theorem grow (T : Table home n none array chains)
    (hhome : ∀ b, ∀ p ∈ chains b, home' p.2 = home p.2) :
    Table home' (n + 1) (some n) array chains where
  seg := T.seg
  head := T.head
  home_eq b p hp := (hhome b p hp).trans (T.home_eq b p hp)
  used_iff i := by
    rw [← T.used_iff i]
    simp only [Used, ne_eq, Option.some_inj, reduceCtorEq, not_false_eq_true, and_true]
    omega
  free_lt i hi := by
    rw [← Option.some_inj.mp hi]
    exact n.lt_succ_self

theorem growSplit (T : Table home n none array chains) (home' : ρ → ℕ) {s : Split ρ}
    {lo hi : List (ℕ × ρ)} (hs : Splitting array f n (chains f) s lo hi []) (hf : f < n)
    (hhome : ∀ d, home d ≠ f → home' d = home d) (hlo : ∀ p ∈ lo, home' p.2 = f)
    (hhi : ∀ p ∈ hi, home' p.2 = n) :
    ∃ chains', Table home' (n + 1) (some s.finish.empty) s.finish.array chains' ∧
      total (n + 1) chains' = total n chains := by
  have hlt : ∀ i ∈ slots (chains f), i < n := fun i hi => ((T.used_iff i).mpr ⟨f, hi⟩).1
  have hnodup : (slots (chains f) ++ [n]).Nodup :=
    List.Nodup.append (T.nodup_slots f) (nodup_singleton n)
      (disjoint_singleton.mpr fun hn => (hlt n hn).false)
  obtain ⟨hseglo, hseghi, hempty, hother⟩ := hs.finish hnodup
  have hnil : chains n = [] := T.nil_of_le le_rfl
  have hperm : (s.empty :: (slots lo ++ slots hi)).Perm
      (n :: (slots (chains f) ++ slots (chains n))) := by
    have hp := (append_assoc .. ▸ perm_append_singleton _ _).symm.trans
      (hs.perm.trans (perm_append_singleton n _))
    rwa [hnil, slots_nil, append_nil]
  rw [hempty]
  refine ⟨_, T.setPair (N := n + 1)
    (v := [s.empty]) hf.ne (fun d hd _ => hhome d hd) ?_ ⟨hseglo, hs.head_lo, hlo⟩
    ⟨hseghi, hs.head_hi, hhi⟩ ?_ ?_ ?_ (nodup_singleton n) ?_ hperm, ?_⟩
  · exact fun i hif _ hin => hother i hif fun h => hin (mem_singleton.mpr h)
  · intro i
    rw [Used, mem_singleton]
    simp only [ne_eq, reduceCtorEq, not_false_eq_true, and_true]
    omega
  · intro i
    rw [Used, mem_singleton, ne_eq, Option.some_inj, eq_comm]
  · intro i hi
    exact mem_singleton.mp hi ▸ n.lt_succ_self
  · intro i hi
    obtain rfl := Option.some_inj.mp hi
    have hmem := hperm.mem_iff.mp mem_cons_self
    rw [hnil, slots_nil, append_nil, mem_cons] at hmem
    exact hmem.elim (fun h => h ▸ n.lt_succ_self) fun h => (hlt _ h).trans n.lt_succ_self
  · have hrecs := hs.recs_eq
    rw [recs_nil, add_zero] at hrecs
    have hupd := total_update chains lo hf
    rw [total_succ, update_self, total_congr fun b hb => update_of_ne hb.ne _ _]
    rw [← hrecs, add_comm (recs lo), ← add_assoc, add_left_inj] at hupd
    exact hupd

section

variable {κ : Type*} {ops : KeyOps κ} {key : ρ → κ} {h : Hash ρ} {k : ℕ}

theorem split_spec (T : Table (homeAt ops key h.blength h.records) h.records none h.array chains)
    (hpow : h.blength = 2 ^ k) (hle : h.blength / 2 ≤ h.records) (hlt : h.records < h.blength)
    (record : ρ) :
    ∃ array' e chains', split ops key h record = some (array', e) ∧
      Table (homeAt ops key h.blength (h.records + 1)) (h.records + 1) (some e) array' chains' ∧
      total (h.records + 1) chains' = total h.records chains := by
  obtain ⟨array, n, B⟩ := h
  simp only at T hpow hle hlt ⊢
  subst hpow
  cases k with
  | zero =>
    obtain rfl : n = 0 := by simpa using hlt
    have hnil : ∀ b, chains b = [] := fun b => T.nil_of_le (Nat.zero_le b)
    refine ⟨array, 0, chains, by simp [split], T.grow fun b p hp => ?_, ?_⟩
    · rw [hnil] at hp
      exact absurd hp not_mem_nil
    · rw [total_succ, hnil 0, recs_nil, add_zero]
  | succ k =>
    have hhalf : 2 ^ (k + 1) >>> 1 = 2 ^ k := by
      rw [Nat.shiftRight_eq_div_pow, pow_succ, Nat.mul_div_cancel _ Nat.two_pos]
    rw [pow_succ, Nat.mul_div_cancel _ Nat.two_pos] at hle
    have hsucc : ∀ d, homeAt ops key (2 ^ (k + 1)) (n + 1) d =
        if homeAt ops key (2 ^ (k + 1)) n d = n - 2 ^ k ∧ recHashnr ops key d &&& 2 ^ k ≠ 0 then n
        else homeAt ops key (2 ^ (k + 1)) n d := fun d => myHashMask_succ hle hlt
    have hf : n - 2 ^ k < n := by omega
    have hused : Used n none (n - 2 ^ k) := ⟨hf, by simp⟩
    simp only [split, hhalf]
    by_cases hown : homeAt ops key (2 ^ (k + 1)) n (array (n - 2 ^ k)).data = n - 2 ^ k
    · rw [if_pos ⟨hf.ne, hown⟩]
      obtain ⟨m, hm⟩ := T.cons_of_home hused hown
      have hlen := T.length_le (n - 2 ^ k)
      have hstart : Splitting array (n - 2 ^ k) n (chains (n - 2 ^ k))
          ⟨array, false, false, false, false, 0, record, 0, record, n⟩ [] []
          (chains (n - 2 ^ k)) := {
        lowfind := by simp
        highfind := by simp
        excl := fun _ => rfl
        low := fun h => absurd rfl h
        high := fun h => absurd rfl h
        seg := T.seg _
        perm := perm_append_singleton n _ |>.symm
        other := fun _ _ _ => rfl
        recs_eq := by simp
        head_lo := fun p hp => absurd hp (by simp)
        head_hi := fun p hp => absurd hp (by simp)
        empty_hi := fun _ => rfl
        empty_lo := fun _ h => absurd rfl h
        start := fun _ _ => T.head _ }
      have hnodup : (slots (chains (n - 2 ^ k)) ++ [n]).Nodup := hstart.perm.nodup_iff.mp <|
        nodup_cons.mpr ⟨fun hn => ((T.used_iff n).mpr ⟨_, hn⟩).1.false, T.nodup_slots _⟩
      obtain ⟨s, lo, hi, hrun, hs, hlo, hhi⟩ := hstart.loop ops key (2 ^ k) hnodup
        (hlen.trans n.le_succ)
        (fun p hp => absurd hp not_mem_nil) (fun p hp => absurd hp not_mem_nil)
      have hfirst : first (chains (n - 2 ^ k)) none = some (n - 2 ^ k) := by rw [hm]; rfl
      rw [hfirst] at hrun
      -- a record of the two new chains is one of the old chain
      have hold : ∀ d, d ∈ recs lo ∨ d ∈ recs hi →
          homeAt ops key (2 ^ (k + 1)) n d = n - 2 ^ k := by
        intro d hd
        have hmem : d ∈ recs (chains (n - 2 ^ k)) := by
          rw [← hs.recs_eq, Multiset.mem_add, Multiset.mem_add]
          exact .inl hd
        obtain ⟨p, hp, rfl⟩ := mem_recs.mp hmem
        exact T.home_eq _ p hp
      obtain ⟨chains', T', htotal⟩ := T.growSplit
        (homeAt ops key (2 ^ (k + 1)) (n + 1)) hs hf
        (fun d hd => by rw [hsucc, if_neg fun h => hd h.1])
        (fun p hp => by
          rw [hsucc, if_neg fun h => h.2 (hlo p hp)]
          exact hold p.2 (.inl (mem_recs.mpr ⟨p, hp, rfl⟩)))
        (fun p hp => by
          rw [hsucc, if_pos ⟨hold p.2 (.inr (mem_recs.mpr ⟨p, hp, rfl⟩)), hhi p hp⟩])
      exact ⟨_, _, chains', by rw [hrun]; rfl, T', htotal⟩
    · rw [if_neg fun h => hown h.2]
      refine ⟨array, n, chains, rfl, T.grow fun b p hp => ?_, ?_⟩
      · rw [hsucc, if_neg]
        rintro ⟨hpf, -⟩
        rw [T.home_eq b p hp] at hpf
        rw [hpf, T.nil_of_not_home fun _ => hown] at hp
        exact absurd hp not_mem_nil
      · rw [total_succ, T.nil_of_le le_rfl, recs_nil, add_zero]

end

end Table

end MySQL.Mysys
