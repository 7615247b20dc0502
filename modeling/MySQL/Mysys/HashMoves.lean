import MySQL.Mysys.HashTable

/-!
# Moving records between slots

The parts of which the three operations of a hash table are made: a record is moved to the free
slot, taken out of its chain, or written to the free slot.
-/

namespace MySQL.Mysys

open Lib List Function

variable {ρ : Type*}

def recs (l : List (ℕ × ρ)) : Multiset ρ := (l.map Prod.snd : List ρ)

@[simp] theorem recs_nil : recs ([] : List (ℕ × ρ)) = 0 := rfl

@[simp] theorem recs_cons (p : ℕ × ρ) (l : List (ℕ × ρ)) : recs (p :: l) = p.2 ::ₘ recs l := rfl

@[simp] theorem recs_append (l m : List (ℕ × ρ)) : recs (l ++ m) = recs l + recs m := by
  rw [recs, map_append]
  rfl

theorem mem_recs {l : List (ℕ × ρ)} {d : ρ} : d ∈ recs l ↔ ∃ p ∈ l, p.2 = d := List.mem_map

/-- The records of the chains that begin below `n`. -/
def total (n : ℕ) (chains : ℕ → List (ℕ × ρ)) : Multiset ρ :=
  ∑ b ∈ Finset.range n, recs (chains b)

section Total

variable {n b : ℕ} {chains : ℕ → List (ℕ × ρ)} {l : List (ℕ × ρ)} {d : ρ}

theorem total_succ (n : ℕ) (chains : ℕ → List (ℕ × ρ)) :
    total (n + 1) chains = total n chains + recs (chains n) := Finset.sum_range_succ ..

theorem total_congr {chains' : ℕ → List (ℕ × ρ)} (h : ∀ b, b < n → chains' b = chains b) :
    total n chains' = total n chains :=
  Finset.sum_congr rfl fun b hb => by rw [h b (Finset.mem_range.mp hb)]

theorem total_update (chains : ℕ → List (ℕ × ρ)) (l : List (ℕ × ρ)) (hb : b < n) :
    total n (update chains b l) + recs (chains b) = total n chains + recs l := by
  have hmem := Finset.mem_range.mpr hb
  have hrest : ∑ c ∈ (Finset.range n).erase b, recs (update chains b l c) =
      ∑ c ∈ (Finset.range n).erase b, recs (chains c) :=
    Finset.sum_congr rfl fun c hc => by rw [update_of_ne (Finset.ne_of_mem_erase hc)]
  rw [total, total, ← Finset.add_sum_erase _ _ hmem, ← Finset.add_sum_erase _ _ hmem, hrest,
    update_self]
  ac_rfl

theorem total_update_eq (hb : b < n) (h : recs l = recs (chains b)) :
    total n (update chains b l) = total n chains := by
  have := total_update chains l hb
  rwa [h, add_left_inj] at this

theorem total_update_cons (hb : b < n) (h : recs l = d ::ₘ recs (chains b)) :
    total n (update chains b l) = d ::ₘ total n chains := by
  have := total_update chains l hb
  rwa [h, Multiset.add_cons, ← Multiset.cons_add, add_left_inj] at this

theorem total_cons_update (hb : b < n) (h : recs (chains b) = d ::ₘ recs l) :
    total n chains = d ::ₘ total n (update chains b l) := by
  have := total_update chains l hb
  rw [h, Multiset.add_cons, ← Multiset.cons_add, add_left_inj] at this
  exact this.symm

end Total

namespace Table

variable {home : ρ → ℕ} {n : ℕ} {free : Option ℕ} {array array₁ : ℕ → HashLink ρ}
  {chains : ℕ → List (ℕ × ρ)} {b c e i idx : ℕ} {d : ρ} {l l₁ l₂ : List (ℕ × ρ)}

theorem home_lt (T : Table home n free array chains) (hi : Used n free i) :
    home (array i).data < n := T.lt_of_mem (T.mem_chain hi)

theorem length_le (T : Table home n free array chains) (b : ℕ) : (chains b).length ≤ n := by
  have hsub : (slots (chains b)).toFinset ⊆ Finset.range n := by
    intro i hi
    exact Finset.mem_range.mpr ((T.used_iff i).mpr ⟨b, List.mem_toFinset.mp hi⟩).1
  have hcard := Finset.card_le_card hsub
  rwa [toFinset_card_of_nodup (T.nodup_slots b), Finset.card_range, slots,
    length_map] at hcard

/-! ## To the free slot -/

theorem perm_exchange (l m : List ℕ) (i j : ℕ) : (i :: (l ++ j :: m)).Perm (j :: (l ++ i :: m)) :=
  (perm_middle.cons i).trans ((Perm.swap ..).trans (perm_middle.symm.cons j))

section

variable (T : Table home n (some e) array chains)

include T

theorem relocate (hidx : Used n (some e) idx)
    (hc : home (array idx).data = c) (hne : c ≠ idx) (array₁ : ℕ → HashLink ρ)
    (he : array₁ e = array idx) (hother : ∀ i, i ≠ e → i ≠ idx → array₁ i = array i)
    {records : ℕ} (hn : n ≤ records + 1) :
    ∃ array' l, movelink array₁ records (some idx) c (some e) = some array' ∧
      Table home n (some idx) array' (update chains c l) ∧
      recs l = recs (chains c) ∧ array' idx = array₁ idx := by
  have hmem := T.mem_chain hidx
  rw [hc] at hmem
  obtain ⟨l₁, l₂, hchain⟩ := append_of_mem hmem
  -- the chain begins in front of the record, because its slot is not the first one
  obtain ⟨d, l₁', rfl⟩ : ∃ d l₁', l₁ = (c, d) :: l₁' := by
    obtain ⟨d, m, hm⟩ := T.exists_cons hmem
    cases l₁ with
    | nil =>
      rw [hm] at hchain
      exact absurd (Prod.mk.inj (List.cons.inj hchain).1).1 hne
    | cons p l₁ =>
      rw [hm] at hchain
      exact ⟨d, l₁, by rw [(List.cons.inj hchain).1]⟩
  have hnodup := T.nodup_slots c
  have hseg := T.seg c
  have hfree := T.not_mem_of_free c
  have hlen := T.length_le c
  rw [hchain] at hnodup hseg hfree hlen
  simp only [slots_append, slots_cons, mem_append, mem_cons, not_or] at hfree
  rw [slots_append, nodup_append] at hnodup
  obtain ⟨hnodup₁, hnodup₂, hdisjoint⟩ := hnodup
  obtain ⟨hidx₂, -⟩ := nodup_cons.mp hnodup₂
  have hidx₁ : idx ∉ slots ((c, d) :: l₁') := fun h =>
    hdisjoint idx h idx mem_cons_self rfl
  have hfree₁ : e ∉ slots ((c, d) :: l₁') := fun h =>
    (mem_cons.mp h).elim hfree.1.1 hfree.1.2
  obtain ⟨hseg₁, hcell, hseg₂⟩ := seg_append.mp hseg
  obtain ⟨array', hrun, hnew₁, hsame⟩ := relink_spec (some e)
    (hseg₁.congr fun i hi => hother i (ne_of_mem_of_not_mem hi hfree₁)
      (ne_of_mem_of_not_mem hi hidx₁)) hnodup₁
    (fun i hi h => hidx₁ (by
      obtain rfl : idx = i := Option.some_inj.mp h
      exact mem_cons_of_mem _ hi))
    (show l₁'.length < records + 1 by
      simp only [length_append, length_cons] at hlen; omega)
  have hother' : ∀ i, i ∉ slots ((c, d) :: l₁') → i ≠ e → i ≠ idx → array' i = array i :=
    fun i h₁ h₂ h₃ => (hsame i h₁).trans (hother i h₂ h₃)
  refine ⟨array', (c, d) :: l₁' ++ (e, (array idx).data) :: l₂, hrun, ?_, ?_, hsame idx hidx₁⟩
  · refine T.setChain (T.lt_of_mem hmem) (fun i hi hne => ?_) ⟨seg_append.mpr ⟨hnew₁, ?_,
      hseg₂.congr fun i hi => ?_⟩, fun p hp => by rw [← Option.some_inj.mp hp], fun p hp => ?_⟩ ?_
    · rw [hchain, slots_append, mem_append, not_or] at hi
      exact hother' i hi.1 (fun h => hne (congrArg some h.symm)) (ne_of_not_mem_cons hi.2)
    · rw [hsame e hfree₁, he]
      exact hcell
    · exact hother' i (fun h => hdisjoint i h i (mem_cons_of_mem _ hi) rfl)
        (ne_of_mem_of_not_mem hi hfree.2.2) (ne_of_mem_of_not_mem hi hidx₂)
    · have hhome := T.home_eq c
      rw [hchain] at hhome
      rcases mem_append.mp hp with h | h
      · exact hhome p (mem_append_left _ h)
      · rcases mem_cons.mp h with rfl | h
        · exact hc
        · exact hhome p (mem_append_right _ (mem_cons_of_mem _ h))
    · rw [hchain, slots_append, slots_append]
      exact perm_exchange (slots ((c, d) :: l₁')) (slots l₂) idx e
  · rw [hchain]
    simp

theorem putAlone (hd : home d = e) :
    Table home n none (update array e ⟨none, d⟩) (update chains e [(e, d)]) := by
  refine T.setChain (T.free_lt e rfl) (fun i _ hi => ?_) ⟨⟨update_self .., seg_nil⟩, fun p hp => ?_,
    fun p hp => ?_⟩ ?_
  · exact update_of_ne (fun h => hi (congrArg some h.symm)) _ _
  · rw [← Option.some_inj.mp hp]
  · rw [mem_singleton.mp hp]
    exact hd
  · rw [T.nil_of_free]
    exact .rfl

theorem total_putAlone : total n (update chains e [(e, d)]) = d ::ₘ total n chains :=
  total_update_cons (T.free_lt e rfl) (by rw [T.nil_of_free]; rfl)

theorem putTwo {x d₁ d₂ : ρ}
    (hl : chains idx = (idx, x) :: l) (he : idx ≠ e) (h₁ : home d₁ = idx) (h₂ : home d₂ = idx) :
    Table home n none
      (update (update array e ⟨(array idx).next, d₂⟩) idx ⟨some e, d₁⟩)
      (update chains idx ((idx, d₁) :: (e, d₂) :: l)) := by
  have hnodup := T.nodup_slots idx
  have hfree := T.not_mem_of_free idx
  have hseg := T.seg idx
  have hhome := T.home_eq idx
  rw [hl] at hnodup hfree hseg hhome
  rw [slots_cons, mem_cons, not_or] at hfree
  refine T.setChain (T.lt_of_mem (hl ▸ mem_cons_self)) (fun i hi hne => ?_) ⟨⟨update_self .., ?_,
    (hseg.2.update hfree.2).update (nodup_cons.mp hnodup).1⟩, fun p hp => ?_, fun p hp => ?_⟩ ?_
  · rw [hl] at hi
    rw [update_of_ne (ne_of_not_mem_cons hi),
      update_of_ne fun h => hne (congrArg some h.symm)]
  · rw [update_of_ne (Ne.symm he), update_self, hseg.1]
  · rw [← Option.some_inj.mp hp]
  · rcases mem_cons.mp hp with rfl | hp
    · exact h₁
    · rcases mem_cons.mp hp with rfl | hp
      · exact h₂
      · exact hhome p (mem_cons_of_mem _ hp)
  · rw [hl]
    exact Perm.swap ..

end

/-! ## Out of a chain -/

def before (l : List (ℕ × ρ)) : Option ℕ := (slots l).getLast?

theorem unlink (T : Table home n none array chains) (hchain : chains b = l₁ ++ (i, d) :: l₂) :
    ∃ array' e l, unlinkRecord array (before l₁) i = (array', e) ∧
      Table home n (some e) array' (update chains b l) ∧
      recs (chains b) = d ::ₘ recs l ∧ (e = i → (array' i).data = d) := by
  have hnodup := T.nodup_slots b
  have hseg := T.seg b
  have hhome := T.home_eq b
  have hhead := T.head b
  rw [hchain] at hnodup hseg hhome hhead
  obtain ⟨hseg₁, hcell, hseg₂⟩ := seg_append.mp hseg
  rw [slots_append, nodup_append] at hnodup
  obtain ⟨hnodup₁, hnodup₂, hdisjoint⟩ := hnodup
  obtain ⟨hi₂, -⟩ := nodup_cons.mp hnodup₂
  have hb : b < n := T.lt_of_mem (p := (i, d)) (by simp [hchain])
  have hcell' : array i = ⟨first l₂ none, d⟩ := hcell
  rcases eq_nil_or_concat' l₁ with rfl | ⟨l₁, p, rfl⟩
  · have hib : i = b := hhead (i, d) rfl
    cases l₂ with
    | nil =>
      refine ⟨array, i, [], ?_, ?_, ?_, fun _ => by rw [hcell']⟩
      · rw [before, slots_nil, List.getLast?_nil, unlinkRecord, hcell']
        rfl
      · refine T.setChain hb (fun _ _ _ => rfl) ⟨seg_nil, by simp, by simp⟩ ?_
        rw [hchain]
        exact .rfl
      · rw [hchain]
        rfl
    | cons q l₂ =>
      obtain ⟨hqcell, hseg₂⟩ := seg_cons.mp hseg₂
      have hiq : i ≠ q.1 := fun h => hi₂ (h ▸ mem_cons_self)
      refine ⟨update array i (array q.1), q.1, (i, q.2) :: l₂, ?_, ?_, ?_,
        fun h => absurd h.symm hiq⟩
      · rw [before, slots_nil, List.getLast?_nil, unlinkRecord, hcell']
        rfl
      · refine T.setChain hb (fun j hj _ => ?_) ⟨⟨by rw [update_self, hqcell],
          hseg₂.update fun h => hi₂ (mem_cons_of_mem _ h)⟩, fun p hp => ?_, fun p hp => ?_⟩ ?_
        · rw [hchain] at hj
          exact update_of_ne (ne_of_not_mem_cons hj) _ _
        · rw [← Option.some_inj.mp hp]
          exact hib
        · rcases mem_cons.mp hp with rfl | hp
          · exact hhome q (by simp)
          · exact hhome p (by simp [hp])
        · rw [hchain]
          exact Perm.swap ..
      · rw [hchain]
        rfl
  · obtain ⟨hseg₁, hp⟩ := seg_concat.mp hseg₁
    have hip : i ≠ p.1 := by
      rintro rfl
      exact hdisjoint p.1 (by simp) p.1 mem_cons_self rfl
    rw [slots_append, nodup_append] at hnodup₁
    refine ⟨update array p.1 ⟨(array i).next, (array p.1).data⟩, i, l₁ ++ p :: l₂,
      ?_, ?_, ?_, fun _ => by rw [update_of_ne hip, hcell']⟩
    · rw [before, slots_append, slots_cons, slots_nil, List.getLast?_concat]
      rfl
    · refine T.setChain hb (fun j hj _ => ?_) ⟨seg_append.mpr ⟨hseg₁.update fun h => ?_, ?_,
        hseg₂.update fun h => ?_⟩, fun q hq => ?_, fun q hq => ?_⟩ ?_
      · rw [hchain] at hj
        refine update_of_ne (fun h => hj ?_) _ _
        rw [h]
        simp
      · exact hnodup₁.2.2 p.1 h p.1 mem_cons_self rfl
      · rw [update_self, hcell', hp]
      · exact hdisjoint p.1 (by simp) p.1 (mem_cons_of_mem _ h) rfl
      · apply hhead q
        rw [← hq]
        cases l₁ <;> simp
      · apply hhome q
        simp only [mem_append, mem_cons] at hq ⊢
        tauto
      · rw [hchain, slots_append, slots_append, slots_append, append_assoc]
        exact ((Perm.swap ..).append_left _ |>.trans perm_middle).symm
    · rw [hchain]
      simp only [recs_append, recs_cons, recs_nil, Multiset.add_cons, Multiset.cons_add, add_zero]

theorem findRecord_suffix [DecidableEq ρ] (record : ρ) {m : List (ℕ × ρ)} {p : ℕ × ρ}
    (previous : Option ℕ) {fuel : ℕ} (hseg : Seg array (p :: m) none) (hfuel : m.length < fuel) :
    (record ∉ recs (p :: m) ∧ findRecord array record fuel previous p.1 = some none) ∨
      ∃ l₁ i l₂, p :: m = l₁ ++ (i, record) :: l₂ ∧
        findRecord array record fuel previous p.1 = some (some ((before l₁).or previous, i)) := by
  induction m generalizing p previous fuel with
  | nil =>
    obtain ⟨fuel, rfl⟩ := Nat.exists_eq_succ_of_ne_zero (Nat.ne_zero_of_lt hfuel)
    have hcell : array p.1 = ⟨none, p.2⟩ := hseg.1
    by_cases hp : p.2 = record
    · exact .inr ⟨[], p.1, [], by rw [← hp]; rfl, by rw [findRecord, hcell]; exact if_pos hp⟩
    · refine .inl ⟨by simpa using Ne.symm hp, ?_⟩
      rw [findRecord, hcell]
      exact if_neg hp
  | cons q m ih =>
    obtain ⟨fuel, rfl⟩ := Nat.exists_eq_succ_of_ne_zero (Nat.ne_zero_of_lt hfuel)
    have hcell : array p.1 = ⟨some q.1, p.2⟩ := hseg.1
    by_cases hp : p.2 = record
    · exact .inr ⟨[], p.1, q :: m, by rw [← hp]; rfl,
        by rw [findRecord, hcell]; exact if_pos hp⟩
    · have hstep : findRecord array record (fuel + 1) previous p.1 =
          findRecord array record fuel (some p.1) q.1 := by
        rw [findRecord, hcell]
        exact if_neg hp
      rcases ih (some p.1) hseg.2 (Nat.lt_of_succ_lt_succ hfuel) with
        ⟨hnot, hrun⟩ | ⟨l₁, i, l₂, hl, hrun⟩
      · refine .inl ⟨?_, hstep.trans hrun⟩
        rw [recs_cons, Multiset.mem_cons, not_or]
        exact ⟨Ne.symm hp, hnot⟩
      · refine .inr ⟨p :: l₁, i, l₂, by rw [hl]; rfl, hstep.trans (hrun.trans ?_)⟩
        have hbefore : (before (p :: l₁)).or previous = (before l₁).or (some p.1) := by
          rw [before]
          cases l₁ with
          | nil => rfl
          | cons r l₁ =>
            rfl
        rw [hbefore]

theorem findRecord_spec [DecidableEq ρ] {record : ρ} (T : Table home n none array chains)
    (hlt : home record < n) :
    (record ∉ recs (chains (home record)) ∧
      findRecord array record (n + 1) none (home record) = some none) ∨
    ∃ l₁ i l₂, chains (home record) = l₁ ++ (i, record) :: l₂ ∧
      findRecord array record (n + 1) none (home record) = some (some (before l₁, i)) := by
  have hused : Used n none (home record) := ⟨hlt, by simp⟩
  have hmem := T.mem_chain hused
  obtain ⟨m₁, m₂, hm⟩ := append_of_mem hmem
  have hlen := T.length_le (home (array (home record)).data)
  have hseg := T.seg (home (array (home record)).data)
  rw [hm] at hlen hseg
  rw [length_append, length_cons] at hlen
  have hfind := findRecord_suffix record none (seg_append.mp hseg).2
    (show m₂.length < n + 1 by omega)
  by_cases hown : home (array (home record)).data = home record
  · rw [hown] at hm
    have hm₁ : m₁ = [] := by
      cases m₁ with
      | nil => rfl
      | cons p m₁ =>
        have hnodup := T.nodup_slots (home record)
        have hp : p.1 = home record := T.head _ p (by rw [hm]; rfl)
        rw [hm, cons_append, slots_cons, slots_append, hp] at hnodup
        exact absurd (by simp) (nodup_cons.mp hnodup).1
    rw [hm₁, nil_append] at hm
    rw [hm]
    simpa only [Option.or_none] using hfind
  · left
    rw [T.nil_of_not_home fun _ => hown]
    refine ⟨Multiset.notMem_zero _, ?_⟩
    rcases hfind with ⟨-, hrun⟩ | ⟨l₁, i, l₂, hl, -⟩
    · exact hrun
    · refine absurd ?_ hown
      rw [← T.home_eq (home (array (home record)).data) (i, record)]
      rw [hm, hl]
      simp

/-! ## Into a chain -/

section Place

variable {κ : Type*} {ops : KeyOps κ} {key : ρ → κ} {blength : ℕ}

theorem placeFirst_spec (T : Table (homeAt ops key blength n) n (some e) array chains)
    (hd : homeAt ops key blength n d < n) :
    ∃ array' chains', placeFirst ops key array blength n e d = some array' ∧
      Table (homeAt ops key blength n) n none array' chains' ∧
      total n chains' = d ::ₘ total n chains := by
  obtain ⟨idx, hidx⟩ : ∃ idx, homeAt ops key blength n d = idx := ⟨_, rfl⟩
  have hmask : myHashMask (recHashnr ops key d) blength n = idx := hidx
  rw [hidx] at hd
  simp only [placeFirst, hmask]
  by_cases he : idx = e
  · subst he
    exact ⟨_, _, if_pos rfl, T.putAlone hidx, T.total_putAlone⟩
  · rw [if_neg he]
    have hused : Used n (some e) idx := ⟨hd, fun h => he (Option.some_inj.mp h).symm⟩
    by_cases hown : homeAt ops key blength n (array idx).data = idx
    · have hgpos : idx = myHashRecMask ops key (array idx) blength n := hown.symm
      rw [if_pos hgpos]
      obtain ⟨l, hl⟩ := T.cons_of_home hused hown
      exact ⟨_, _, rfl, T.putTwo hl he hidx hown, total_update_cons hd (by rw [hl]; rfl)⟩
    · have hgpos : ¬ idx = myHashRecMask ops key (array idx) blength n := fun h => hown h.symm
      rw [if_neg hgpos]
      obtain ⟨array', l, hrun, T', hrecs, hcell⟩ := T.relocate hused rfl hown
        (update (update array e (array idx)) idx ⟨none, d⟩)
        (by rw [update_of_ne (Ne.symm he), update_self])
        (fun i h₁ h₂ => by rw [update_of_ne h₂, update_of_ne h₁]) n.le_succ
      rw [update_self] at hcell
      have hput := T'.putAlone hidx
      rw [← hcell, update_eq_self] at hput
      refine ⟨array', _, hrun, hput, ?_⟩
      rw [T'.total_putAlone, total_update_eq (T.home_lt hused) hrecs]

theorem placeSecond_spec (T : Table (homeAt ops key blength n) n (some e) array chains)
    (hd : homeAt ops key blength n d = idx) (hlt : idx < n) {orgLink : HashLink ρ}
    (horg : orgLink.data = d) (hi : e = i → (array i).data = d) :
    ∃ array' chains', placeSecond ops key array blength n i e idx orgLink = some array' ∧
      Table (homeAt ops key blength n) n none array' chains' ∧
      total n chains' = d ::ₘ total n chains := by
  simp only [placeSecond]
  by_cases he : idx = e
  · subst he
    rw [if_pos rfl]
    refine ⟨_, _, rfl, ?_, T.total_putAlone⟩
    have hput := T.putAlone hd
    by_cases hie : idx = i
    · rw [if_neg (not_not.mpr hie)]
      have hdata : (array idx).data = d := by
        rw [hie]
        exact hi hie
      rwa [hdata]
    · rw [if_pos hie, update_self, update_idem, horg]
      exact hput
  · rw [if_neg he]
    have hused : Used n (some e) idx := ⟨hlt, fun h => he (Option.some_inj.mp h).symm⟩
    by_cases hown : homeAt ops key blength n (array idx).data = idx
    · have hpos : ¬ idx ≠ myHashRecMask ops key (array idx) blength n := not_not.mpr hown.symm
      rw [if_neg hpos]
      obtain ⟨l, hl⟩ := T.cons_of_home hused hown
      rw [update_of_ne he, horg]
      refine ⟨_, _, rfl, T.putTwo hl he hown hd, total_update_cons hlt ?_⟩
      rw [hl, recs_cons, recs_cons]
      exact Multiset.cons_swap ..
    · have hpos : idx ≠ myHashRecMask ops key (array idx) blength n := fun h => hown h.symm
      rw [if_pos hpos]
      obtain ⟨array', l, hrun, T', hrecs, -⟩ := T.relocate hused rfl hown
        (update array e (array idx)) (update_self ..)
        (fun i h₁ _ => update_of_ne h₁ _ _) n.le_succ
      have hput := T'.putAlone hd
      refine ⟨update array' idx ⟨none, d⟩, _, ?_, hput, ?_⟩
      · have hrun' : movelink (update array e (array idx)) n (some idx)
            (myHashRecMask ops key (array idx) blength n) (some e) = some array' := hrun
        rw [hrun', horg]
        rfl
      · rw [T'.total_putAlone, total_update_eq (T.home_lt hused) hrecs]

end Place

end Table

end MySQL.Mysys
