import MySQL.Mysys.HashMoves

/-!
# Removing the last slot

When a record was taken out, the last slot of the array is given up.  Its record is moved, and the
records of the chain that began there go to another chain.
-/

namespace MySQL.Mysys

open Lib List Function

variable {ρ : Type*}

namespace Table

variable {home home' : ρ → ℕ} {n f e : ℕ} {array array' : ℕ → HashLink ρ}
  {chains : ℕ → List (ℕ × ρ)} {l t u : List (ℕ × ρ)} {x y : ρ}

theorem shrink (T : Table home (n + 1) (some n) array chains)
    (hhome : n ≠ 0 → ∀ d, home d ≠ n → home' d = home d) :
    Table home' n none array chains ∧ total n chains = total (n + 1) chains := by
  have hnil := T.nil_of_free
  constructor
  · refine ⟨T.seg, T.head, fun b p hp => ?_, fun i => ?_, fun i hi => absurd hi (by simp)⟩
    · have hused := T.used hp
      have hn : n ≠ 0 := fun hn => hused.2 (congrArg some (by have := hused.1; omega))
      rw [hhome hn p.2, T.home_eq b p hp]
      rw [T.home_eq b p hp]
      rintro rfl
      rw [hnil] at hp
      exact absurd hp not_mem_nil
    · rw [← T.used_iff i]
      simp only [Used, ne_eq, Option.some_inj, reduceCtorEq, not_false_eq_true, and_true]
      omega
  · rw [total_succ, hnil, recs_nil, add_zero]

theorem merge (T : Table home (n + 1) (some e) array chains) (hf : f < n)
    (hhome : ∀ d, home' d = if home d = n then f else home d)
    (harray : ∀ i, i ∉ slots (chains f) → i ∉ slots (chains n) → i ≠ e → array' i = array i)
    (hseg : Seg array' l none) (hhead : ∀ p, l.head? = some p → p.1 = f)
    (hrecs : recs l = recs (chains f) + recs (chains n))
    (hperm : (n :: slots l).Perm (e :: (slots (chains f) ++ slots (chains n)))) :
    ∃ chains', Table home' n none array' chains' ∧ total n chains' = total (n + 1) chains := by
  have hl : ∀ p ∈ l, home' p.2 = f := by
    intro p hp
    have hmem : p.2 ∈ recs l := mem_recs.mpr ⟨p, hp, rfl⟩
    rw [hrecs, Multiset.mem_add, mem_recs, mem_recs] at hmem
    rcases hmem with ⟨q, hq, hqp⟩ | ⟨q, hq, hqp⟩
    · rw [← hqp, hhome, T.home_eq f q hq, if_neg hf.ne]
    · rw [← hqp, hhome, if_pos (T.home_eq n q hq)]
  refine ⟨_, T.setPair (N := n + 1) (v := [n])
    hf.ne (fun d _ hd => (hhome d).trans (if_neg hd)) ?_ ⟨hseg, hhead, hl⟩
    ⟨seg_nil, by simp, by simp⟩ ?_ ?_ ?_ (nodup_singleton e) (by simp) ?_, ?_⟩
  · exact fun i hif hin hie => harray i hif hin fun h => hie (mem_singleton.mpr h)
  · intro i
    rw [Used, mem_singleton, ne_eq, Option.some_inj, eq_comm]
  · intro i
    rw [Used, mem_singleton]
    simp only [ne_eq, reduceCtorEq, not_false_eq_true, and_true]
    omega
  · intro i hi
    exact mem_singleton.mp hi ▸ T.free_lt e rfl
  · rwa [slots_nil, append_nil]
  · have hupd := total_update chains l hf
    rw [total_succ, total_congr fun b hb => update_of_ne hb.ne _ _]
    rw [hrecs, add_left_comm, add_comm (recs (chains f)), add_left_inj] at hupd
    exact hupd

theorem moveHead (T : Table home (n + 1) (some f) array chains) (array' : ℕ → HashLink ρ)
    (hf : f < n)
    (hhome : ∀ d, home' d = if home d = n then f else home d) (hn : chains n = (n, x) :: t)
    (hcell : array' f = array n) (hother : ∀ i, i ≠ f → array' i = array i) :
    ∃ chains', Table home' n none array' chains' ∧ total n chains' = total (n + 1) chains := by
  have hnil := T.nil_of_free
  have hseg := T.seg n
  have hfree := T.not_mem_of_free n
  rw [hn] at hseg hfree
  refine T.merge (l := (f, x) :: t) hf hhome (fun i _ _ hi => hother i hi)
    ⟨hcell.trans hseg.1, hseg.2.congr fun i hi => hother i ?_⟩ (fun p hp => ?_) ?_ ?_
  · exact ne_of_mem_of_not_mem hi fun h => hfree (mem_cons_of_mem _ h)
  · rw [← Option.some_inj.mp hp]
  · rw [hnil, hn, recs_nil]
    rfl
  · rw [hnil, hn]
    exact Perm.swap ..

/-- The head of the chain of the last slot, in the free slot now, and the records `t` behind it are
linked in behind the record in the slot `f`. -/
theorem mergeBehind (T : Table home (n + 1) (some e) array chains) (hf : f < n)
    (hhome : ∀ d, home' d = if home d = n then f else home d) {find : Option ℕ}
    (hfind : ∀ i, find = some i → i = f)
    (hcell : array n = ⟨first t find, x⟩) (hsegt : Seg array t find)
    (hfcell : array f = ⟨first u none, y⟩) (hsegu : Seg array u none)
    (hperm : (slots (chains f) ++ slots (chains n)).Perm (n :: f :: (slots t ++ slots u)))
    (hrecs : recs (chains f) + recs (chains n) = y ::ₘ x ::ₘ (recs t + recs u))
    (hlen : t.length < n + 1) :
    ∃ array' chains', ((movelink (update array e (array n)) n find e (array f).next).map
        fun array => update array f ⟨some e, (array f).data⟩) = some array' ∧
      Table home' n none array' chains' ∧ total n chains' = total (n + 1) chains := by
  have hfree : e ∉ n :: f :: (slots t ++ slots u) := fun h =>
    (mem_append.mp (hperm.mem_iff.mpr h)).elim (T.not_mem_of_free f) (T.not_mem_of_free n)
  simp only [mem_cons, mem_append, not_or] at hfree
  obtain ⟨-, hnodup⟩ := nodup_cons.mp (hperm.nodup_iff.mp (T.nodup_pair hf.ne))
  obtain ⟨hft, hnodup⟩ := nodup_cons.mp hnodup
  obtain ⟨hnodupt, hnodupu, hdisj⟩ := nodup_append.mp hnodup
  rw [mem_append, not_or] at hft
  have hmoved : Seg (update array e (array n)) ((e, x) :: t) find :=
    ⟨by rw [update_self, hcell], hsegt.update hfree.2.2.1⟩
  obtain ⟨array₂, hrun, hseg₂, hsame⟩ := relink_spec (array f).next hmoved
    (nodup_cons.mpr ⟨hfree.2.2.1, hnodupt⟩) (fun i hi h => hft.1 (hfind i h ▸ hi)) hlen
  have hsame' : ∀ i, i ∉ slots t → i ≠ e → array₂ i = array i := by
    intro i hit hie
    rw [hsame i fun h => (mem_cons.mp h).elim hie hit, update_of_ne hie]
  have hf₂ : array₂ f = ⟨first u none, y⟩ := (hsame' f hft.1 (Ne.symm hfree.2.1)).trans hfcell
  have hnext : (array f).next = first u none := by rw [hfcell]
  rw [hnext] at hseg₂
  have hnew : Seg (update array₂ f ⟨some e, y⟩) ((f, y) :: ((e, x) :: t ++ u)) none := by
    refine ⟨update_self .., seg_append.mpr ⟨hseg₂.update fun h => ?_, ?_⟩⟩
    · exact (mem_cons.mp h).elim (fun h => hfree.2.1 h.symm) hft.1
    · refine (hsegu.congr fun i hi => ?_).update hft.2
      exact hsame' i (fun h => hdisj i h i hi rfl) (ne_of_mem_of_not_mem hi hfree.2.2.2)
  obtain ⟨chains', T', htotal⟩ := T.merge hf hhome
    (fun i hif hin hie => by
      have hi := mt hperm.mem_iff.mpr (mem_append.not.mpr (not_or.mpr ⟨hif, hin⟩))
      simp only [mem_cons, mem_append, not_or] at hi
      rw [update_of_ne hi.2.1, hsame' i hi.2.2.1 hie])
    hnew (fun p hp => by rw [← Option.some_inj.mp hp])
    (by rw [hrecs, recs_cons, recs_append, recs_cons, Multiset.cons_add])
    (by
      rw [slots_cons, slots_append]
      exact (perm_middle : ([n, f] ++ e :: (slots t ++ slots u)).Perm _).trans
        (hperm.symm.cons e))
  refine ⟨_, chains', ?_, T', htotal⟩
  rw [movelink, hrun, Option.map_some, hf₂]

end Table

/-! ## The cases of the last slot -/

/-- `moveLast`, with the chains given by the functions `home` before and `home'` afterwards. -/
def moveLastBy (home home' : ρ → ℕ) (array : ℕ → HashLink ρ) (n e : ℕ) : Option (ℕ → HashLink ρ) :=
  if e = n then some array
  else
    let pos := home' (array n).data
    if pos = e then some (update array e (array n))
    else if pos ≠ home' (array pos).data then
      movelink (update (update array e (array pos)) pos (array n)) n
        (some pos) (home' (array pos).data) (some e)
    else if home (array n).data = home (array pos).data ∧ home (array n).data ≠ n then
      movelink (update array e (array n)) n (some n) pos (some e)
    else
      (movelink (update array e (array n)) n
        (if home (array n).data = home (array pos).data then some pos else none) e
          (array pos).next).map
        fun array => update array pos ⟨some e, (array pos).data⟩

namespace Table

variable {home home' : ρ → ℕ} {n f e : ℕ} {array : ℕ → HashLink ρ} {chains : ℕ → List (ℕ × ρ)}

theorem moveLastBy_foreign (T : Table home (n + 1) (some e) array chains) (hen : e ≠ n)
    (hhome : ∀ d, home' d = if home d = n then f else home d) (hx : home (array n).data ≠ n) :
    ∃ array' chains', moveLastBy home home' array n e = some array' ∧
      Table home' n none array' chains' ∧ total n chains' = total (n + 1) chains := by
  have hlast : Used (n + 1) (some e) n := ⟨n.lt_succ_self, fun h => hen (Option.some_inj.mp h)⟩
  obtain ⟨c, hc⟩ : ∃ c, home (array n).data = c := ⟨_, rfl⟩
  rw [hc] at hx
  have hmem := T.mem_chain hlast
  rw [hc] at hmem
  obtain ⟨d, l, hl⟩ := T.exists_cons hmem
  have hdmem : (c, d) ∈ chains c := hl ▸ mem_cons_self
  have hused := T.used hdmem
  have hdata : (array c).data = d := T.data_eq hdmem
  have hd : home d = c := T.home_eq c _ hdmem
  have hpos : home' (array n).data = c := by rw [hhome, hc, if_neg hx]
  have hpos₃ : home' d = c := by rw [hhome, hd, if_neg hx]
  have hce : c ≠ e := fun h => hused.2 (congrArg some h.symm)
  obtain ⟨array', l', hrun, T', hrecs, -⟩ := T.relocate hlast hc hx
    (update array e (array n)) (update_self ..)
    (fun i h _ => update_of_ne h _ _) (le_refl (n + 1))
  obtain ⟨T'', htotal⟩ := T'.shrink fun _ d hd => (hhome d).trans (if_neg hd)
  refine ⟨array', _, ?_, T'', htotal.trans (total_update_eq hused.1 hrecs)⟩
  simp only [moveLastBy, hpos, hc, hdata, hd, hpos₃]
  rw [if_neg hen, if_neg hce, if_neg (not_not.mpr rfl), if_pos ⟨trivial, hx⟩]
  exact hrun

theorem moveLastBy_head (T : Table home (n + 1) (some e) array chains) (hen : e ≠ n) (hf : f < n)
    (hhome : ∀ d, home' d = if home d = n then f else home d) (hx : home (array n).data = n) :
    ∃ array' chains', moveLastBy home home' array n e = some array' ∧
      Table home' n none array' chains' ∧ total n chains' = total (n + 1) chains := by
  have hlast : Used (n + 1) (some e) n := ⟨n.lt_succ_self, fun h => hen (Option.some_inj.mp h)⟩
  obtain ⟨t, hn⟩ := T.cons_of_home hlast hx
  have hpos : home' (array n).data = f := by rw [hhome, if_pos hx]
  simp only [moveLastBy, hpos, if_neg hen]
  by_cases hfe : f = e
  · subst hfe
    rw [if_pos rfl]
    obtain ⟨chains', T', htotal⟩ := T.moveHead (update array f (array n)) hf hhome
      hn (update_self ..) fun i hi => update_of_ne hi _ _
    exact ⟨_, chains', rfl, T', htotal⟩
  · rw [if_neg hfe]
    have hused : Used (n + 1) (some e) f :=
      ⟨hf.trans n.lt_succ_self, fun h => hfe (Option.some_inj.mp h).symm⟩
    by_cases hy' : home' (array f).data = f
    · rw [if_neg (not_not.mpr hy'.symm)]
      have hseg := T.seg n
      have hlen := T.length_le n
      rw [hn] at hseg hlen
      by_cases hy : home (array f).data = n
      · -- the slot `f` is of the same chain
        rw [if_neg fun h => h.2 hx, if_pos (hx.trans hy.symm)]
        have hmem := T.mem_chain hused
        rw [hy, hn] at hmem
        obtain ⟨t₁, t₂, rfl⟩ := append_of_mem ((mem_cons.mp hmem).resolve_left
          fun h => hf.ne (Prod.mk.inj h).1)
        obtain ⟨hsegt, hfcell, hsegu⟩ := seg_append.mp hseg.2
        have hnil : chains f = [] := T.nil_of_not_home fun _ => by rw [hy]; exact hf.ne'
        have hcell : array n = ⟨first t₁ (some f), (array n).data⟩ := by
          have h := hseg.1
          rwa [first_append] at h
        refine T.mergeBehind hf hhome (fun i hi => (Option.some_inj.mp hi).symm) hcell hsegt hfcell
          hsegu ?_ ?_ ?_
        · rw [hnil, hn, slots_cons, slots_append]
          exact perm_middle.cons n
        · rw [hnil, hn, recs_nil, zero_add, recs_cons, recs_append, recs_cons, Multiset.add_cons,
            Multiset.cons_swap]
        · rw [length_cons, length_append] at hlen
          omega
      · have hyf : home (array f).data = f := by
          have h := hhome (array f).data
          rw [hy', if_neg hy] at h
          exact h.symm
        rw [if_neg fun h => h.2 hx, if_neg fun h => hy (h.symm.trans hx)]
        obtain ⟨u, hu⟩ := T.cons_of_home hused hyf
        have hsegf := T.seg f
        rw [hu] at hsegf
        refine T.mergeBehind hf hhome (by simp) hseg.1 hseg.2 hsegf.1 hsegf.2 ?_ ?_ ?_
        · rw [hu, hn]
          exact perm_append_comm.trans (perm_middle.cons n)
        · rw [hu, hn, recs_cons, recs_cons, Multiset.cons_add, Multiset.add_cons,
            add_comm (recs u)]
        · rw [length_cons] at hlen
          omega
    · rw [if_pos (Ne.symm hy')]
      have hy : home (array f).data ≠ n := fun h => hy' (by rw [hhome, if_pos h])
      have hyc : home' (array f).data = home (array f).data := by rw [hhome, if_neg hy]
      rw [hyc] at hy' ⊢
      obtain ⟨array', l', hrun, T', hrecs, hcell⟩ := T.relocate hused rfl hy'
        (update (update array e (array f)) f (array n))
        (by rw [update_of_ne (Ne.symm hfe), update_self])
        (fun i h₁ h₂ => by rw [update_of_ne h₂, update_of_ne h₁])
        (le_refl (n + 1))
      rw [update_self] at hcell
      have hn' : update chains (home (array f).data) l' n = (n, (array n).data) :: t := by
        rw [update_of_ne hy.symm, hn]
      have hcell' : array' f = array' n := by
        have hseg := T.seg n
        have hseg' := T'.seg n
        rw [hn] at hseg
        rw [hn'] at hseg'
        exact hcell.trans (hseg.1.trans hseg'.1.symm)
      obtain ⟨chains', T'', htotal⟩ := T'.moveHead array' hf hhome hn' hcell' fun _ _ => rfl
      exact ⟨array', chains', hrun, T'', htotal.trans (total_update_eq (T.home_lt hused) hrecs)⟩

section MoveLast

variable {κ : Type*} {ops : KeyOps κ} {key : ρ → κ} {oldBlength blength : ℕ}

theorem moveLast_spec (T : Table (homeAt ops key oldBlength (n + 1)) (n + 1) (some e) array chains)
    (hhome : n ≠ 0 → f < n ∧ ∀ d, homeAt ops key blength n d =
      if homeAt ops key oldBlength (n + 1) d = n then f else homeAt ops key oldBlength (n + 1) d) :
    ∃ array' chains', moveLast ops key array oldBlength blength n e = some array' ∧
      Table (homeAt ops key blength n) n none array' chains' ∧
      total n chains' = total (n + 1) chains := by
  have hby : moveLast ops key array oldBlength blength n e =
      moveLastBy (homeAt ops key oldBlength (n + 1)) (homeAt ops key blength n) array n e := rfl
  by_cases hen : e = n
  · subst hen
    obtain ⟨T', htotal⟩ := T.shrink fun hn d hd => ((hhome hn).2 d).trans (if_neg hd)
    exact ⟨array, chains, if_pos rfl, T', htotal⟩
  · have he := T.free_lt e rfl
    obtain ⟨hf, hhome⟩ := hhome (by omega)
    by_cases hx : homeAt ops key oldBlength (n + 1) (array n).data = n
    · exact T.moveLastBy_head hen hf hhome hx
    · exact T.moveLastBy_foreign hen hhome hx

end MoveLast

end Table

end MySQL.Mysys
