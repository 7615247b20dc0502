import MySQL.Innobase.Page.Delete

/-!
# The directory after any inserts and deletes
-/

namespace MySQL.Innobase

open Lib List Cluster

namespace Page

variable {α : Type*} {p p' : Page α} {g : List (Cluster RecPtr)} {recs F : List RecPtr}
  {seq : List α} {k : ℕ}

/-- What is required of the directory of a page with the user records `recs`. -/
structure Directory (p : Page α) (recs : List RecPtr) : Prop where
  first : p.slotGetRec 0 = p.infimum ∧ p.slotGetNOwned 0 = 1
  last : p.slotGetRec (p.slots.length - 1) = p.supremum ∧
    1 ≤ p.slotGetNOwned (p.slots.length - 1) ∧ p.slotGetNOwned (p.slots.length - 1) ≤ 8
  middle : ∀ k, 0 < k → k + 1 < p.slots.length → 4 ≤ p.slotGetNOwned k ∧ p.slotGetNOwned k ≤ 8
  apart : ∀ k, k + 1 < p.slots.length →
    p.next^[p.slotGetNOwned (k + 1)] (p.slotGetRec k) = p.slotGetRec (k + 1)
  notOwner : ∀ r ∈ p.infimum :: (recs ++ [p.supremum]), r ∉ p.slots → p.nOwned r = 0

theorem Dir.slotGetNOwned_eq {g₁ g₂ : List (Cluster RecPtr)} {G : Cluster RecPtr}
    (h : p.Dir (g₁ ++ G :: g₂)) (hk : k = g₁.length) : p.slotGetNOwned k = G.size := by
  rw [slotGetNOwned, h.slotGetRec_eq hk]
  exact (h.owns G (by simp)).1

theorem Valid.length_slots (h : p.Valid recs g F seq) : p.slots.length = g.length + 1 := by
  simp [h.dir.slots_eq]

theorem Valid.exists_last (h : p.Valid recs g F seq) : ∃ g' i, g = g' ++ [⟨i, p.supremum⟩] := by
  have hg : g = g.dropLast ++ [g.getLast h.sized.ne_nil] :=
    (dropLast_append_getLast h.sized.ne_nil).symm
  generalize g.dropLast = g', g.getLast h.sized.ne_nil = G at hg
  obtain ⟨i, o⟩ := G
  have hflat := h.flat_eq
  rw [hg, flat_append, flat_cons, flat_nil, append_nil, toList,
    ← append_assoc] at hflat
  obtain rfl : o = p.supremum := singleton_inj.mp (append_inj' hflat rfl).2
  exact ⟨g', i, hg⟩

theorem exists_cluster (hk : k < g.length) : ∃ g₁ G g₂, g = g₁ ++ G :: g₂ ∧ k = g₁.length :=
  ⟨g.take k, g[k], g.drop (k + 1), by simp, by simp [hk.le]⟩

theorem Valid.middle (h : p.Valid recs g F seq) (hpos : 0 < k) (hk : k + 1 < p.slots.length) :
    4 ≤ p.slotGetNOwned k ∧ p.slotGetNOwned k ≤ 8 := by
  rw [h.length_slots] at hk
  obtain ⟨k, rfl⟩ := Nat.exists_eq_add_one_of_ne_zero hpos.ne'
  obtain ⟨g₁, G, g₂, rfl, rfl⟩ := exists_cluster (g := g) (k := k) (by omega)
  have hg₂ : g₂ ≠ [] := by
    rintro rfl
    simp at hk
  obtain ⟨-, hhi, hlo⟩ := sized_middle.mp h.sized
  have hdir : p.Dir ((⟨[], p.infimum⟩ :: g₁) ++ G :: g₂) := h.dir
  have hsize : p.slotGetNOwned (g₁.length + 1) = G.size := hdir.slotGetNOwned_eq rfl
  rw [hsize]
  exact ⟨(hlo hg₂).1, hhi⟩

theorem Dir.apart (h : p.Dir g) (hk : k + 1 < p.slots.length) :
    p.next^[p.slotGetNOwned (k + 1)] (p.slotGetRec k) = p.slotGetRec (k + 1) := by
  have hlen : p.slots.length = g.length := by simp [h.slots_eq]
  obtain ⟨g₁, G', g₂, rfl, hg₁⟩ := exists_cluster (hlen ▸ hk)
  obtain ⟨g₀, G, rfl⟩ : ∃ g₀ G, g₁ = g₀ ++ [G] := by
    refine ⟨_, _, (dropLast_append_getLast ?_).symm⟩
    rintro rfl
    exact absurd hg₁ (Nat.succ_ne_zero k)
  have hk₀ : k = g₀.length := by simpa using hg₁
  have h' : p.Dir (g₀ ++ G :: G' :: g₂) := by simpa using h
  rw [h.slotGetNOwned_eq hg₁, h.slotGetRec_eq hg₁, h'.slotGetRec_eq hk₀]
  refine Links.iterate (Dir.links_part (flat g₀ ++ G.init) _ (flat g₂) h ?_)
  simp [toList]

theorem Valid.directory (h : p.Valid recs g F seq) : p.Directory recs := by
  have hhead : p.Dir ([] ++ ⟨[], p.infimum⟩ :: g) := h.dir
  refine ⟨⟨hhead.slotGetRec_eq rfl, hhead.slotGetNOwned_eq rfl⟩, ?_, fun k => h.middle,
    fun k => h.dir.apart, fun r hr hslot => ?_⟩
  · obtain ⟨g', i, rfl⟩ := h.exists_last
    have hlast : p.Dir ((⟨[], p.infimum⟩ :: g') ++ ⟨i, p.supremum⟩ :: []) := h.dir
    have hk : p.slots.length - 1 = (⟨[], p.infimum⟩ :: g' : List (Cluster RecPtr)).length := by
      simp [h.length_slots]
    rw [hlast.slotGetRec_eq hk, hlast.slotGetNOwned_eq hk]
    exact ⟨rfl, Nat.succ_pos _, (sized_middle.mp h.sized).2.1⟩
  · rw [← h.flat_all] at hr
    obtain ⟨G, hG, hr⟩ := mem_flat.mp hr
    rcases mem_toList.mp hr with hr | rfl
    · exact (h.dir.owns G hG).2 r hr
    · refine absurd ?_ hslot
      rw [h.dir.slots_eq]
      exact List.mem_map_of_mem hG

/-! ## Runs -/

/-- The user records of the page have the contents `seq`. -/
def Represents (p : Page α) (seq : List α) : Prop := ∃ recs g F, p.Valid recs g F seq

theorem create_heap (comp : Bool) :
    (create comp : Page α).Heap [pageInfimum comp, pageSupremum comp] [] := by
  have hroom : pageSupremumEnd comp + dirCalcReservedSpace 0 + pageDir + 2 * pageDirSlotSize ≤
      univPageSize := by cases comp <;> decide
  refine ⟨by cases comp <;> decide, ?_, ?_, ?_, rfl, links_singleton _ 0, le_rfl, le_rfl, hroom⟩
  · cases comp <;> simp [create, pageInfimum, pageSupremum, pageData, recNExtraBytes]
  · cases comp <;>
      simp [create, pageInfimum, pageSupremum, pageData, recNExtraBytes, pageSupremumEnd]
  · have hset : {r | r ∈ [pageInfimum comp, pageSupremum comp] ++ []} =
        insert (pageInfimum comp) {pageSupremum comp} := by
      ext r
      simp
    rw [hset]
    refine Set.PairwiseDisjoint.insert (Set.pairwiseDisjoint_singleton ..) ?_
    rintro r rfl -
    rw [extent, extent, Set.disjoint_iff]
    rintro x ⟨hx, hx'⟩
    cases comp <;>
      simp [create, pageInfimum, pageSupremum, pageData, recNExtraBytes] at hx hx' <;> omega

theorem create_represents (comp : Bool) : (create comp : Page α).Represents [] := by
  have hne : pageInfimum comp ≠ pageSupremum comp := by cases comp <;> decide
  have hinf : (create comp : Page α).recs (pageInfimum comp) =
      ⟨pageInfimum comp - pageData, 8, 1, 0, pageSupremum comp, none⟩ := if_pos rfl
  have hsup : (create comp : Page α).nOwned (pageSupremum comp) = 1 := by
    simp [create, nOwned, hne.symm]
  have hdir : (create comp : Page α).Dir [⟨[], pageInfimum comp⟩, ⟨[], pageSupremum comp⟩] := by
    refine ⟨rfl, ?_, by simpa [toList] using hne, ?_⟩
    · exact links_cons_cons.mpr ⟨congrArg PageRec.next hinf, links_singleton _ _⟩
    · simp only [forall_mem_cons, Owns, size, hsup]
      simp [nOwned, hinf]
  exact ⟨[], [⟨[], pageSupremum comp⟩], [], hdir, rfl,
    by simp [size, pageDirSlotMaxNOwned], create_heap comp, rfl, rfl⟩

theorem Represents.step {act : PageAct α} (h : p.Represents seq) (hstep : p.step act = some p') :
    p'.Represents (act.expected seq) := by
  obtain ⟨recs, g, F, hvalid⟩ := h
  cases act with
  | insert i extraSize dataSize content =>
    simp only [Page.step] at hstep
    split at hstep
    case isFalse => exact absurd hstep.symm (Option.some_ne_none _)
    case isTrue hi =>
      have hpos : 0 < extraSize := lt_of_lt_of_le (by cases p.comp <;> decide) hi.2
      rcases hvalid.curInsertRecLow dataSize content (hvalid.nRecs_eq ▸ hi.1) hpos with
        herr | ⟨c, p₁, g', F', hok, -, hvalid'⟩
      · simp [herr] at hstep
      · simp only [hok, Option.some.injEq] at hstep
        exact hstep ▸ ⟨_, g', F', hvalid'⟩
  | delete i =>
    simp only [Page.step] at hstep
    split at hstep
    case isFalse => exact absurd hstep.symm (Option.some_ne_none _)
    case isTrue hi =>
      obtain ⟨r, p₁, g', F', hok, -, hvalid'⟩ := hvalid.curDeleteRec (hvalid.nRecs_eq ▸ hi)
      simp only [hok, Option.some.injEq] at hstep
      exact hstep ▸ ⟨_, g', F', hvalid'⟩

theorem Represents.run {comp : Bool} {acts : List (PageAct α)} (h : p.Represents seq)
    (hrun : (pageSys α comp).run p acts = some p') :
    p'.Represents (acts.foldl PageAct.expected seq) := by
  induction acts generalizing p seq with
  | nil =>
    cases hrun
    exact h
  | cons act acts ih =>
    obtain ⟨q, hstep, hrest⟩ := Option.bind_eq_some_iff.mp hrun
    exact ih (h.step hstep) hrest

/-- Inserts and deletes at any places of a page that was created empty leave a page whose list
has the expected sequence and whose directory belongs to the list.  From there on a delete of
a user record is carried out, and an insert fails only for want of space. -/
theorem directory_of_run {comp : Bool} {acts : List (PageAct α)}
    (h : (pageSys α comp).run (create comp) acts = some p) :
    (∃ recs : List RecPtr, Links p.next (p.infimum :: (recs ++ [p.supremum])) ∧
      (p.infimum :: (recs ++ [p.supremum])).Nodup ∧ p.Directory recs ∧ p.nRecs = recs.length ∧
      recs.map (fun r => (p.recs r).content) = (acts.foldl PageAct.expected []).map some) ∧
    (∀ i < p.nRecs, ∃ r p', p.curDeleteRec (p.nth (i + 1)) = .ok (r, p')) ∧
    ∀ i ≤ p.nRecs, ∀ extraSize dataSize content, recNExtraBytes p.comp ≤ extraSize →
      p.curInsertRecLow (p.nth i) extraSize dataSize content ≠ .error .corrupted := by
  obtain ⟨recs, g, F, hvalid⟩ := (create_represents comp).run h
  refine ⟨⟨recs, hvalid.links, hvalid.heap.nodup.of_append_left, hvalid.directory,
    hvalid.nRecs_eq, hvalid.contents⟩, fun i hi => ?_, ?_⟩
  · obtain ⟨r, p', -, -, hok, -⟩ := hvalid.curDeleteRec (hvalid.nRecs_eq ▸ hi)
    exact ⟨r, p', hok⟩
  · intro i hi extraSize dataSize content hextra
    have hpos : 0 < extraSize := lt_of_lt_of_le (by cases p.comp <;> decide) hextra
    rcases hvalid.curInsertRecLow dataSize content (hvalid.nRecs_eq ▸ hi) hpos with
      herr | ⟨c, p', -, -, hok, -⟩
    · simp [herr]
    · simp [hok]

/-- Eight inserts, the last of which splits the slot of the supremum, deletes after which the
two slots borrow and merge, and an insert into freed space. -/
def splitAndMerge : List (PageAct ℕ) :=
  (List.range 8).map (fun i => .insert 0 5 (10 + i) i) ++
    [.delete 0, .delete 5, .delete 3, .insert 2 5 4 77]

theorem directory_of_run_splitAndMerge :
    ∃ p, (pageSys ℕ true).run (create true) splitAndMerge = some p ∧
      p.slots.map p.nOwned = [1, 7] ∧ ∃ recs, p.Directory recs ∧
        recs.map (fun r => (p.recs r).content) = [6, 5, 77, 4, 2, 0].map some := by
  have hany : ((pageSys ℕ true).run (create true) splitAndMerge).any
      (fun p => p.slots.map p.nOwned = [1, 7]) = true := by decide +kernel
  obtain ⟨p, hp, hslots⟩ := (Option.any_eq_true ..).mp hany
  obtain ⟨⟨recs, -, -, hdir, -, hcontents⟩, -⟩ := directory_of_run hp
  exact ⟨p, hp, of_decide_eq_true hslots, recs, hdir, hcontents⟩

/-! ## Memory -/

theorem mul_length_lt {lo hi : ℕ} (h : Sized lo hi g) : lo * g.length < (flat g).length + lo := by
  induction g with
  | nil => exact h.elim
  | cons G g ih =>
    obtain ⟨-, hrest⟩ := sized_cons_iff.mp h
    rw [flat_cons, length_append, length_toList, length_cons, Nat.mul_succ]
    by_cases hg : g = []
    · simp [hg, size]
    · have hlt := ih (hrest hg).2
      have hle := (hrest hg).1
      omega

theorem Valid.dir_fits (h : p.Valid recs g F seq) :
    p.heapTop + pageDirSlotSize * p.slots.length + pageDir ≤ univPageSize := by
  have hlen := mul_length_lt h.sized
  have hcount := h.heap.count
  have hroom := h.heap.room
  simp only [h.flat_eq, length_append, length_cons, length_nil, pageDirSlotMinNOwned] at hlen hcount
  simp only [h.length_slots, dirCalcReservedSpace, pageDirSlotSize, pageDirSlotMinNOwned,
    pageDir] at hroom ⊢
  omega

/-- After any inserts and deletes no two records, freed ones included, share a byte, all of them
are below the top of the heap, and the directory is above it. -/
theorem memory_of_run {comp : Bool} {acts : List (PageAct α)}
    (h : (pageSys α comp).run (create comp) acts = some p) :
    ∃ recs F : List RecPtr, Links p.next (p.infimum :: (recs ++ [p.supremum])) ∧
      p.free = F.headD 0 ∧ Links p.next (F ++ [0]) ∧
      (∀ r ∈ p.infimum :: (recs ++ [p.supremum]) ++ F, r + (p.recs r).dataSize ≤ p.heapTop) ∧
      (p.infimum :: (recs ++ [p.supremum]) ++ F).Pairwise
        (fun r s => Disjoint (p.extent r) (p.extent s)) ∧
      p.heapTop + pageDirSlotSize * p.slots.length + pageDir ≤ univPageSize := by
  obtain ⟨recs, g, F, hvalid⟩ := (create_represents comp).run h
  have hheap := hvalid.heap
  refine ⟨recs, F, hvalid.links, hheap.free_eq, hheap.links, hheap.below, ?_, hvalid.dir_fits⟩
  exact hheap.nodup.pairwise_of_forall_ne fun r hr s hs hne => hheap.apart hr hs hne

theorem memory_of_run_splitAndMerge :
    ∃ p, (pageSys ℕ true).run (create true) splitAndMerge = some p ∧
      p.heapTop + pageDirSlotSize * p.slots.length + pageDir ≤ univPageSize := by
  obtain ⟨p, hp⟩ := Option.isSome_iff_exists.mp
    (show ((pageSys ℕ true).run (create true) splitAndMerge).isSome = true by decide +kernel)
  obtain ⟨recs, F, -, -, -, -, -, hfits⟩ := memory_of_run hp
  exact ⟨p, hp, hfits⟩

end Page

end MySQL.Innobase
