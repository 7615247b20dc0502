import MySQL.Innobase.Page.Insert

/-!
# Deletes keep the page valid
-/

namespace MySQL.Innobase

open Lib List Function Cluster

namespace Page

variable {α : Type*} {p p' : Page α} {r o c prev : RecPtr} {g g₁ g₂ : List (Cluster RecPtr)}
  {G G' G₀ : Cluster RecPtr} {i j l recs F : List RecPtr} {seq : List α} {slotNo n k : ℕ}

/-! ## Balancing -/

theorem Dir.balance (h : p.Dir (G₀ :: g₁ ++ [G'] ++ g₂)) (hsize : G'.size + 1 = G.size)
    (hsized : Cluster.Sized pageDirSlotMinNOwned pageDirSlotMaxNOwned (g₁ ++ G :: g₂)) :
    ∃ s f g, (if G.size ≤ pageDirSlotMinNOwned then p.dirBalanceSlot (g₁.length + 1) else p) =
        p.withDir s f ∧ (p.withDir s f).Dir (G₀ :: g) ∧
      flat g = flat (g₁ ++ [G'] ++ g₂) ∧
      Cluster.Sized pageDirSlotMinNOwned pageDirSlotMaxNOwned g := by
  obtain ⟨hleft, hhi, hright⟩ := sized_middle.mp hsized
  by_cases hsmall : G.size ≤ pageDirSlotMinNOwned
  · rw [if_pos hsmall]
    cases g₂ with
    | nil =>
      have hslots : p.slots = (G₀ :: g₁).map owner ++ [G'.owner] := by simp [h.slots_eq]
      have hlast := dirBalanceSlot_last hslots
      rw [length_map] at hlast
      refine ⟨p.slots, p.nOwned, g₁ ++ [G'], hlast, by simpa using h, by simp, ?_⟩
      exact hsized.set (absurd rfl) (by omega)
    | cons U g₂ =>
      obtain ⟨hlo, hupper⟩ := hright (cons_ne_nil U g₂)
      obtain ⟨i, o⟩ := G'
      obtain ⟨j, o'⟩ := U
      have hpair : p.Dir (G₀ :: g₁ ++ [⟨i, o⟩, ⟨j, o'⟩] ++ g₂) := by simpa using h
      have hfour : i.length + 2 = pageDirSlotMinNOwned := by
        simp only [size] at hsize hlo hsmall
        omega
      obtain ⟨hupper', hrest⟩ := sized_cons_iff.mp hupper
      simp only [size, pageDirSlotMinNOwned, pageDirSlotMaxNOwned] at hupper' hfour
      by_cases hup : pageDirSlotMinNOwned < j.length + 1
      · obtain ⟨x, j, rfl⟩ : ∃ x j', j = x :: j' := by
          refine exists_cons_of_ne_nil ?_
          rintro rfl
          exact absurd hup (by decide)
        obtain ⟨s, f, heq, hdir⟩ := hpair.dirBalanceSlot_borrow (Nat.le_of_lt_succ hup)
        refine ⟨s, f, g₁ ++ [⟨i ++ [o], x⟩, ⟨j, o'⟩] ++ g₂, heq, by simpa using hdir,
          by simp [toList], ?_⟩
        simp only [append_assoc, cons_append, nil_append]
        simp only [length_cons, pageDirSlotMinNOwned] at hup hupper'
        refine sized_middle.mpr ⟨hleft, ?_, fun _ => ⟨?_, sized_cons_iff.mpr ⟨?_,
          fun hne => ⟨?_, (hrest hne).2⟩⟩⟩⟩ <;>
        · simp [size, pageDirSlotMinNOwned, pageDirSlotMaxNOwned]
          omega
      · obtain ⟨s, f, heq, hdir⟩ := hpair.dirBalanceSlot_merge (Nat.not_lt.mp hup)
        refine ⟨s, f, g₁ ++ [⟨i ++ o :: j, o'⟩] ++ g₂, heq, by simpa using hdir,
          by simp [toList], ?_⟩
        simp only [append_assoc, cons_append, nil_append]
        simp only [pageDirSlotMinNOwned] at hup
        refine sized_middle.mpr ⟨hleft, ?_, fun hne => ⟨?_, (hrest hne).2⟩⟩ <;>
        · simp [size, pageDirSlotMinNOwned, pageDirSlotMaxNOwned]
          omega
  · rw [if_neg hsmall]
    refine ⟨p.slots, p.nOwned, g₁ ++ [G'] ++ g₂, rfl, by simpa using h, rfl, ?_⟩
    rw [append_assoc]
    exact hsized.set (fun _ => by omega) (by omega)

/-! ## Unlinking the record -/

/-- The slots after the slot of an owner was moved to `prev`. -/
def slotsWithout (p : Page α) (c prev : RecPtr) (slotNo : ℕ) : List RecPtr :=
  if c = p.slotGetRec slotNo then p.slots.set slotNo prev else p.slots

theorem unlinkRec_eq : p.unlinkRec c prev slotNo n =
    (({ p with lastInsert := 0 }.setNext prev (p.next c)).withDir (p.slotsWithout c prev slotNo)
      (update p.nOwned ((p.slotsWithout c prev slotNo).getD slotNo 0)
        (n - 1))).memFree c := by
  set u := { p with lastInsert := 0 }.setNext prev (p.next c) with hu
  have hslot : (if c = u.slotGetRec slotNo then u.slotSetRec slotNo prev else u) =
      u.withDir (p.slotsWithout c prev slotNo) p.nOwned := by
    have hown : p.nOwned = u.nOwned := nOwned_setNext.symm
    unfold slotsWithout
    rw [hown]
    by_cases hc : c = p.slotGetRec slotNo
    · exact (if_pos hc).trans (if_pos hc ▸ rfl)
    · exact (if_neg hc).trans (if_neg hc ▸ rfl)
  change ((if c = u.slotGetRec slotNo then u.slotSetRec slotNo prev else u).slotSetNOwned slotNo
    (n - 1)).memFree c = _
  rw [hslot, slotSetNOwned, setNOwned_eq]
  rfl

theorem recs_unlinkRec : (p.unlinkRec c prev slotNo n).recs r = { p.recs r with
      nOwned := update p.nOwned ((p.slotsWithout c prev slotNo).getD slotNo 0) (n - 1) r
      next := update (update p.next prev (p.next c)) c p.free r } := by
  rw [unlinkRec_eq]
  refine (recs_setNext _ c p.free r).trans ?_
  simp only [withDir, recs_setNext]
  rfl

theorem next_unlinkRec : (p.unlinkRec c prev slotNo n).next =
    update (update p.next prev (p.next c)) c p.free :=
  funext fun _ => congrArg PageRec.next recs_unlinkRec

theorem nOwned_unlinkRec : (p.unlinkRec c prev slotNo n).nOwned =
    update p.nOwned ((p.slotsWithout c prev slotNo).getD slotNo 0) (n - 1) :=
  funext fun _ => congrArg PageRec.nOwned recs_unlinkRec

theorem slots_unlinkRec : (p.unlinkRec c prev slotNo n).slots = p.slotsWithout c prev slotNo := by
  rw [unlinkRec_eq]
  rfl

theorem Dir.unlink (h : p.Dir (g₁ ++ [⟨i ++ j, o⟩] ++ g₂))
    (hprev : flat g₁ ++ i = l ++ [prev]) (hj : c :: recs = j ++ o :: flat g₂)
    (hne : recs ≠ []) (hi : j = [] → i ≠ []) :
    ∃ G', G'.size = (i ++ j).length ∧
      (p.unlinkRec c prev g₁.length ((i ++ j).length + 1)).Dir (g₁ ++ [G'] ++ g₂) ∧
      flat (g₁ ++ [G'] ++ g₂) = l ++ prev :: recs := by
  obtain ⟨b, t, rfl⟩ := exists_cons_of_ne_nil hne
  have hslots : p.slots = g₁.map owner ++ o :: g₂.map owner := by simp [h.slots_eq]
  have hget : p.slotGetRec g₁.length = o := by simp [slotGetRec, hslots]
  have hold : flat (g₁ ++ [⟨i ++ j, o⟩] ++ g₂) = l ++ prev :: c :: b :: t := by
    rw [flat_cut, hprev, ← hj, append_assoc, singleton_append]
  have howns := h.owns ⟨i ++ j, o⟩ (by simp)
  have hnodup := h.nodup_cluster (G := ⟨i ++ j, o⟩) (by simp)
  cases j with
  | nil =>
    obtain ⟨rfl, hg₂⟩ := List.cons.inj hj
    obtain ⟨i, prev', rfl⟩ : ∃ i' a, i = i' ++ [a] :=
      ⟨_, _, (dropLast_append_getLast (hi rfl)).symm⟩
    obtain ⟨rfl, hprev'⟩ : flat g₁ ++ i = l ∧ [prev'] = [prev] :=
      append_inj' (by simpa using hprev) rfl
    obtain rfl : prev' = prev := singleton_inj.mp hprev'
    have hmoved : p.slotsWithout c prev' g₁.length =
        g₁.map owner ++ prev' :: g₂.map owner := by
      rw [slotsWithout, if_pos hget.symm, hslots]
      simp
    have hnew : flat (g₁ ++ [⟨i, prev'⟩] ++ g₂) =
        (flat g₁ ++ i) ++ prev' :: b :: t := by
      simp [toList, hg₂]
    refine ⟨⟨i, prev'⟩, by simp [size], ?_, hnew⟩
    have hown : (p.slotsWithout c prev' g₁.length).getD g₁.length 0 = prev' := by simp [hmoved]
    refine h.remove hold hnew (by simp [slots_unlinkRec, hmoved]) next_unlinkRec
      (fun r hr => ?_) ?_
    · rw [nOwned_unlinkRec, hown]
      have hrp : r ≠ prev' := by
        rintro rfl
        exact hr (by simp [toList])
      rw [update_of_ne hrp]
    · simp only [forall_mem_singleton, Owns, nOwned_unlinkRec, hown, size,
        toList, update_apply] at howns hnodup ⊢
      grind
  | cons c' j =>
    obtain ⟨rfl, hrest⟩ := List.cons.inj hj
    rw [append_eq] at hrest
    have hco : c ≠ o := by
      simp only [toList] at hnodup
      grind
    have hsame : p.slotsWithout c prev g₁.length = p.slots := by
      rw [slotsWithout, if_neg (hget ▸ hco)]
    have hown : (p.slotsWithout c prev g₁.length).getD g₁.length 0 = o := hsame ▸ hget
    have hnew : flat (g₁ ++ [⟨i ++ j, o⟩] ++ g₂) = l ++ prev :: b :: t := by
      rw [flat_cut, hprev, ← hrest, append_assoc, singleton_append]
    refine ⟨⟨i ++ j, o⟩, by simp [size, Nat.add_assoc], ?_, hnew⟩
    refine h.remove hold hnew (by simp [slots_unlinkRec, hsame, hslots]) next_unlinkRec
      (fun r hr => ?_) ?_
    · rw [nOwned_unlinkRec, hown]
      have hro : r ≠ o := by
        rintro rfl
        exact hr (by simp [toList])
      rw [update_of_ne hro]
    · simp only [forall_mem_singleton, Owns, nOwned_unlinkRec, hown, size,
        toList, update_apply] at howns hnodup ⊢
      grind

theorem sameSizes_unlinkRec : p.SameSizes (p.unlinkRec c prev slotNo n) r := by
  constructor <;> rw [recs_unlinkRec]

theorem content_unlinkRec :
    ((p.unlinkRec c prev slotNo n).recs r).content = (p.recs r).content := by
  rw [recs_unlinkRec]

theorem Heap.unlink {l₁ l₂ : List RecPtr} (h : p.Heap (l₁ ++ c :: l₂) F)
    (hprev : prev ∈ l₁) : (p.unlinkRec c prev slotNo n).Heap (l₁ ++ l₂) (c :: F) := by
  have hnodup := h.nodup
  refine h.release perm_middle ?_ (fun _ => sameSizes_unlinkRec) ?_ ?_ fun r hr => ?_
  · rw [unlinkRec_eq]
    exact ⟨rfl, rfl, rfl⟩
  · rfl
  · rw [next_unlinkRec, update_self]
  · have hrc : r ≠ c := by grind
    have hrp : r ≠ prev := by grind
    rw [next_unlinkRec, update_of_ne hrc, update_of_ne hrp]

theorem Dir.findPrev_eq {x : RecPtr} {fuel : ℕ} (h : p.Dir (g₁ ++ [G₀] ++ [⟨i ++ j, o⟩] ++ g₂))
    (hprev : flat (g₁ ++ [G₀]) ++ i = l ++ [prev])
    (hj : c :: recs = j ++ o :: flat g₂) (hfuel : i.length + 1 < fuel) :
    p.findPrev c x (p.slotGetRec g₁.length) fuel = some prev := by
  have hget : p.slotGetRec g₁.length = G₀.owner := by
    simp [slotGetRec, h.slots_eq]
  have hall : flat (g₁ ++ [G₀] ++ [⟨i ++ j, o⟩] ++ g₂) =
      (flat g₁ ++ G₀.init) ++ G₀.owner :: (i ++ [c]) ++ recs := by
    rw [flat_cut, ← hj]
    simp [toList]
  have hnodup := Dir.nodup_part _ _ _ h hall
  rw [hget]
  refine Page.findPrev_eq (Dir.links_part _ _ _ h hall) ?_ ?_ hfuel
  · grind
  · have hlast : (flat g₁ ++ G₀.init) ++ G₀.owner :: i = l ++ [prev] := by
      rw [← hprev]
      simp [toList]
    have hsome := congrArg List.getLast? hlast
    rw [List.getLast?_append_of_ne_nil _ (cons_ne_nil _ _), List.getLast?_concat] at hsome
    exact Option.some.inj hsome

theorem Valid.curDeleteRec (h : p.Valid recs g F seq) (hk : k < recs.length) :
    ∃ r p' g' F', p.curDeleteRec (p.nth (k + 1)) = .ok (r, p') ∧ p'.comp = p.comp ∧
      p'.Valid (recs.eraseIdx k) g' F' (seq.eraseIdx k) := by
  obtain ⟨l₁, c, l₂, rfl, rfl⟩ : ∃ l₁ c l₂, recs = l₁ ++ c :: l₂ ∧ k = l₁.length :=
    ⟨recs.take k, recs[k], recs.drop (k + 1), by simp, by simp [hk.le]⟩
  obtain ⟨l, prev, hprev⟩ : ∃ l prev, p.infimum :: l₁ = l ++ [prev] :=
    ⟨_, _, (dropLast_append_getLast (cons_ne_nil p.infimum l₁)).symm⟩
  have hnth : p.nth (l₁.length + 1) = c := h.nth_eq (l := p.infimum :: l₁) rfl
  obtain ⟨g₁, i, j, o, g₂, rfl, hl₁, hj⟩ : ∃ g₁ i j o g₂, g = g₁ ++ ⟨i ++ j, o⟩ :: g₂ ∧
      l₁ = flat g₁ ++ i ∧ c :: (l₂ ++ [p.supremum]) = j ++ o :: flat g₂ := by
    refine exists_cut ?_ (cons_ne_nil _ _)
    rw [h.flat_eq, append_assoc, cons_append]
  obtain ⟨g₀, G₀, hG₀⟩ : ∃ g₀ G₀, ⟨[], p.infimum⟩ :: g₁ = g₀ ++ [G₀] :=
    ⟨_, _, (dropLast_append_getLast (cons_ne_nil _ g₁)).symm⟩
  have hlen : g₁.length = g₀.length := by simpa using congrArg List.length hG₀
  obtain ⟨-, hhi, hright⟩ := sized_middle.mp h.sized
  have hdir : p.Dir (⟨[], p.infimum⟩ :: g₁ ++ [⟨i ++ j, o⟩] ++ g₂) := by simpa using h.dir
  have hprev' : flat (⟨[], p.infimum⟩ :: g₁) ++ i = l ++ [prev] := by
    rw [← hprev, hl₁]
    rfl
  have hfits : i.length + j.length + 1 < univPageSize - 1 := by
    simp only [size, length_append, pageDirSlotMaxNOwned, univPageSize] at hhi ⊢
    omega
  have hwhole : p.Dir (⟨[], p.infimum⟩ :: g₁ ++ ⟨i ++ j, o⟩ :: g₂) := by simpa using hdir
  have hslot : p.dirFindOwnerSlot c = some (g₁.length + 1) := by
    obtain ⟨t, ht⟩ : ∃ t, c :: t = j ++ [o] := by
      cases j with
      | nil => exact ⟨[], by rw [(List.cons.inj hj).1, nil_append]⟩
      | cons c' j => exact ⟨j ++ [o], by rw [(List.cons.inj hj).1, cons_append]⟩
    exact hwhole.dirFindOwnerSlot_eq ht (by omega)
  have hn : p.slotGetNOwned (g₁.length + 1) = (i ++ j).length + 1 := by
    have hget : p.slotGetRec (g₁.length + 1) = o := hwhole.slotGetRec_eq rfl
    rw [slotGetNOwned, hget]
    exact (hwhole.owns ⟨i ++ j, o⟩ (by simp)).1
  have hfind : p.findPrev c 0 (p.slotGetRec g₁.length) univPageSize = some prev := by
    rw [hG₀] at hdir hprev'
    rw [hlen]
    exact hdir.findPrev_eq hprev' hj (by omega)
  -- An owner that is a user record has other records in its cluster.
  have hinit : j = [] → i ≠ [] := by
    rintro rfl rfl
    have hg₂ : g₂ ≠ [] := by
      rintro rfl
      simp at hj
    exact absurd (hright hg₂).1 (by simp [size, pageDirSlotMinNOwned])
  obtain ⟨G', hsize, hunlinked, hflat⟩ := hdir.unlink hprev' hj (by simp) hinit
  rw [length_cons] at hunlinked
  set u := p.unlinkRec c prev (g₁.length + 1) ((i ++ j).length + 1) with hu
  have hcomp : u.comp = p.comp := by
    rw [hu, unlinkRec_eq]
    rfl
  obtain ⟨s, f, g', heq, hdir', hflat', hsized⟩ :=
    hunlinked.balance (congrArg (· + 1) hsize) h.sized
  refine ⟨p.next c, u.withDir s f, g', c :: F, ?_, hcomp, ?_⟩
  · unfold Page.curDeleteRec
    rw [hnth, hslot]
    simp only [hn, Nat.add_sub_cancel, hfind, ← hu]
    rw [← heq]
    rfl
  · have hinf : (u.withDir s f).infimum = p.infimum := congrArg pageInfimum hcomp
    have hsup : (u.withDir s f).supremum = p.supremum := congrArg pageSupremum hcomp
    have herase : (l₁ ++ c :: l₂).eraseIdx l₁.length = l₁ ++ l₂ := by
      simp [eraseIdx_append_of_length_le]
    refine ⟨hinf ▸ hdir', ?_, hsized, ?_, ?_, ?_⟩
    · have hall : p.infimum :: flat (g₁ ++ [G'] ++ g₂) =
          p.infimum :: (l₁ ++ l₂ ++ [p.supremum]) := by
        calc p.infimum :: flat (g₁ ++ [G'] ++ g₂)
            = l ++ prev :: (l₂ ++ [p.supremum]) := hflat
          _ = (l ++ [prev]) ++ (l₂ ++ [p.supremum]) := by simp
          _ = p.infimum :: (l₁ ++ l₂ ++ [p.supremum]) := by simp [← hprev]
      rw [hflat', herase, hsup, (List.cons.inj hall).2]
    · rw [hinf, hsup, herase]
      have hmem : prev ∈ p.infimum :: l₁ := by simp [hprev]
      have hheap : p.Heap ((p.infimum :: l₁) ++ c :: (l₂ ++ [p.supremum])) F := by
        simpa using h.heap
      refine Heap.withDir ?_ s f
      simpa using hheap.unlink hmem
    · have hn' : u.nRecs = p.nRecs - 1 := by
        rw [hu, unlinkRec_eq]
        rfl
      rw [herase]
      exact hn'.trans (by simp [h.nRecs_eq, ← Nat.add_assoc])
    · have hall : (l₁ ++ c :: l₂).map (fun r => (u.recs r).content) = seq.map some := by
        rw [← h.contents]
        exact map_congr_left fun r _ => content_unlinkRec
      rw [← eraseIdx_map, ← eraseIdx_map, ← hall]
      rfl

end Page

end MySQL.Innobase
