import MySQL.Lib.Clusters
import MySQL.Lib.Links
import MySQL.Innobase.Page.Cursor

/-!
# The page directory

The directory cuts the list of records into clusters: a slot points to the last record of its
cluster, and only this record has an `n_owned` other than zero, the size of the cluster.
-/

namespace MySQL.Innobase

open Lib List Function Cluster

namespace Page

variable {α : Type*} {p p' : Page α} {r o n c : RecPtr} {g g₁ g₂ : List (Cluster RecPtr)}
  {G : Cluster RecPtr} {i j l : List RecPtr} {k fuel : ℕ}

/-! ## Writing to a page -/

def withDir (p : Page α) (slots : List RecPtr) (nOwned : RecPtr → ℕ) : Page α :=
  { p with slots := slots, recs := fun r => { p.recs r with nOwned := nOwned r } }

section WithDir

variable {s s' : List RecPtr} {f f' : RecPtr → ℕ}

@[simp] theorem slots_withDir : (p.withDir s f).slots = s := rfl

@[simp] theorem next_withDir : (p.withDir s f).next = p.next := rfl

@[simp] theorem nOwned_withDir : (p.withDir s f).nOwned = f := rfl

@[simp] theorem withDir_withDir : (p.withDir s f).withDir s' f' = p.withDir s' f' := rfl

@[simp] theorem withDir_self : p.withDir p.slots p.nOwned = p := rfl

@[simp] theorem slotGetRec_withDir : (p.withDir s f).slotGetRec k = s.getD k 0 := rfl

@[simp] theorem slotSetRec_withDir : (p.withDir s f).slotSetRec k r = p.withDir (s.set k r) f := rfl

theorem setNOwned_eq : p.setNOwned r k = p.withDir p.slots (update p.nOwned r k) := by
  have hrecs : (p.setNOwned r k).recs =
      (p.withDir p.slots (update p.nOwned r k)).recs := by
    funext x
    by_cases hx : x = r
    · subst hx
      simp [setNOwned, setRec, withDir]
    · simp [setNOwned, setRec, withDir, hx, nOwned]
  exact congrArg (fun recs => { p with recs := recs }) hrecs

end WithDir

@[simp] theorem nOwned_setNext : (p.setNext r n).nOwned = p.nOwned := by
  funext x
  by_cases hx : x = r <;> simp [nOwned, setNext, setRec, hx]

@[simp] theorem slots_setNext : (p.setNext r n).slots = p.slots := rfl

/-! ## The clusters of the directory -/

def Owns (p : Page α) (G : Cluster RecPtr) : Prop :=
  p.nOwned G.owner = G.size ∧ ∀ r ∈ G.init, p.nOwned r = 0

theorem Owns.congr (h : p.Owns G) (heq : ∀ r ∈ G.toList, p'.nOwned r = p.nOwned r) : p'.Owns G := by
  refine ⟨(heq _ G.owner_mem).trans h.1, fun r hr => ?_⟩
  exact (heq r (mem_toList.mpr (.inl hr))).trans (h.2 r hr)

structure Dir (p : Page α) (g : List (Cluster RecPtr)) : Prop where
  slots_eq : p.slots = g.map owner
  links : Links p.next (flat g)
  nodup : (flat g).Nodup
  owns : ∀ G ∈ g, p.Owns G

theorem Dir.slotGetRec_eq (h : p.Dir (g₁ ++ G :: g₂)) (hk : k = g₁.length) :
    p.slotGetRec k = G.owner := by
  subst hk
  rw [slotGetRec, h.slots_eq, map_append]
  simp

theorem findOwnerRec_eq (hlist : r :: l = i ++ [o]) (hlinks : Links p.next (r :: l))
    (hi : ∀ x ∈ i, p.nOwned x = 0) (ho : p.nOwned o ≠ 0) (hfuel : i.length < fuel) :
    p.findOwnerRec r fuel = some o := by
  induction i generalizing r l fuel with
  | nil =>
    obtain ⟨rfl, -⟩ := List.cons.inj hlist
    cases fuel with
    | zero => exact absurd hfuel (Nat.not_lt_zero _)
    | succ fuel => rw [findOwnerRec, if_neg ho]
  | cons x i ih =>
    obtain ⟨rfl, rfl⟩ := List.cons.inj hlist
    cases fuel with
    | zero => exact absurd hfuel (Nat.not_lt_zero _)
    | succ fuel =>
      rw [findOwnerRec, if_pos (hi r mem_cons_self)]
      obtain ⟨y, t, ht⟩ := exists_cons_of_ne_nil
        (append_ne_nil_of_right_ne_nil i (cons_ne_nil o []))
      rw [append_eq, ht] at hlinks
      obtain ⟨hnext, hlinks⟩ := links_cons_cons.mp hlinks
      rw [hnext]
      exact ih ht.symm hlinks (fun z hz => hi z (mem_cons_of_mem r hz))
        (Nat.lt_of_succ_lt_succ hfuel)

theorem findSlot_eq {m : ℕ} (hk : p.slotGetRec k = r) (hlt : k < m)
    (hne : ∀ n, k < n → n < m → p.slotGetRec n ≠ r) : p.findSlot r m = some k := by
  induction m with
  | zero => exact absurd hlt (Nat.not_lt_zero _)
  | succ m ih =>
    rw [findSlot]
    rcases Nat.lt_succ_iff_lt_or_eq.mp hlt with hlt | rfl
    · rw [if_neg (hne m hlt (Nat.lt_succ_self m))]
      exact ih hlt fun n hkn hnm => hne n hkn (hnm.trans (Nat.lt_succ_self m))
    · rw [if_pos hk]

theorem Dir.findSlot_eq (h : p.Dir (g₁ ++ G :: g₂)) :
    p.findSlot G.owner p.slots.length = some g₁.length := by
  have hnodup : p.slots.Nodup := h.slots_eq ▸ h.nodup.sublist (owners_sublist _)
  have hlen : g₁.length < p.slots.length := by simp [h.slots_eq]
  refine Page.findSlot_eq (h.slotGetRec_eq rfl) hlen fun n hkn hn heq => hkn.ne ?_
  rw [← h.slotGetRec_eq rfl, slotGetRec, slotGetRec, getD_eq_getElem _ _ hn,
    getD_eq_getElem _ _ hlen] at heq
  exact ((List.Nodup.getElem_inj_iff hnodup).mp heq).symm

theorem Dir.links_part (l₁ l l₂ : List RecPtr) (h : p.Dir g)
    (heq : flat g = l₁ ++ l ++ l₂) : Links p.next l := by
  have hall : Links p.next (l₁ ++ l ++ l₂) := heq ▸ h.links
  exact hall.left_of_append.right_of_append

theorem Dir.nodup_part (l₁ l l₂ : List RecPtr) (h : p.Dir g)
    (heq : flat g = l₁ ++ l ++ l₂) : l.Nodup := by
  have hall : (l₁ ++ l ++ l₂).Nodup := heq ▸ h.nodup
  exact hall.of_append_left.of_append_right

section

variable (h : p.Dir (g₁ ++ ⟨i ++ j, o⟩ :: g₂))

include h

theorem Dir.links_cluster : Links p.next (j ++ [o]) := by
  refine Dir.links_part (flat g₁ ++ i) _ (flat g₂) h ?_
  simp [toList]

theorem Dir.findOwnerRec_eq (hr : r :: l = j ++ [o]) (hfuel : j.length < fuel) :
    p.findOwnerRec r fuel = some o := by
  have howns := h.owns ⟨i ++ j, o⟩ (by simp)
  refine Page.findOwnerRec_eq hr (hr ▸ h.links_cluster) (fun x hx => ?_) ?_ hfuel
  · exact howns.2 x (mem_append_right i hx)
  · rw [howns.1]
    exact Nat.succ_ne_zero _

theorem Dir.dirFindOwnerSlot_eq (hr : r :: l = j ++ [o]) (hsize : j.length < univPageSize) :
    p.dirFindOwnerSlot r = some g₁.length := by
  rw [dirFindOwnerSlot, h.findOwnerRec_eq hr hsize]
  exact h.findSlot_eq

end

/-! ## Changes of some clusters -/

theorem Dir.replace {m m' : List (Cluster RecPtr)} (h : p.Dir (g₁ ++ m ++ g₂))
    (hslots : p'.slots = (g₁ ++ m' ++ g₂).map owner)
    (hlinks : Links p'.next (flat (g₁ ++ m' ++ g₂))) (hnodup : (flat (g₁ ++ m' ++ g₂)).Nodup)
    (hown : ∀ r, r ∉ flat m → r ∉ flat m' → p'.nOwned r = p.nOwned r)
    (howns : ∀ G ∈ m', p'.Owns G) : p'.Dir (g₁ ++ m' ++ g₂) := by
  have hout : ∀ {x : List (Cluster RecPtr)}, (flat (g₁ ++ x ++ g₂)).Nodup →
      ∀ G, G ∈ g₁ ∨ G ∈ g₂ → ∀ r ∈ G.toList, r ∉ flat x := by
    intro x hx G hG r hr hmem
    rw [flat_append, flat_append, nodup_append, nodup_append] at hx
    obtain ⟨⟨-, -, hleft⟩, -, hright⟩ := hx
    rcases hG with hG | hG
    · exact hleft r (mem_flat.mpr ⟨G, hG, hr⟩) r hmem rfl
    · exact hright r (mem_append_right _ hmem) r (mem_flat.mpr ⟨G, hG, hr⟩) rfl
  have hrest : ∀ G, G ∈ g₁ ∨ G ∈ g₂ → p'.Owns G := by
    intro G hG
    have hold : p.Owns G := h.owns G (by
      rw [mem_append, mem_append]
      exact hG.imp_left .inl)
    exact hold.congr fun r hr => hown r (hout h.nodup G hG r hr) (hout hnodup G hG r hr)
  refine ⟨hslots, hlinks, hnodup, fun G hG => ?_⟩
  rw [mem_append, mem_append] at hG
  rcases hG with (hG | hG) | hG
  · exact hrest G (.inl hG)
  · exact howns G hG
  · exact hrest G (.inr hG)

theorem Dir.regroup {m m' : List (Cluster RecPtr)} {s : List RecPtr} {f : RecPtr → ℕ}
    (h : p.Dir (g₁ ++ m ++ g₂)) (hflat : flat m' = flat m) (hslots : s = (g₁ ++ m' ++ g₂).map owner)
    (hown : ∀ r, r ∉ flat m → f r = p.nOwned r)
    (howns : ∀ G ∈ m', f G.owner = G.size ∧ ∀ r ∈ G.init, f r = 0) :
    (p.withDir s f).Dir (g₁ ++ m' ++ g₂) := by
  have hall : flat (g₁ ++ m' ++ g₂) = flat (g₁ ++ m ++ g₂) := by
    rw [flat_append, flat_append, hflat, flat_append, flat_append]
  exact h.replace hslots (hall ▸ h.links) (hall ▸ h.nodup) (fun r hr _ => hown r hr) howns

theorem Dir.nodup_cluster (h : p.Dir g) (hG : G ∈ g) : G.toList.Nodup := by
  obtain ⟨g₁, g₂, rfl⟩ := append_of_mem hG
  have hnodup := h.nodup
  rw [flat_append] at hnodup
  exact hnodup.of_append_right.of_append_left

theorem Dir.owner_notMem_init (h : p.Dir g) (hG : G ∈ g) : G.owner ∉ G.init := by
  have hcluster := h.nodup_cluster hG
  rw [toList, nodup_append] at hcluster
  exact fun hmem => hcluster.2.2 _ hmem _ (mem_singleton_self _) rfl

theorem Dir.insert {cur : RecPtr} (h : p.Dir (g₁ ++ [⟨i ++ j, o⟩] ++ g₂))
    (hcur : flat g₁ ++ i = l ++ [cur])
    (hc : c ∉ flat (g₁ ++ [⟨i ++ j, o⟩] ++ g₂)) (hslots : p'.slots = p.slots)
    (hnext : p'.next = update (update p.next c (p.next cur)) cur c)
    (hown : p'.nOwned = update (update p.nOwned c 0) o (p.nOwned o + 1)) :
    p'.Dir (g₁ ++ [⟨i ++ c :: j, o⟩] ++ g₂) := by
  obtain ⟨b, t, hbt⟩ : ∃ b t, j ++ o :: flat g₂ = b :: t :=
    exists_cons_of_ne_nil (append_ne_nil_of_right_ne_nil j (cons_ne_nil o _))
  have hold : flat (g₁ ++ [⟨i ++ j, o⟩] ++ g₂) = l ++ cur :: b :: t := by
    rw [flat_cut, hcur, hbt, append_assoc, singleton_append]
  have hnew : flat (g₁ ++ [⟨i ++ c :: j, o⟩] ++ g₂) = (l ++ [cur]) ++ c :: b :: t := by
    rw [flat_cut, hcur, cons_append, hbt]
  have howner := h.owner_notMem_init (G := ⟨i ++ j, o⟩) (by simp)
  have howns := h.owns ⟨i ++ j, o⟩ (by simp)
  have hout : c ∉ (⟨i ++ j, o⟩ : Cluster RecPtr).toList := fun hmem =>
    hc (mem_flat.mpr ⟨⟨i ++ j, o⟩, by simp, hmem⟩)
  rw [mem_toList, not_or] at hout
  obtain ⟨hic, hoc⟩ := hout
  have hlinks := h.links
  have hnodup := h.nodup
  rw [hold] at hc hlinks hnodup
  have hcc : c ≠ cur := by
    rintro rfl
    exact hc (mem_append_right l mem_cons_self)
  refine h.replace (by rw [hslots, h.slots_eq]; simp) ?_ ?_ (fun r hr hr' => ?_) ?_
  · rw [hnew, append_assoc]
    refine hlinks.insert hnodup hc (fun x hxa hxc => ?_) ?_ ?_
    · rw [hnext, update_of_ne hxa, update_of_ne hxc]
    · rw [hnext, update_self]
    · rw [hnext, update_of_ne hcc, update_self]
      exact (links_cons_cons.mp (links_split.mp hlinks).2).1
  · rw [hnew, nodup_middle, append_assoc]
    exact nodup_cons.mpr ⟨hc, hnodup⟩
  · have hro : r ≠ o := by
      rintro rfl
      exact hr (by simp [toList])
    have hrc : r ≠ c := by
      rintro rfl
      exact hr' (by simp [toList])
    rw [hown, update_of_ne hro, update_of_ne hrc]
  · rw [forall_mem_singleton]
    refine ⟨?_, fun r hr => ?_⟩
    · rw [hown, update_self, howns.1]
      simp only [size, length_append, length_cons]
      omega
    · rcases mem_cons.mp (perm_middle.mem_iff.mp hr) with rfl | hin
      · rw [hown, update_of_ne hoc, update_self]
      · have hro : r ≠ o := by
          rintro rfl
          exact howner hin
        have hrc : r ≠ c := by
          rintro rfl
          exact hic hin
        rw [hown, update_of_ne hro, update_of_ne hrc]
        exact howns.2 r hin

theorem Dir.remove {m m' : List (Cluster RecPtr)} {l t : List RecPtr} {a b x : RecPtr}
    (h : p.Dir (g₁ ++ m ++ g₂)) (hold : flat (g₁ ++ m ++ g₂) = l ++ a :: c :: b :: t)
    (hnew : flat (g₁ ++ m' ++ g₂) = l ++ a :: b :: t)
    (hslots : p'.slots = (g₁ ++ m' ++ g₂).map owner)
    (hnext : p'.next = update (update p.next a (p.next c)) c x)
    (hown : ∀ r, r ∉ flat m → p'.nOwned r = p.nOwned r)
    (howns : ∀ G ∈ m', p'.Owns G) : p'.Dir (g₁ ++ m' ++ g₂) := by
  have hlinks : Links p.next (l ++ a :: c :: b :: t) := hold ▸ h.links
  have hnodup : (l ++ a :: c :: b :: t).Nodup := hold ▸ h.nodup
  have hac : a ≠ c := by grind
  have hcb : p.next c = b := by
    have htail := (links_split.mp hlinks).2
    exact (links_cons_cons.mp (links_cons_cons.mp htail).2).1
  refine h.replace hslots ?_ ?_ (fun r hr _ => hown r hr) howns
  · rw [hnew]
    refine hlinks.remove hnodup (fun y hya hyc => ?_) ?_
    · rw [hnext, update_of_ne hyc, update_of_ne hya]
    · rw [hnext, update_of_ne hac, update_self, hcb]
  · rw [hnew]
    refine hnodup.sublist (List.Sublist.append_left ?_ l)
    exact (sublist_cons_self c (b :: t)).cons_cons a

theorem findPrev_eq {x prev : RecPtr} (hlinks : Links p.next (r :: (l ++ [c])))
    (hc : c ∉ r :: l) (hprev : (r :: l).getLast (cons_ne_nil r l) = prev)
    (hfuel : l.length + 1 < fuel) : p.findPrev c x r fuel = some prev := by
  induction l generalizing r x fuel with
  | nil =>
    obtain ⟨fuel, rfl⟩ : ∃ k, fuel = k + 2 := Nat.exists_eq_add_of_le' hfuel
    have hrc : p.next r = c := (links_cons_cons.mp hlinks).1
    have hne : c ≠ r := fun heq => hc (heq ▸ mem_cons_self)
    simp [findPrev, hne, hrc, ← hprev]
  | cons y l ih =>
    cases fuel with
    | zero => exact absurd hfuel (Nat.not_lt_zero _)
    | succ fuel =>
      obtain ⟨hry, hlinks⟩ := links_cons_cons.mp hlinks
      have hne : c ≠ r := fun heq => hc (heq ▸ mem_cons_self)
      rw [findPrev, if_neg hne, hry]
      refine ih hlinks (fun hmem => hc (mem_cons_of_mem r hmem)) ?_
        (Nat.lt_of_succ_lt_succ hfuel)
      rwa [getLast_cons (cons_ne_nil y l)] at hprev

/-! ## Splitting and balancing slots -/

section Slots

variable {A B : List RecPtr} {a x m o' : RecPtr}

theorem insertIdx_length_append {β : Type*} (A B : List β) (x : β) :
    (A ++ B).insertIdx A.length x = A ++ x :: B := by
  induction A with
  | nil => simp
  | cons a A ih => simp [ih]

theorem dirSplitSlot_eq (hslots : p.slots = A ++ a :: o :: B) (hm : p.next^[p.nOwned o / 2] a = m) :
    p.dirSplitSlot (A.length + 1) = p.withDir (A ++ a :: m :: o :: B)
      (update (update p.nOwned m (p.nOwned o / 2))
        o (p.nOwned o - p.nOwned o / 2)) := by
  have hins : (A ++ a :: o :: B).insertIdx (A.length + 1) o = A ++ a :: o :: o :: B := by
    simpa using insertIdx_length_append (A ++ [a]) (o :: B) o
  have hadd : p.dirAddSlot A.length = p.withDir (A ++ a :: o :: o :: B) p.nOwned := by
    simp [dirAddSlot, withDir, slotGetRec, hslots, hins, nOwned]
  have htop (x : RecPtr) : (A ++ a :: x :: o :: B)[A.length + 1 + 1]? = some o := by
    simp [Nat.add_assoc]
  simp [dirSplitSlot, slotGetNOwned, slotGetRec, hslots, hadd, slotSetNOwned, setNOwned_eq, htop,
    hm]

theorem dirDeleteSlot_eq (hslots : p.slots = A ++ o :: o' :: B) (hne : o' ≠ o) :
    p.dirDeleteSlot A.length = p.withDir (A ++ o' :: B)
      (update (update p.nOwned o 0) o' (p.nOwned o + p.nOwned o')) := by
  have herase (f : RecPtr → ℕ) : { p.withDir (A ++ o :: o' :: B) f with
      slots := (A ++ o :: o' :: B).eraseIdx A.length } = p.withDir (A ++ o' :: B) f := by
    simp [withDir, eraseIdx_append_of_length_le]
  simp [dirDeleteSlot, slotGetNOwned, slotGetRec, hslots, slotSetNOwned, setNOwned_eq, hne,
    herase]

theorem dirBalanceSlot_borrow_eq (hslots : p.slots = A ++ o :: o' :: B)
    (hup : pageDirSlotMinNOwned < p.nOwned o') :
    p.dirBalanceSlot A.length = p.withDir (A ++ p.next o :: o' :: B)
      (update (update (update p.nOwned o 0) (p.next o)
        (p.nOwned o + 1)) o' (p.nOwned o' - 1)) := by
  simp [dirBalanceSlot, slotGetNOwned, slotGetRec, hslots, slotSetNOwned, setNOwned_eq, hup]

theorem dirBalanceSlot_merge_eq (hslots : p.slots = A ++ o :: o' :: B)
    (hup : p.nOwned o' ≤ pageDirSlotMinNOwned) :
    p.dirBalanceSlot A.length = p.dirDeleteSlot A.length := by
  simp [dirBalanceSlot, slotGetNOwned, slotGetRec, hslots, hup]

theorem dirBalanceSlot_last (hslots : p.slots = A ++ [o]) : p.dirBalanceSlot A.length = p := by
  simp [dirBalanceSlot, hslots]

theorem Dir.dirSplitSlot (h : p.Dir (g₁ ++ [G] ++ [⟨i ++ m :: j, o⟩] ++ g₂))
    (hsize : (i.length + j.length + 2) / 2 = i.length + 1) :
    ∃ s f, p.dirSplitSlot (g₁.length + 1) = p.withDir s f ∧
      (p.withDir s f).Dir (g₁ ++ [G] ++ [⟨i, m⟩, ⟨j, o⟩] ++ g₂) := by
  have hslots : p.slots = g₁.map owner ++ G.owner :: o :: g₂.map owner := by
    rw [h.slots_eq]
    simp
  have howns := h.owns ⟨i ++ m :: j, o⟩ (by simp)
  have hn : p.nOwned o = i.length + j.length + 2 := by
    rw [howns.1]
    simp only [size, length_append, length_cons]
    omega
  -- The record in the middle is found from the previous slot.
  have hmid : p.next^[p.nOwned o / 2] G.owner = m := by
    rw [hn, hsize]
    refine Links.iterate
      (Dir.links_part (flat g₁ ++ G.init) _ (j ++ o :: flat g₂) h ?_)
    simp [toList]
  have hnodup : (i ++ m :: j ++ [o]).Nodup := h.nodup_cluster (G := ⟨i ++ m :: j, o⟩) (by simp)
  have heq := dirSplitSlot_eq hslots hmid
  rw [length_map] at heq
  refine ⟨_, _, heq, h.regroup (by simp [toList]) (by simp) (fun r hr => ?_) ?_⟩
  · have hrm : r ≠ m ∧ r ≠ o := by
      constructor <;> rintro rfl <;> exact hr (by simp [toList])
    rw [update_of_ne hrm.2, update_of_ne hrm.1]
  · have hzero := howns.2
    simp only [forall_mem_cons, update_apply, size, hn, hsize]
    grind

theorem Dir.dirBalanceSlot_borrow (h : p.Dir (g₁ ++ [⟨i, o⟩, ⟨x :: j, o'⟩] ++ g₂))
    (hup : pageDirSlotMinNOwned ≤ j.length + 1) :
    ∃ s f, p.dirBalanceSlot g₁.length = p.withDir s f ∧
      (p.withDir s f).Dir (g₁ ++ [⟨i ++ [o], x⟩, ⟨j, o'⟩] ++ g₂) := by
  have hslots : p.slots = g₁.map owner ++ o :: o' :: g₂.map owner := by
    rw [h.slots_eq]
    simp
  have hown := h.owns ⟨i, o⟩ (by simp)
  have hown' := h.owns ⟨x :: j, o'⟩ (by simp)
  simp only [Owns, size, length_cons] at hown hown'
  have hx : p.next o = x := by
    have hlinks := Dir.links_part (flat g₁ ++ i) [o, x] (j ++ o' :: flat g₂) h
      (by simp [toList])
    exact (links_cons_cons.mp hlinks).1
  have hnodup := Dir.nodup_part (flat g₁) (i ++ o :: x :: (j ++ [o'])) (flat g₂) h
    (by simp [toList])
  have heq := dirBalanceSlot_borrow_eq hslots (by omega)
  rw [length_map, hx] at heq
  refine ⟨_, _, heq, h.regroup (by simp [toList]) (by simp) (fun r hr => ?_) ?_⟩
  · simp only [flat_cons, flat_nil, toList, mem_append] at hr
    grind
  · simp only [forall_mem_cons, update_apply, size]
    grind

theorem Dir.dirBalanceSlot_merge (h : p.Dir (g₁ ++ [⟨i, o⟩, ⟨j, o'⟩] ++ g₂))
    (hup : j.length + 1 ≤ pageDirSlotMinNOwned) :
    ∃ s f, p.dirBalanceSlot g₁.length = p.withDir s f ∧
      (p.withDir s f).Dir (g₁ ++ [⟨i ++ o :: j, o'⟩] ++ g₂) := by
  have hslots : p.slots = g₁.map owner ++ o :: o' :: g₂.map owner := by
    rw [h.slots_eq]
    simp
  have hown := h.owns ⟨i, o⟩ (by simp)
  have hown' := h.owns ⟨j, o'⟩ (by simp)
  simp only [Owns, size] at hown hown'
  have hnodup := Dir.nodup_part (flat g₁) (i ++ o :: (j ++ [o'])) (flat g₂) h
    (by simp [toList])
  have hne : o' ≠ o := by grind
  have heq := (dirBalanceSlot_merge_eq hslots (by omega)).trans (dirDeleteSlot_eq hslots hne)
  rw [length_map] at heq
  refine ⟨_, _, heq, h.regroup (by simp [toList]) (by simp) (fun r hr => ?_) ?_⟩
  · simp only [flat_cons, flat_nil, toList, mem_append] at hr
    grind
  · simp only [forall_mem_cons, update_apply, size]
    grind

end Slots

end Page

end MySQL.Innobase
