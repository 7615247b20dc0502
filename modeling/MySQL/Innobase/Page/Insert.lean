import MySQL.Innobase.Page.Heap

/-!
# Inserts keep the page valid

A valid page represents a sequence of contents: the records of its list have them, and the
directory, the heap and the counters belong to this list.
-/

namespace MySQL.Innobase

open Lib List Function Cluster

namespace Page

variable {α : Type*} {p p' q : Page α} {r o c cur : RecPtr} {g g₁ g₂ : List (Cluster RecPtr)}
  {G : Cluster RecPtr} {i j l recs F : List RecPtr} {seq : List α}

structure Valid (p : Page α) (recs : List RecPtr) (g : List (Cluster RecPtr)) (F : List RecPtr)
    (seq : List α) : Prop where
  dir : p.Dir (⟨[], p.infimum⟩ :: g)
  flat_eq : flat g = recs ++ [p.supremum]
  sized : Cluster.Sized pageDirSlotMinNOwned pageDirSlotMaxNOwned g
  heap : p.Heap (p.infimum :: (recs ++ [p.supremum])) F
  nRecs_eq : p.nRecs = recs.length
  contents : recs.map (fun r => (p.recs r).content) = seq.map some

theorem Valid.flat_all (h : p.Valid recs g F seq) :
    flat (⟨[], p.infimum⟩ :: g) = p.infimum :: (recs ++ [p.supremum]) := by
  rw [flat_cons, h.flat_eq]
  rfl

theorem Valid.links (h : p.Valid recs g F seq) :
    Links p.next (p.infimum :: (recs ++ [p.supremum])) :=
  h.flat_all ▸ h.dir.links

theorem Valid.nth_eq (h : p.Valid recs g F seq) {l₂ : List RecPtr}
    (hl : p.infimum :: recs = l ++ cur :: l₂) : p.nth l.length = cur := by
  cases l with
  | nil => exact (List.cons.inj hl).1
  | cons a l =>
    obtain ⟨rfl, rfl⟩ := List.cons.inj hl
    refine Links.iterate (Dir.links_part [] _ (l₂ ++ [p.supremum]) h.dir ?_)
    rw [h.flat_all]
    simp

theorem SameRecords.nth_eq (h : p.SameRecords p') (k : ℕ) : p.nth k = p'.nth k := by
  obtain ⟨hcomp, hrecs, -⟩ := h
  simp only [nth, infimum, hcomp]
  congr 1
  funext r
  rw [next, next, hrecs]

theorem Valid.of_sameRecords {F' : List RecPtr} (h : p.Valid recs g F seq)
    (hsame : p.SameRecords p') (hheap : p'.Heap (p.infimum :: (recs ++ [p.supremum])) F') :
    p'.Valid recs g F' seq := by
  obtain ⟨hcomp, hrecs, hslots, hn, -⟩ := hsame
  have hnext : p'.next = p.next := funext fun r => by rw [next, next, hrecs]
  have hown : p'.nOwned = p.nOwned := funext fun r => by rw [nOwned, nOwned, hrecs]
  have hinf : p'.infimum = p.infimum := congrArg pageInfimum hcomp
  have hsup : p'.supremum = p.supremum := congrArg pageSupremum hcomp
  refine ⟨⟨?_, ?_, ?_, fun G hG => ?_⟩, ?_, h.sized, ?_, ?_, ?_⟩
  · rw [hslots, h.dir.slots_eq, hinf]
  · rw [hnext, hinf]
    exact h.dir.links
  · rw [hinf]
    exact h.dir.nodup
  · rw [hinf] at hG
    exact (h.dir.owns G hG).congr fun r _ => congrFun hown r
  · rw [hsup, h.flat_eq]
  · rwa [hinf, hsup]
  · rw [hn, h.nRecs_eq]
  · rw [hrecs, h.contents]

/-! ## The new record and its owner -/

theorem updateLastInsert_eq (p : Page α) (cur c : RecPtr) : ∃ d n, p.updateLastInsert cur c =
    { p with direction := d, nDirection := n, lastInsert := c } := ⟨_, _, rfl⟩

theorem exists_split_of_length (hlen : l.length = pageDirSlotMaxNOwned) :
    ∃ a m b, l = a ++ m :: b ∧ a.length = 3 ∧ b.length = 4 := by
  unfold pageDirSlotMaxNOwned at hlen
  refine ⟨l.take 3, l[3], l.drop 4, ?_, by simp [hlen], by simp [hlen]⟩
  rw [getElem_cons_drop, take_append_drop]

theorem Dir.updateOwner (h : (q.setNOwned o (q.nOwned o + 1)).Dir
      (G :: g₁ ++ [⟨i ++ c :: j, o⟩] ++ g₂))
    (hsized : Cluster.Sized pageDirSlotMinNOwned pageDirSlotMaxNOwned (g₁ ++ ⟨i ++ j, o⟩ :: g₂)) :
    ∃ s f g, q.updateOwner c = .ok (q.withDir s f) ∧ (q.withDir s f).Dir (G :: g) ∧
      flat g = flat (g₁ ++ [⟨i ++ c :: j, o⟩] ++ g₂) ∧
      Cluster.Sized pageDirSlotMinNOwned pageDirSlotMaxNOwned g := by
  have h' : (q.setNOwned o (q.nOwned o + 1)).Dir (G :: g₁ ++ ⟨i ++ c :: j, o⟩ :: g₂) := by
    simpa using h
  have howns := h'.owns ⟨i ++ c :: j, o⟩ (by simp)
  have hne := h'.owner_notMem_init (G := ⟨i ++ c :: j, o⟩) (by simp)
  have hlen : (i ++ c :: j).length = (i ++ j).length + 1 := by simp [Nat.add_assoc]
  obtain ⟨hleft, hhi, hright⟩ := sized_middle.mp hsized
  simp only [Owns, setNOwned_eq, nOwned_withDir, update_self, size] at howns
  have hn : q.nOwned o = (i ++ j).length + 1 := by omega
  have howner : q.findOwnerRec c univPageSize = some o := by
    have hlinks := h'.links_cluster
    simp only [setNOwned_eq, next_withDir] at hlinks
    refine Page.findOwnerRec_eq (i := c :: j) rfl hlinks (fun x hx => ?_) ?_ ?_
    · have hx' : x ∈ i ++ c :: j := mem_append_right i hx
      have hxo : x ≠ o := by
        rintro rfl
        exact hne hx'
      simpa [hxo] using howns.2 x hx'
    · rw [hn]
      exact Nat.succ_ne_zero _
    · simp only [size, length_append, pageDirSlotMaxNOwned] at hhi
      simp only [length_cons, univPageSize]
      omega
  unfold Page.updateOwner
  simp only [howner]
  by_cases hmax : q.nOwned o = pageDirSlotMaxNOwned
  · obtain ⟨a, m, b, hab, ha, hb⟩ := exists_split_of_length (l := i ++ c :: j) (by omega)
    have hslot : (q.setNOwned o (q.nOwned o + 1)).dirFindOwnerSlot o = some (g₁.length + 1) := by
      have hwhole : (q.setNOwned o (q.nOwned o + 1)).Dir
          (G :: g₁ ++ ⟨(i ++ c :: j) ++ [], o⟩ :: g₂) := by simpa using h
      exact hwhole.dirFindOwnerSlot_eq rfl (by decide)
    obtain ⟨g₀, G₀, hG₀⟩ : ∃ g₀ G₀, G :: g₁ = g₀ ++ [G₀] :=
      ⟨_, _, (dropLast_append_getLast (cons_ne_nil G g₁)).symm⟩
    have hlength : g₁.length = g₀.length := by simpa using congrArg List.length hG₀
    rw [hG₀, hab] at h
    obtain ⟨s, f, hsplit, hdir⟩ := h.dirSplitSlot (by omega)
    rw [if_pos hmax, hslot, hlength]
    simp only [setNOwned_eq, withDir_withDir] at hsplit hdir ⊢
    refine ⟨s, f, g₁ ++ [⟨a, m⟩, ⟨b, o⟩] ++ g₂, congrArg _ hsplit, ?_, ?_, ?_⟩
    · rw [← hG₀] at hdir
      simpa using hdir
    · simp [toList, hab]
    · simp only [append_assoc, cons_append, nil_append]
      refine hsized.split ?_ ?_ <;>
        simp [size, ha, hb, pageDirSlotMinNOwned, pageDirSlotMaxNOwned]
  · rw [if_neg hmax, setNOwned_eq]
    refine ⟨_, _, g₁ ++ [⟨i ++ c :: j, o⟩] ++ g₂, rfl, ?_, rfl, ?_⟩
    · simpa [setNOwned_eq] using h
    · simp only [size] at hhi hright
      rw [append_assoc]
      refine hsized.set (fun hne => ?_) ?_
      · exact (hright hne).1.trans (by simp [size, hlen])
      · simp only [size]
        omega

/-! ## Linking the record -/

section Link

variable {buf extraSize dataSize heapNo k : ℕ} {content : α}

theorem recs_setNext (p : Page α) (r n x : RecPtr) : (p.setNext r n).recs x =
    { p.recs x with next := update p.next r n x } := by
  by_cases hx : x = r
  · subst hx
    simp [setNext, setRec]
  · simp [setNext, setRec, hx, next]

theorem recs_linkRec : (p.linkRec cur c extraSize dataSize heapNo content).recs r =
    { update p.recs c ⟨extraSize, dataSize, 0, heapNo, p.next cur, some content⟩ r with
      next := update (update p.next c (p.next cur)) cur c r } := by
  refine (recs_setNext _ cur c r).trans ?_
  have hnext : (p.setRec c ⟨extraSize, dataSize, 0, heapNo, p.next cur, some content⟩).next =
      update p.next c (p.next cur) := by
    funext x
    by_cases hx : x = c <;> simp [next, setRec, hx]
  rw [hnext]
  rfl

theorem next_linkRec : (p.linkRec cur c extraSize dataSize heapNo content).next =
    update (update p.next c (p.next cur)) cur c := by
  funext x
  rw [next, recs_linkRec]

theorem nOwned_linkRec : (p.linkRec cur c extraSize dataSize heapNo content).nOwned =
    update p.nOwned c 0 := by
  funext x
  rw [nOwned, recs_linkRec]
  by_cases hx : x = c <;> simp [hx, nOwned]

theorem sameSizes_linkRec (hr : r ≠ c) :
    p.SameSizes (p.linkRec cur c extraSize dataSize heapNo content) r := by
  constructor <;> simp [recs_linkRec, hr]

theorem content_linkRec (hr : r ≠ c) :
    ((p.linkRec cur c extraSize dataSize heapNo content).recs r).content =
      (p.recs r).content := by
  simp [recs_linkRec, hr]

theorem Valid.link (h : p.Valid recs g F seq) (heapNo : ℕ) (content : α)
    (hu : p.Unused (p.infimum :: (recs ++ [p.supremum])) F buf (extraSize + dataSize))
    (hpos : 0 < extraSize) (hk : k ≤ recs.length) (hc : c = buf + extraSize) :
    ∃ p' g', ((p.linkRec (p.nth k) c extraSize dataSize heapNo content).updateLastInsert
        (p.nth k) c).updateOwner c = .ok p' ∧ p'.comp = p.comp ∧
      p'.Valid (recs.insertIdx k c) g' F (seq.insertIdx k content) := by
  obtain ⟨l₁, l₂, rfl, rfl⟩ : ∃ l₁ l₂, recs = l₁ ++ l₂ ∧ k = l₁.length :=
    ⟨recs.take k, recs.drop k, (take_append_drop k recs).symm, by simp [hk]⟩
  obtain ⟨l, cur, hcur⟩ : ∃ l cur, p.infimum :: l₁ = l ++ [cur] :=
    ⟨_, _, (dropLast_append_getLast (cons_ne_nil p.infimum l₁)).symm⟩
  have hnth : p.nth l₁.length = cur := by
    have hlen : l₁.length = l.length := by simpa using congrArg List.length hcur
    have hsplit : p.infimum :: (l₁ ++ l₂) = l ++ cur :: l₂ := by
      rw [← cons_append, hcur, append_assoc, singleton_append]
    rw [hlen]
    exact h.nth_eq hsplit
  obtain ⟨g₁, i, j, o, g₂, rfl, hl₁, hl₂⟩ :=
    exists_cut (h.flat_eq.trans (append_assoc _ _ _)) (by simp)
  have hfresh : c ∉ p.infimum :: (l₁ ++ l₂ ++ [p.supremum]) ++ F := hc ▸ h.heap.fresh hu hpos
  have hlive : c ∉ p.infimum :: (l₁ ++ l₂ ++ [p.supremum]) := fun hmem =>
    hfresh (mem_append_left F hmem)
  obtain ⟨d, n, hq⟩ :=
    updateLastInsert_eq (p.linkRec cur c extraSize dataSize heapNo content) cur c
  rw [hnth, hq]
  set q : Page α := { p.linkRec cur c extraSize dataSize heapNo content with
    direction := d, nDirection := n, lastInsert := c }
  have hqnext : q.next = update (update p.next c (p.next cur)) cur c :=
    next_linkRec
  have hqown : q.nOwned = update p.nOwned c 0 := nOwned_linkRec
  have hall : flat (⟨[], p.infimum⟩ :: g₁ ++ [⟨i ++ j, o⟩] ++ g₂) =
      p.infimum :: (l₁ ++ l₂ ++ [p.supremum]) := by
    simpa using h.flat_all
  have hoc : o ≠ c := by
    rintro rfl
    exact hlive (hall ▸ by simp [toList])
  have hdir : (q.setNOwned o (q.nOwned o + 1)).Dir
      (⟨[], p.infimum⟩ :: g₁ ++ [⟨i ++ c :: j, o⟩] ++ g₂) := by
    have hbehind : flat (⟨[], p.infimum⟩ :: g₁) ++ i = l ++ [cur] := by
      rw [← hcur, hl₁]
      rfl
    refine Dir.insert (by simpa using h.dir) hbehind (hall ▸ hlive) ?_ ?_ ?_
    · rfl
    · rw [setNOwned_eq, next_withDir, hqnext]
    · rw [setNOwned_eq, nOwned_withDir, hqown, update_of_ne hoc]
  have hcell : q.recs c = ⟨extraSize, dataSize, 0, heapNo, q.next c, some content⟩ := by
    refine recs_linkRec.trans ?_
    rw [update_self, hqnext]
  have hheap : q.Heap (p.infimum :: (l₁ ++ c :: l₂ ++ [p.supremum])) F := by
    have hperm : (p.infimum :: (l₁ ++ c :: l₂ ++ [p.supremum])).Perm
        (c :: p.infimum :: (l₁ ++ l₂ ++ [p.supremum])) := by
      simp only [append_assoc, cons_append]
      exact (perm_middle.cons _).trans (List.Perm.swap ..)
    refine Heap.add h.heap hu hpos hc hperm ⟨rfl, rfl, rfl⟩ (fun r hr => ?_)
      (congrArg PageRec.extraSize hcell) (congrArg PageRec.dataSize hcell) rfl fun r hr => ?_
    · exact ⟨(sameSizes_linkRec hr).1, (sameSizes_linkRec hr).2⟩
    · have hrc : r ≠ c := by
        rintro rfl
        exact hfresh (mem_append_right _ hr)
      have hmem : cur ∈ p.infimum :: (l₁ ++ l₂ ++ [p.supremum]) := by
        rw [append_assoc, ← cons_append, hcur]
        simp
      have hrcur : r ≠ cur := ((nodup_append.mp h.heap.nodup).2.2 cur hmem r hr).symm
      rw [hqnext, update_of_ne hrcur, update_of_ne hrc]
  have hcontents : (l₁ ++ c :: l₂).map (fun r => (q.recs r).content) =
      (seq.insertIdx l₁.length content).map some := by
    have hold : (l₁ ++ l₂).map (fun r => (q.recs r).content) = seq.map some := by
      rw [← h.contents]
      refine map_congr_left fun r hr => content_linkRec ?_
      rintro rfl
      exact hlive (mem_cons_of_mem _ (mem_append_left _ hr))
    rw [map_insertIdx, ← hold, ← insertIdx_length_append, map_insertIdx, hcell]
  obtain ⟨s, f, g', hupd, hdir', hflat, hsized⟩ := hdir.updateOwner h.sized
  rw [insertIdx_length_append]
  refine ⟨_, g', hupd, rfl, hdir', ?_, hsized, ?_, ?_, ?_⟩
  · rw [hflat, flat_cut, ← hl₁, cons_append, ← hl₂]
    exact (append_assoc l₁ (c :: l₂) _).symm
  · exact Heap.withDir hheap s f
  · refine (congrArg (· + 1) h.nRecs_eq).trans ?_
    simp [Nat.add_assoc]
  · exact hcontents

theorem Valid.curInsertRecLow (h : p.Valid recs g F seq) (dataSize : ℕ) (content : α)
    (hk : k ≤ recs.length) (hpos : 0 < extraSize) :
    p.curInsertRecLow (p.nth k) extraSize dataSize content = .error .noSpace ∨
      ∃ c p' g' F', p.curInsertRecLow (p.nth k) extraSize dataSize content = .ok (c, p') ∧
        p'.comp = p.comp ∧ p'.Valid (recs.insertIdx k c) g' F' (seq.insertIdx k content) := by
  unfold Page.curInsertRecLow
  cases halloc : p.memAlloc (extraSize + dataSize) with
  | none => exact .inl rfl
  | some res =>
    obtain ⟨buf, heapNo, p₁⟩ := res
    obtain ⟨F', hheap, hunused, hsame⟩ := h.heap.memAlloc (by omega) halloc
    have hvalid := h.of_sameRecords hsame hheap
    have hnth : p.nth k = p₁.nth k := hsame.nth_eq k
    have hunused' : p₁.Unused (p₁.infimum :: (recs ++ [p₁.supremum])) F' buf
        (extraSize + dataSize) := by
      rw [infimum, supremum, hsame.1]
      exact hunused
    obtain ⟨p', g', hok, hcomp, hvalid'⟩ := hvalid.link heapNo content hunused' hpos hk rfl
    refine .inr ⟨buf + extraSize, p', g', F', ?_, hcomp.trans hsame.1, hvalid'⟩
    rw [hnth]
    simp only [hok]
    rfl

end Link

end Page

end MySQL.Innobase
