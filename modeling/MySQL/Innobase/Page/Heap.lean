import MySQL.Innobase.Page.Directory

/-!
# The memory of a page

The records of the list and the freed records lie in blocks of the heap that do not overlap,
so a write to one of them leaves the others alone, and the heap leaves room for the directory.
-/

namespace MySQL.Innobase

open Lib List

namespace Page

variable {α : Type*} {p p' : Page α} {r c : RecPtr} {live live' F F' : List RecPtr}
  {buf need no : ℕ}

def extent (p : Page α) (r : RecPtr) : Set ℕ :=
  Set.Ico (r - (p.recs r).extraSize) (r + (p.recs r).dataSize)

structure Heap (p : Page α) (live F : List RecPtr) : Prop where
  nodup : (live ++ F).Nodup
  header : ∀ r ∈ live ++ F, 0 < (p.recs r).extraSize ∧ (p.recs r).extraSize ≤ r
  below : ∀ r ∈ live ++ F, r + (p.recs r).dataSize ≤ p.heapTop
  apart : Set.PairwiseDisjoint {r | r ∈ live ++ F} p.extent
  free_eq : p.free = F.headD 0
  links : Links p.next (F ++ [0])
  count : (live ++ F).length ≤ p.nHeap
  start : pageSupremumEnd p.comp ≤ p.heapTop
  room : p.heapTop + dirCalcReservedSpace (p.nHeap - 2) + pageDir + 2 * pageDirSlotSize ≤
    univPageSize

/-- The block is in the heap, and no record is in it. -/
structure Unused (p : Page α) (live F : List RecPtr) (buf need : ℕ) : Prop where
  apart : ∀ r ∈ live ++ F, Disjoint (Set.Ico buf (buf + need)) (p.extent r)
  below : buf + need ≤ p.heapTop
  count : (live ++ F).length < p.nHeap

theorem Heap.withDir (h : p.Heap live F) (s : List RecPtr) (f : RecPtr → ℕ) :
    (p.withDir s f).Heap live F :=
  ⟨h.nodup, h.header, h.below, h.apart, h.free_eq, h.links, h.count, h.start, h.room⟩

/-! ## Allocation -/

def SameRecords (p p' : Page α) : Prop :=
  p'.comp = p.comp ∧ p'.recs = p.recs ∧ p'.slots = p.slots ∧ p'.nRecs = p.nRecs ∧
    p'.lastInsert = p.lastInsert

theorem getMaxInsertSize_eq (n : ℕ) : p.getMaxInsertSize n =
    univPageSize - pageSupremumEnd p.comp - pageDir - 2 * pageDirSlotSize -
      (p.heapTop - pageSupremumEnd p.comp + dirCalcReservedSpace (n + p.nHeap - 2)) := by
  rcases Nat.lt_or_ge (univPageSize - pageSupremumEnd p.comp - pageDir - 2 * pageDirSlotSize)
    (p.heapTop - pageSupremumEnd p.comp + dirCalcReservedSpace (n + p.nHeap - 2)) with hlt | hge
  · exact (if_pos hlt).trans (Nat.sub_eq_zero_of_le hlt.le).symm
  · exact if_neg hge.not_gt

theorem Heap.memAllocHeap (h : p.Heap live F) (hneed : 0 < need)
    (halloc : p.memAllocHeap need = some (buf, no, p')) :
    p'.Heap live F ∧ p'.Unused live F buf need ∧ p.SameRecords p' := by
  unfold Page.memAllocHeap at halloc
  split at halloc
  case isFalse => exact absurd halloc.symm (Option.some_ne_none _)
  case isTrue hfits =>
    cases halloc
    refine ⟨⟨h.nodup, h.header, fun r hr => ?_, h.apart, h.free_eq, h.links, ?_, ?_, ?_⟩,
      ⟨fun r hr => ?_, le_rfl, Nat.lt_succ_of_le h.count⟩, rfl, rfl, rfl, rfl, rfl⟩
    · exact (h.below r hr).trans (Nat.le_add_right _ _)
    · exact h.count.trans (Nat.le_succ _)
    · exact h.start.trans (Nat.le_add_right _ _)
    · rw [getMaxInsertSize_eq, Nat.add_comm 1 p.nHeap] at hfits
      simp only [univPageSize, pageDir, pageDirSlotSize] at hfits ⊢
      omega
    · have hbelow := h.below r hr
      rw [Set.disjoint_iff]
      rintro x ⟨hx, hx'⟩
      exact absurd (hx.1.trans_lt hx'.2) (not_lt.mpr hbelow)

theorem Heap.popFree (h : p.Heap live (r :: F)) (n : ℕ) (hneed : need ≤ p.recSize r) :
    let p' : Page α := { p with free := p.next r, garbage := n }
    p'.Heap live F ∧ p'.Unused live F (r - (p.recs r).extraSize) need := by
  have hsub : live ++ F ⊆ live ++ r :: F := fun x hx => by
    rw [mem_append] at hx ⊢
    exact hx.imp_right (mem_cons_of_mem r)
  have hmem : r ∈ live ++ r :: F := mem_append_right _ mem_cons_self
  obtain ⟨hr, hnodup⟩ := nodup_cons.mp (nodup_middle.mp h.nodup)
  have hcount : (live ++ F).length < p.nHeap := by
    have hle := h.count
    rw [length_append, length_cons] at hle
    rw [length_append]
    omega
  have hend : r - (p.recs r).extraSize + need ≤ r + (p.recs r).dataSize := by
    have hle := Nat.add_le_add_left hneed (r - (p.recs r).extraSize)
    rwa [recSize, ← Nat.add_assoc, Nat.sub_add_cancel (h.header r hmem).2] at hle
  refine ⟨⟨hnodup, fun x hx => h.header x (hsub hx), fun x hx => h.below x (hsub hx), ?_, ?_, ?_,
    hcount.le, h.start, h.room⟩, fun x hx => ?_, ?_, hcount⟩
  · exact h.apart.subset fun x hx => hsub hx
  · have hlinks := h.links
    cases F with
    | nil => exact (links_cons_cons.mp hlinks).1
    | cons f F => exact (links_cons_cons.mp hlinks).1
  · exact h.links.tail
  · have hne : r ≠ x := by
      rintro rfl
      exact hr hx
    exact (h.apart hmem (hsub hx) hne).mono_left (Set.Ico_subset_Ico_right hend)
  · exact hend.trans (h.below r hmem)

theorem Heap.memAlloc (h : p.Heap live F) (hneed : 0 < need)
    (halloc : p.memAlloc need = some (buf, no, p')) :
    ∃ F', p'.Heap live F' ∧ p'.Unused live F' buf need ∧ p.SameRecords p' := by
  unfold Page.memAlloc at halloc
  split at halloc
  case isTrue hfree =>
    obtain ⟨hne, hsize⟩ := hfree
    cases F with
    | nil => exact absurd h.free_eq hne
    | cons r F =>
      obtain rfl : p.free = r := h.free_eq
      cases halloc
      obtain ⟨hheap, hunused⟩ := h.popFree (p.garbage - need) hsize
      exact ⟨F, hheap, hunused, rfl, rfl, rfl, rfl, rfl⟩
  case isFalse => exact ⟨F, h.memAllocHeap hneed halloc⟩

/-! ## Records that come to the list and leave it -/

structure SameSizes (p p' : Page α) (r : RecPtr) : Prop where
  extraSize : (p'.recs r).extraSize = (p.recs r).extraSize
  dataSize : (p'.recs r).dataSize = (p.recs r).dataSize

theorem SameSizes.extent_eq (h : p.SameSizes p' r) : p'.extent r = p.extent r := by
  rw [extent, extent, h.extraSize, h.dataSize]

structure SameHeap (p p' : Page α) : Prop where
  comp : p'.comp = p.comp
  heapTop : p'.heapTop = p.heapTop
  nHeap : p'.nHeap = p.nHeap

theorem Heap.fresh {extraSize dataSize : ℕ} (h : p.Heap live F)
    (hu : p.Unused live F buf (extraSize + dataSize)) (hpos : 0 < extraSize) :
    buf + extraSize ∉ live ++ F := by
  intro hmem
  obtain ⟨hheader, hle⟩ := h.header _ hmem
  have hin : buf + extraSize - 1 ∈ Set.Ico buf (buf + (extraSize + dataSize)) := by
    constructor <;> omega
  refine Set.disjoint_left.mp (hu.apart _ hmem) hin ?_
  constructor <;> omega

theorem Heap.add {extraSize dataSize : ℕ} (h : p.Heap live F)
    (hu : p.Unused live F buf (extraSize + dataSize)) (hpos : 0 < extraSize)
    (hc : c = buf + extraSize) (hperm : live'.Perm (c :: live)) (hheap : p.SameHeap p')
    (hsame : ∀ r, r ≠ c → p.SameSizes p' r) (hextra : (p'.recs c).extraSize = extraSize)
    (hdata : (p'.recs c).dataSize = dataSize) (hfree : p'.free = p.free)
    (hnext : ∀ r ∈ F, p'.next r = p.next r) : p'.Heap live' F := by
  have hfresh : c ∉ live ++ F := hc ▸ h.fresh hu hpos
  have hall : (live' ++ F).Perm (c :: (live ++ F)) := hperm.append_right F
  have hold : ∀ r ∈ live ++ F, p.SameSizes p' r := fun r hr => hsame r fun heq => hfresh (heq ▸ hr)
  have hextent : p'.extent c = Set.Ico buf (buf + (extraSize + dataSize)) := by
    rw [extent, hextra, hdata, hc, Nat.add_sub_cancel, Nat.add_assoc]
  have hcases : ∀ r, r ∈ live' ++ F → r = c ∨ r ∈ live ++ F := fun r hr =>
    mem_cons.mp (hall.mem_iff.mp hr)
  refine ⟨?_, fun r hr => ?_, fun r hr => ?_, ?_, ?_, ?_, ?_, ?_, ?_⟩
  · exact hall.nodup_iff.mpr (nodup_cons.mpr ⟨hfresh, h.nodup⟩)
  · rcases hcases r hr with rfl | hr
    · rw [hextra, hc]
      exact ⟨hpos, Nat.le_add_left _ _⟩
    · rw [(hold r hr).extraSize]
      exact h.header r hr
  · rw [hheap.heapTop]
    rcases hcases r hr with rfl | hr
    · rw [hdata, hc, Nat.add_assoc]
      exact hu.below
    · rw [(hold r hr).dataSize]
      exact h.below r hr
  · have hset : {r | r ∈ live' ++ F} = insert c {r | r ∈ live ++ F} :=
      Set.ext fun r => hall.mem_iff.trans mem_cons
    rw [hset]
    refine (Set.PairwiseDisjoint.insert ?_) fun r hr _ => ?_
    · intro r hr r' hr' hne
      rw [Function.onFun_apply, (hold r hr).extent_eq, (hold r' hr').extent_eq]
      exact h.apart hr hr' hne
    · rw [hextent, (hold r hr).extent_eq]
      exact hu.apart r hr
  · rw [hfree, h.free_eq]
  · exact h.links.congr fun r hr => hnext r (by simpa using hr)
  · rw [hall.length_eq, hheap.nHeap]
    exact hu.count
  · rw [hheap.comp, hheap.heapTop]
    exact h.start
  · rw [hheap.heapTop, hheap.nHeap]
    exact h.room

theorem Heap.release (h : p.Heap live F) (hperm : live.Perm (c :: live'))
    (hheap : p.SameHeap p') (hsame : ∀ r, p.SameSizes p' r) (hfree : p'.free = c)
    (hc : p'.next c = p.free) (hnext : ∀ r ∈ F, p'.next r = p.next r) : p'.Heap live' (c :: F) := by
  have hall : (live' ++ c :: F).Perm (live ++ F) :=
    perm_middle.trans (hperm.append_right F).symm
  refine ⟨hall.nodup_iff.mpr h.nodup, fun r hr => ?_, fun r hr => ?_, ?_, hfree, ?_, ?_, ?_, ?_⟩
  · rw [(hsame r).extraSize]
    exact h.header r (hall.mem_iff.mp hr)
  · rw [hheap.heapTop, (hsame r).dataSize]
    exact h.below r (hall.mem_iff.mp hr)
  · intro r hr r' hr' hne
    rw [Function.onFun_apply, (hsame r).extent_eq, (hsame r').extent_eq]
    exact h.apart (hall.mem_iff.mp hr) (hall.mem_iff.mp hr') hne
  · have hlinks : Links p'.next (F ++ [0]) := h.links.congr fun r hr => hnext r (by simpa using hr)
    have hhead := h.free_eq
    cases F with
    | nil => exact links_cons_cons.mpr ⟨hc.trans hhead, hlinks⟩
    | cons f F => exact links_cons_cons.mpr ⟨hc.trans hhead, hlinks⟩
  · rw [hall.length_eq, hheap.nHeap]
    exact h.count
  · rw [hheap.comp, hheap.heapTop]
    exact h.start
  · rw [hheap.heapTop, hheap.nHeap]
    exact h.room

end Page

end MySQL.Innobase
