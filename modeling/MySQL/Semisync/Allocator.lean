import Mathlib

/-!
# Memory for the nodes of active transactions

Nodes are taken one after the other from blocks of 16.  The blocks that are in use come first in the
link table, up to the current one; when the transactions at the front have ended, their blocks are
put behind the free ones.
-/

namespace MySQL.Semisync

open List

abbrev NodeAddr := ℕ × ℕ

def blockTranxNodes : ℕ := 16

/-- The link table of the blocks is cut behind `current_block`. -/
structure TranxNodeAllocator where
  reservedBlocks : ℕ
  /-- From `first_block` to `current_block`. -/
  usedBlocks : List ℕ
  /-- Behind `current_block`, to `last_block`. -/
  freeBlocks : List ℕ
  lastNode : ℤ
  blockNum : ℕ

namespace TranxNodeAllocator

def new (reservedNodes : ℕ) : TranxNodeAllocator where
  reservedBlocks := reservedNodes / blockTranxNodes + if reservedNodes % blockTranxNodes > 1 then 2
    else 1
  usedBlocks := []
  freeBlocks := []
  lastNode := -1
  blockNum := 0

variable (al : TranxNodeAllocator) (malloc : Option ℕ)

/-- `allocate_block`, with the block that `my_malloc` gives, and the first node of it. -/
def allocateBlock : TranxNodeAllocator × Option NodeAddr :=
  match malloc with
  | none => (al, none)
  | some b =>
    ({ al with
        usedBlocks := al.usedBlocks ++ [b]
        lastNode := 0
        blockNum := al.blockNum + 1 }, some (b, 0))

def allocateNode : TranxNodeAllocator × Option NodeAddr :=
  if al.lastNode = blockTranxNodes - 1 then
    match al.freeBlocks with
    | [] => al.allocateBlock malloc
    | b :: freeBlocks =>
      ({ al with
          usedBlocks := al.usedBlocks ++ [b]
          freeBlocks := freeBlocks
          lastNode := 0 }, some (b, 0))
  else
    match al.usedBlocks.getLast? with
    | none => al.allocateBlock malloc
    | some b => ({ al with lastNode := al.lastNode + 1 }, some (b, (al.lastNode + 1).toNat))

/-- The loop of `free_blocks`, with the number of blocks. -/
def freeLoop (reservedBlocks : ℕ) : ℕ → List ℕ → ℕ × List ℕ
  | blockNum, [] => (blockNum, [])
  | blockNum, b :: blocks =>
    if blockNum > reservedBlocks then freeLoop reservedBlocks (blockNum - 1) blocks
    else (blockNum, b :: blocks)

def freeSomeBlocks : TranxNodeAllocator :=
  match al.usedBlocks, al.freeBlocks with
  | [], _ => al
  | _, [] => al
  | _, b :: blocks =>
    { al with
      freeBlocks := b :: (freeLoop al.reservedBlocks al.blockNum blocks).2
      blockNum := (freeLoop al.reservedBlocks al.blockNum blocks).1 }

def freeAllNodes : TranxNodeAllocator :=
  freeSomeBlocks
    { al with
      usedBlocks := (al.usedBlocks ++ al.freeBlocks).take 1
      freeBlocks := (al.usedBlocks ++ al.freeBlocks).drop 1
      lastNode := -1 }

def freeNodesBefore (node : NodeAddr) : TranxNodeAllocator :=
  let before := al.usedBlocks.takeWhile (· ≠ node.1)
  let rest := al.usedBlocks.dropWhile (· ≠ node.1)
  if before = [] ∨ rest = [] then al
  else freeSomeBlocks { al with usedBlocks := rest, freeBlocks := al.freeBlocks ++ before }

/-! ## The nodes that are in use -/

def blockNodes (n b : ℕ) : List NodeAddr := (List.range n).map fun i => (b, i)

/-- All nodes of the blocks before the current one, and those of the current one up to
`last_node`. -/
def nodes : List NodeAddr :=
  al.usedBlocks.dropLast.flatMap (blockNodes blockTranxNodes) ++
    (al.usedBlocks.getLast?.map (blockNodes (al.lastNode + 1).toNat)).getD []

/-- All blocks are different, and only blocks in use have nodes. -/
structure Wf (al : TranxNodeAllocator) : Prop where
  nodup : (al.usedBlocks ++ al.freeBlocks).Nodup
  blockNum_eq : al.blockNum = (al.usedBlocks ++ al.freeBlocks).length
  lastNode_ge : -1 ≤ al.lastNode
  lastNode_le : al.lastNode ≤ 15
  empty : al.usedBlocks = [] → al.freeBlocks = [] ∧ al.lastNode = -1

variable {al : TranxNodeAllocator} {malloc : Option ℕ} {a : NodeAddr}

theorem wf_new (reservedNodes : ℕ) : (new reservedNodes).Wf where
  nodup := nodup_nil
  blockNum_eq := rfl
  lastNode_ge := le_rfl
  lastNode_le := show (-1 : ℤ) ≤ 15 by decide
  empty _ := ⟨rfl, rfl⟩

theorem mem_blockNodes {n b : ℕ} : a ∈ blockNodes n b ↔ a.1 = b ∧ a.2 < n := by
  obtain ⟨c, i⟩ := a
  simp only [blockNodes, List.mem_map, mem_range, Prod.mk.injEq]
  constructor
  · rintro ⟨j, hj, rfl, rfl⟩
    exact ⟨rfl, hj⟩
  · rintro ⟨rfl, hi⟩
    exact ⟨i, hi, rfl, rfl⟩

theorem nodes_of_concat {blocks : List ℕ} {b : ℕ} (h : al.usedBlocks = blocks ++ [b]) :
    al.nodes = blocks.flatMap (blockNodes blockTranxNodes) ++
      blockNodes (al.lastNode + 1).toNat b := by
  rw [nodes, h, dropLast_concat, List.getLast?_concat]
  rfl

theorem nodes_of_nil (h : al.usedBlocks = []) : al.nodes = [] := by
  rw [nodes, h]
  rfl

theorem nodup_blockNodes (n b : ℕ) : (blockNodes n b).Nodup := by
  apply nodup_range.map
  intro i j h
  exact congrArg Prod.snd h

theorem nodup_flatMap_blockNodes {blocks : List ℕ} (h : blocks.Nodup) (n : ℕ) :
    (blocks.flatMap (blockNodes n)).Nodup := by
  rw [nodup_flatMap]
  refine ⟨fun b _ => nodup_blockNodes n b, h.imp fun hne => ?_⟩
  intro a hb hc
  exact hne ((mem_blockNodes.1 hb).1.symm.trans (mem_blockNodes.1 hc).1)

theorem Wf.nodup_nodes (h : al.Wf) : al.nodes.Nodup := by
  have hused : al.usedBlocks.Nodup := (nodup_append.1 h.nodup).1
  rcases eq_nil_or_concat' al.usedBlocks with hnil | ⟨blocks, b, hconcat⟩
  · rw [nodes_of_nil hnil]
    exact nodup_nil
  · rw [hconcat, nodup_append] at hused
    rw [nodes_of_concat hconcat, nodup_append]
    refine ⟨nodup_flatMap_blockNodes hused.1 _, nodup_blockNodes _ b, ?_⟩
    rintro a ha _ ha' rfl
    obtain ⟨c, hc, ha⟩ := mem_flatMap.1 ha
    exact hused.2.2 c hc b mem_cons_self
      ((mem_blockNodes.1 ha).1.symm.trans (mem_blockNodes.1 ha').1)

theorem Wf.length_nodes_le (h : al.Wf) : al.nodes.length ≤ 16 * al.usedBlocks.length := by
  rcases eq_nil_or_concat' al.usedBlocks with hnil | ⟨blocks, b, hconcat⟩
  · rw [nodes_of_nil hnil]
    exact Nat.zero_le _
  · have hlast := h.lastNode_le
    have hfull : (blocks.flatMap (blockNodes blockTranxNodes)).length = 16 * blocks.length := by
      clear hconcat
      induction blocks with
      | nil => rfl
      | cons c blocks ih =>
        rw [flatMap_cons, length_append, ih, blockNodes, length_map,
          length_range, length_cons, blockTranxNodes]
        omega
    rw [nodes_of_concat hconcat, hconcat, length_append, blockNodes, length_map,
      length_range, length_append, length_singleton]
    omega

/-! ## What the operations do -/

theorem nodes_of_full (hfull : al.usedBlocks = [] ∨ al.lastNode = 15) :
    al.nodes = al.usedBlocks.flatMap (blockNodes blockTranxNodes) := by
  rcases eq_nil_or_concat' al.usedBlocks with hnil | ⟨blocks, b, hconcat⟩
  · rw [nodes_of_nil hnil, hnil]
    rfl
  · have hlast : al.lastNode = 15 := hfull.resolve_left (by simp [hconcat])
    rw [nodes_of_concat hconcat, hconcat, flatMap_append, hlast]
    rfl

theorem nodes_of_first {blocks : List ℕ} {b : ℕ} (hused : al.usedBlocks = blocks ++ [b])
    (hlast : al.lastNode = 0) :
    al.nodes = blocks.flatMap (blockNodes blockTranxNodes) ++ [(b, 0)] := by
  rw [nodes_of_concat hused, hlast]
  rfl

theorem Wf.allocateBlock (h : al.Wf) (hfree : al.freeBlocks = [])
    (hfull : al.usedBlocks = [] ∨ al.lastNode = 15)
    (hmalloc : ∀ b, malloc = some b → b ∉ al.usedBlocks) :
    (al.allocateBlock malloc).1.Wf ∧
      (al.allocateBlock malloc).1.nodes =
        al.nodes ++ (al.allocateBlock malloc).2.toList := by
  cases malloc with
  | none => exact ⟨h, (append_nil _).symm⟩
  | some b =>
    have hnum := h.blockNum_eq
    have hnodup := h.nodup
    rw [hfree, append_nil] at hnum hnodup
    refine ⟨⟨?_, ?_, ?_, ?_, ?_⟩, ?_⟩
    · simp only [TranxNodeAllocator.allocateBlock, hfree, append_nil]
      rw [nodup_append]
      refine ⟨hnodup, nodup_singleton b, ?_⟩
      rintro c hc _ hb rfl
      rw [mem_singleton] at hb
      exact hmalloc b rfl (hb ▸ hc)
    · simp [TranxNodeAllocator.allocateBlock, hfree, hnum]
    · exact show (-1 : ℤ) ≤ 0 by decide
    · exact show (0 : ℤ) ≤ 15 by decide
    · intro hnil
      exact absurd hnil (by simp [TranxNodeAllocator.allocateBlock])
    · rw [nodes_of_full hfull]
      exact nodes_of_first rfl rfl

theorem Wf.allocateNode (h : al.Wf)
    (hmalloc : ∀ b, malloc = some b → b ∉ al.usedBlocks ++ al.freeBlocks) :
    (al.allocateNode malloc).1.Wf ∧
      (al.allocateNode malloc).1.nodes = al.nodes ++ (al.allocateNode malloc).2.toList := by
  have hused (b : ℕ) (hb : malloc = some b) : b ∉ al.usedBlocks :=
    fun hmem => hmalloc b hb (mem_append_left _ hmem)
  rw [TranxNodeAllocator.allocateNode]
  split_ifs with hlast
  · cases hfree : al.freeBlocks with
    | nil => exact h.allocateBlock hfree (Or.inr hlast) hused
    | cons b freeBlocks =>
      have hnodup := h.nodup
      have hnum := h.blockNum_eq
      rw [hfree] at hnodup hnum
      refine ⟨⟨?_, ?_, ?_, ?_, ?_⟩, ?_⟩
      · simpa using hnodup
      · simpa [Nat.add_assoc, Nat.add_comm] using hnum
      · exact show (-1 : ℤ) ≤ 0 by decide
      · exact show (0 : ℤ) ≤ 15 by decide
      · intro hnil
        exact absurd hnil (by simp)
      · rw [nodes_of_full (Or.inr hlast)]
        exact nodes_of_first rfl rfl
  · have hlast : al.lastNode ≠ 15 := hlast
    have hge := h.lastNode_ge
    have hle := h.lastNode_le
    rcases eq_nil_or_concat' al.usedBlocks with hnil | ⟨blocks, b, hconcat⟩
    · have hcurrent : al.usedBlocks.getLast? = none := by rw [hnil, List.getLast?_nil]
      rw [hcurrent]
      exact h.allocateBlock (h.empty hnil).1 (Or.inl hnil) hused
    · have hcurrent : al.usedBlocks.getLast? = some b := by rw [hconcat, List.getLast?_concat]
      rw [hcurrent]
      refine ⟨⟨h.nodup, h.blockNum_eq, ?_, ?_, fun hnil => ?_⟩, ?_⟩
      · exact show (-1 : ℤ) ≤ al.lastNode + 1 by omega
      · exact show al.lastNode + 1 ≤ (15 : ℤ) by omega
      · rw [hnil] at hcurrent
        exact absurd hcurrent (by simp)
      · have hnext : (al.lastNode + 1 + 1).toNat = (al.lastNode + 1).toNat + 1 := by omega
        have hmoved : ({ al with lastNode := al.lastNode + 1 } : TranxNodeAllocator).usedBlocks =
          blocks ++ [b] := hconcat
        rw [nodes_of_concat hconcat]
        refine (nodes_of_concat hmoved).trans ?_
        rw [hnext, blockNodes, range_succ, map_append, ← append_assoc]
        rfl

theorem freeLoop_spec (reservedBlocks blockNum : ℕ) (blocks : List ℕ)
    (hle : blocks.length ≤ blockNum) :
    ∃ n, (freeLoop reservedBlocks blockNum blocks).2 = blocks.drop n ∧ n ≤ blocks.length ∧
      (freeLoop reservedBlocks blockNum blocks).1 = blockNum - n := by
  induction blocks generalizing blockNum with
  | nil => exact ⟨0, rfl, le_rfl, rfl⟩
  | cons b blocks ih =>
    rw [freeLoop]
    split_ifs with hgt
    · rw [length_cons] at hle
      obtain ⟨n, hdrop, hn, hnum⟩ := ih (blockNum - 1) (by omega)
      exact ⟨n + 1, hdrop, Nat.succ_le_succ hn, by rw [hnum]; omega⟩
    · exact ⟨0, rfl, Nat.zero_le _, rfl⟩

theorem Wf.freeSomeBlocks (h : al.Wf) :
    al.freeSomeBlocks.Wf ∧ al.freeSomeBlocks.nodes = al.nodes := by
  rw [TranxNodeAllocator.freeSomeBlocks]
  cases hused : al.usedBlocks with
  | nil => exact ⟨h, rfl⟩
  | cons c used =>
    cases hfree : al.freeBlocks with
    | nil => exact ⟨h, rfl⟩
    | cons b blocks =>
      have hnodup := h.nodup
      have hnum := h.blockNum_eq
      rw [hfree, hused] at hnodup hnum
      simp only [length_append, length_cons] at hnum
      obtain ⟨n, hdrop, hn, hleft⟩ :=
        freeLoop_spec al.reservedBlocks al.blockNum blocks (by omega)
      refine ⟨⟨?_, ?_, h.lastNode_ge, h.lastNode_le, fun hnil => ?_⟩, ?_⟩
      · dsimp only
        rw [hdrop]
        exact hnodup.sublist
          ((List.Sublist.refl _).append ((drop_sublist n blocks).cons_cons b))
      · simp only [hdrop, hleft, length_append, length_cons, length_drop]
        omega
      · exact absurd hnil (cons_ne_nil c used)
      · simp only [nodes, hused]

theorem Wf.freeAllNodes (h : al.Wf) : al.freeAllNodes.Wf ∧ al.freeAllNodes.nodes = [] := by
  have hmoved : Wf { al with
      usedBlocks := (al.usedBlocks ++ al.freeBlocks).take 1
      freeBlocks := (al.usedBlocks ++ al.freeBlocks).drop 1
      lastNode := -1 } := by
    refine ⟨?_, ?_, le_rfl, show (-1 : ℤ) ≤ 15 by decide, fun hnil => ⟨?_, rfl⟩⟩
    · rw [take_append_drop]
      exact h.nodup
    · rw [take_append_drop]
      exact h.blockNum_eq
    · have hall : al.usedBlocks ++ al.freeBlocks = [] := by
        simpa [take_eq_nil_iff] using hnil
      rw [hall]
      rfl
  refine ⟨hmoved.freeSomeBlocks.1, hmoved.freeSomeBlocks.2.trans ?_⟩
  cases hall : al.usedBlocks ++ al.freeBlocks with
  | nil => exact nodes_of_nil rfl
  | cons b blocks => exact nodes_of_concat (show _ = [] ++ [b] from rfl)

theorem Wf.freeNodesBefore (h : al.Wf) (a : NodeAddr) :
    (al.freeNodesBefore a).Wf ∧
      ∃ before, al.nodes = before ++ (al.freeNodesBefore a).nodes ∧ a ∉ before := by
  rw [TranxNodeAllocator.freeNodesBefore]
  have hsplit : al.usedBlocks.takeWhile (· ≠ a.1) ++ al.usedBlocks.dropWhile (· ≠ a.1) =
    al.usedBlocks := takeWhile_append_dropWhile
  have hbefore (b : ℕ) (hb : b ∈ al.usedBlocks.takeWhile (· ≠ a.1)) : b ≠ a.1 := by
    simpa using mem_takeWhile_imp hb
  generalize al.usedBlocks.takeWhile (· ≠ a.1) = before at hsplit hbefore
  generalize al.usedBlocks.dropWhile (· ≠ a.1) = rest at hsplit
  split_ifs with hnone
  · exact ⟨h, [], rfl, not_mem_nil⟩
  · push Not at hnone
    have hmoved : Wf { al with usedBlocks := rest, freeBlocks := al.freeBlocks ++ before } := by
      have hperm : (rest ++ (al.freeBlocks ++ before)).Perm (al.usedBlocks ++ al.freeBlocks) := by
        rw [← hsplit, append_assoc, ← append_assoc rest]
        exact perm_append_comm
      refine ⟨hperm.nodup_iff.2 h.nodup, h.blockNum_eq.trans hperm.length_eq.symm, h.lastNode_ge,
        h.lastNode_le, fun hnil => absurd hnil hnone.2⟩
    refine ⟨hmoved.freeSomeBlocks.1, before.flatMap (blockNodes blockTranxNodes), ?_, ?_⟩
    · rw [hmoved.freeSomeBlocks.2]
      rcases eq_nil_or_concat' rest with hnil | ⟨blocks, b, hconcat⟩
      · exact absurd hnil hnone.2
      · have hused : al.usedBlocks = (before ++ blocks) ++ [b] := by
          rw [← hsplit, hconcat, append_assoc]
        have hrest : ({ al with usedBlocks := rest, freeBlocks := al.freeBlocks ++ before } :
          TranxNodeAllocator).usedBlocks = blocks ++ [b] := hconcat
        rw [nodes_of_concat hused, nodes_of_concat hrest, flatMap_append, append_assoc]
    · intro ha
      obtain ⟨b, hb, ha⟩ := mem_flatMap.1 ha
      exact hbefore b hb (mem_blockNodes.1 ha).1.symm

end TranxNodeAllocator

end MySQL.Semisync
