import MySQL.Semisync.ActiveTranx

/-!
# The list and the hash table of active transactions

The nodes of the list are in the order of the binary log, each of them is in the chain of its hash
value, and all of them are in memory that is in use.
-/

namespace MySQL.Semisync

open List Function

open MySQL.Lib

namespace ActiveTranx

def Hashed (s : ActiveTranx) (l : List NodeAddr) : Prop :=
  ∀ h < s.numEntries, ∃ c, Thread s.hashNext (s.trxHtb h) c none ∧ c.Nodup ∧
    ∀ a, a ∈ c ↔ a ∈ l ∧ getHashValue s.numEntries (s.logPos a) = h

/-- The list from `trx_front_` to `trx_rear_`. -/
structure Holds (s : ActiveTranx) (l : List NodeAddr) : Prop where
  entries_pos : 0 < s.numEntries
  wf : s.allocator.Wf
  sublist : l.Sublist s.allocator.nodes
  list : Thread s.next s.trxFront l none
  rear : s.trxRear = l.getLast?
  increasing : l.Pairwise fun a b => s.logPos a < s.logPos b
  hashed : s.Hashed l

variable {s : ActiveTranx} {l m : List NodeAddr} {a : NodeAddr} {p : LogPos} {malloc : Option ℕ}

theorem getHashValue_lt (hpos : 0 < s.numEntries) (p : LogPos) :
    getHashValue s.numEntries p < s.numEntries := Nat.mod_lt _ hpos

theorem Holds.nodup (h : s.Holds l) : l.Nodup := h.wf.nodup_nodes.sublist h.sublist

theorem length_le_fuel (hwf : s.allocator.Wf) (hm : m.Nodup)
    (hsub : ∀ a ∈ m, a ∈ s.allocator.nodes) : m.length ≤ s.fuel :=
  (subperm_of_subset hm hsub).length_le.trans hwf.length_nodes_le

theorem Holds.length_le (h : s.Holds l) : l.length ≤ s.fuel :=
  length_le_fuel h.wf h.nodup fun _ ha => h.sublist.subset ha

/-! ## Searching -/

theorem Holds.isTranxEndPos_iff (h : s.Holds l) :
    s.isTranxEndPos p = true ↔ p ∈ l.map s.logPos := by
  obtain ⟨c, hthread, hnodup, hmem⟩ := h.hashed _ (getHashValue_lt h.entries_pos p)
  have hfuel : c.length ≤ s.fuel :=
    length_le_fuel h.wf hnodup fun a ha => h.sublist.subset ((hmem a).1 ha).1
  rw [isTranxEndPos, hthread.search_eq hfuel, List.find?_isSome, List.mem_map]
  constructor
  · rintro ⟨a, ha, heq⟩
    exact ⟨a, ((hmem a).1 ha).1, LogPos.compare_eq_eq.1 (of_decide_eq_true heq)⟩
  · rintro ⟨a, ha, rfl⟩
    exact ⟨a, (hmem a).2 ⟨ha, rfl⟩, decide_eq_true (LogPos.compare_eq_eq.2 rfl)⟩

/-! ## Insertion -/

theorem Hashed.congr {s' : ActiveTranx} (h : s.Hashed l) (hnum : s'.numEntries = s.numEntries)
    (hhtb : s'.trxHtb = s.trxHtb) (hnext : ∀ a ∈ l, s'.hashNext a = s.hashNext a)
    (hpos : ∀ a ∈ l, s'.logPos a = s.logPos a) : s'.Hashed l := by
  intro i hi
  rw [hnum] at hi
  obtain ⟨c, hthread, hnodup, hmem⟩ := h i hi
  refine ⟨c, ?_, hnodup, fun a => ?_⟩
  · rw [hhtb]
    exact hthread.congr fun a ha => hnext a ((hmem a).1 ha).1
  · rw [hmem, hnum]
    apply and_congr_right
    intro ha
    rw [hpos a ha]

theorem Hashed.hashNode (h : s.Hashed l) (ha : a ∉ l) (hm : ∀ b, b ∈ m ↔ b = a ∨ b ∈ l) :
    (s.hashNode a).Hashed m := by
  intro i hi
  obtain ⟨c, hthread, hnodup, hmem⟩ := h i hi
  have hac : a ∉ c := fun hc => ha ((hmem a).1 hc).1
  have hrest : Thread (s.hashNode a).hashNext (s.trxHtb i) c none :=
    hthread.congr fun b hb => update_of_ne (ne_of_mem_of_not_mem hb hac) ..
  by_cases hhash : getHashValue s.numEntries (s.logPos a) = i
  · subst hhash
    refine ⟨a :: c, ⟨update_self .., ?_⟩, nodup_cons.2 ⟨hac, hnodup⟩, fun b => ?_⟩
    · have hnext : (s.hashNode a).hashNext a =
          s.trxHtb (getHashValue s.numEntries (s.logPos a)) := update_self ..
      rw [hnext]
      exact hrest
    · rw [mem_cons, hmem, hm, or_and_right]
      apply or_congr_left
      rw [iff_self_and]
      rintro rfl
      rfl
  · refine ⟨c, ?_, hnodup, fun b => ?_⟩
    · have hhtb : (s.hashNode a).trxHtb i = s.trxHtb i :=
        update_of_ne (fun heq => hhash heq.symm) ..
      rw [hhtb]
      exact hrest
    · rw [hmem, hm, or_and_right]
      refine (or_iff_right ?_).symm
      rintro ⟨rfl, heq⟩
      exact hhash heq

theorem Hashed.unhashNode (h : s.Hashed (a :: l)) (hpos : 0 < s.numEntries) (ha : a ∉ l)
    (hfuel : ∀ c : List NodeAddr, c.Nodup → (∀ b ∈ c, b ∈ a :: l) → c.length ≤ s.fuel) :
    (s.unhashNode a).Hashed l := by
  obtain ⟨c, hthread, hnodup, hmem⟩ := h _ (getHashValue_lt hpos (s.logPos a))
  have hac : a ∈ c := (hmem a).2 ⟨mem_cons_self, rfl⟩
  have hlength : c.length ≤ s.fuel := hfuel c hnodup fun b hb => ((hmem b).1 hb).1
  obtain ⟨c₁, c₂, rfl⟩ := append_of_mem hac
  rw [length_append, length_cons] at hlength
  obtain ⟨hunlinked, hother⟩ :=
    hthread.unlink hnodup (show c₁.length < s.fuel by omega)
  obtain ⟨hnodup₁, hnodup₂, hdisjoint⟩ := nodup_append.1 hnodup
  obtain ⟨hac₂, hnodup₂⟩ := nodup_cons.1 hnodup₂
  intro i hi
  by_cases hhash : getHashValue s.numEntries (s.logPos a) = i
  · subst hhash
    refine ⟨c₁ ++ c₂, ?_, ?_, fun b => ?_⟩
    · have hhtb := update_self (getHashValue s.numEntries (s.logPos a))
        (unlinkFrom (s.trxHtb (getHashValue s.numEntries (s.logPos a))) s.hashNext a s.fuel
          .start).1 s.trxHtb
      rw [ActiveTranx.unhashNode]
      dsimp only
      rw [hhtb]
      exact hunlinked
    · exact nodup_append.2 ⟨hnodup₁, hnodup₂,
        fun b hb b' hb' => hdisjoint b hb b' (mem_cons_of_mem a hb')⟩
    · have hb := hmem b
      rw [mem_append, mem_cons, mem_cons] at hb
      rw [mem_append]
      constructor
      · intro hb'
        obtain ⟨hl, hhash⟩ := hb.1 (hb'.imp_right Or.inr)
        refine ⟨hl.resolve_left ?_, hhash⟩
        rintro rfl
        rcases hb' with hb₁ | hb₂
        · exact hdisjoint b hb₁ b mem_cons_self rfl
        · exact hac₂ hb₂
      · rintro ⟨hl, hhash⟩
        refine (hb.2 ⟨Or.inr hl, hhash⟩).imp_right fun hb' => hb'.resolve_left ?_
        rintro rfl
        exact ha hl
  · -- nodes with another hash value are in other chains
    obtain ⟨d, hdthread, hdnodup, hdmem⟩ := h i hi
    refine ⟨d, ?_, hdnodup, fun b => ?_⟩
    · have hhtb : (s.unhashNode a).trxHtb i = s.trxHtb i :=
        update_of_ne (fun heq => hhash heq.symm) ..
      rw [hhtb]
      refine hdthread.congr fun b hb => hother b fun hb₁ => hhash ?_
      rw [← ((hmem b).1 (mem_append_left _ hb₁)).2, ((hdmem b).1 hb).2]
    · rw [hdmem, mem_cons]
      refine and_congr_left fun heq => or_iff_right ?_
      rintro rfl
      exact hhash heq

theorem Holds.allocate (h : s.Holds l) (hmalloc : ∀ b, malloc = some b →
      b ∉ s.allocator.usedBlocks ++ s.allocator.freeBlocks) :
    (s.allocator.allocateNode malloc).1.Wf ∧
      (s.allocator.allocateNode malloc).1.nodes =
        s.allocator.nodes ++ (s.allocator.allocateNode malloc).2.toList ∧
      ∀ a, (s.allocator.allocateNode malloc).2 = some a → a ∉ l := by
  obtain ⟨hwf, hnodes⟩ := h.wf.allocateNode hmalloc
  refine ⟨hwf, hnodes, fun a ha hal => ?_⟩
  have hnodup := hwf.nodup_nodes
  rw [hnodes, ha] at hnodup
  exact (nodup_append.1 hnodup).2.2 a (h.sublist.subset hal) a mem_cons_self rfl

theorem Holds.filled (h : s.Holds l) (ha : a ∉ l) {allocator : TranxNodeAllocator}
    (hwf : allocator.Wf) (hnodes : s.allocator.nodes.Sublist allocator.nodes) :
    (fillNode { s with allocator := allocator } a p).Holds l := by
  have hne {b : NodeAddr} (hb : b ∈ l) : b ≠ a := ne_of_mem_of_not_mem hb ha
  have hpos {b : NodeAddr} (hb : b ∈ l) :
      (ActiveTranx.fillNode { s with allocator := allocator } a p).logPos b = s.logPos b :=
    update_of_ne (hne hb) ..
  refine ⟨h.entries_pos, hwf, h.sublist.trans hnodes, ?_, h.rear, ?_, ?_⟩
  · exact h.list.congr fun b hb => update_of_ne (hne hb) ..
  · refine h.increasing.imp_of_mem fun hb hc hlt => ?_
    rw [hpos hb, hpos hc]
    exact hlt
  · exact h.hashed.congr rfl rfl (fun b hb => update_of_ne (hne hb) ..) fun b hb => hpos hb

theorem Holds.append (h : s.Holds l) (ha : a ∉ l) (hmem : (l ++ [a]).Sublist s.allocator.nodes)
    (hlast : ∀ b ∈ l, s.logPos b < s.logPos a) :
    ∀ front next, Thread next front (l ++ [a]) none →
      (hashNode { s with trxFront := front, next := next, trxRear := some a } a).Holds
        (l ++ [a]) := by
  intro front next hthread
  refine ⟨h.entries_pos, h.wf, hmem, hthread, List.getLast?_concat.symm, ?_, ?_⟩
  · rw [pairwise_append]
    exact ⟨h.increasing, pairwise_singleton _ a, fun b hb c hc =>
      mem_singleton.1 hc ▸ hlast b hb⟩
  · apply Hashed.hashNode (h.hashed.congr rfl rfl (fun _ _ => rfl) fun _ _ => rfl) ha
    intro b
    rw [mem_append, mem_singleton, or_comm]

/-- The list and the hash table are as before. -/
structure Unchanged (s : ActiveTranx) (l : List NodeAddr) (s' : ActiveTranx) : Prop where
  front : s'.trxFront = s.trxFront
  rear : s'.trxRear = s.trxRear
  table : s'.trxHtb = s.trxHtb
  nodes : ∀ a ∈ l, s'.logPos a = s.logPos a ∧ s'.next a = s.next a ∧ s'.hashNext a = s.hashNext a

theorem Holds.linkNode (h : s.Holds l) (ha : a ∉ l)
    (hmem : (l ++ [a]).Sublist s.allocator.nodes) (hnext : s.next a = none) :
    ((∀ b ∈ l, s.logPos b < s.logPos a) ∧ (s.linkNode a).2 = 0 ∧
        (s.linkNode a).1.Holds (l ++ [a]) ∧ (s.linkNode a).1.logPos = s.logPos ∧
        (s.linkNode a).1.numEntries = s.numEntries) ∨
      (∃ b ∈ l, s.logPos a ≤ s.logPos b) ∧ s.linkNode a = (s, -1) := by
  rw [ActiveTranx.linkNode]
  rcases eq_nil_or_concat' l with rfl | ⟨l, rear, rfl⟩
  · have hfront : s.trxFront = none := h.list
    rw [hfront]
    refine Or.inl ⟨fun b hb => absurd hb not_mem_nil, rfl, ?_, rfl, rfl⟩
    exact h.append ha hmem (fun b hb => absurd hb not_mem_nil) (some a) s.next ⟨rfl, hnext⟩
  · have hrear : s.trxRear = some rear := h.rear.trans List.getLast?_concat
    obtain ⟨b, hfront⟩ : ∃ b, s.trxFront = some b := by
      rw [h.list.eq_head?]
      cases l with
      | nil => exact ⟨rear, rfl⟩
      | cons b l => exact ⟨b, rfl⟩
    rw [hfront, hrear]
    dsimp only
    split_ifs with hcmp
    · rw [LogPos.compare_eq_gt] at hcmp
      have hlast : ∀ b ∈ l ++ [rear], s.logPos b < s.logPos a :=
        forall_mem_append.2 ⟨fun b hb =>
          lt_trans ((pairwise_append.1 h.increasing).2.2 b hb rear mem_cons_self) hcmp,
          forall_mem_singleton.2 hcmp⟩
      refine Or.inl ⟨hlast, rfl, ?_, rfl, rfl⟩
      obtain ⟨hlist, -⟩ := thread_concat.1 (hfront ▸ h.list)
      have hrearl : rear ∉ l := by
        intro hmem
        exact (nodup_append.1 h.nodup).2.2 rear hmem rear mem_cons_self rfl
      have hne : a ≠ rear := by
        rintro rfl
        exact ha (mem_append_right l mem_cons_self)
      have hthread : Thread (update s.next rear (some a)) (some b)
          (l ++ [rear] ++ [a]) none := by
        refine thread_concat.2 ⟨thread_concat.2 ⟨?_, update_self ..⟩, ?_⟩
        · exact hlist.congr fun c hc => update_of_ne (ne_of_mem_of_not_mem hc hrearl) ..
        · rw [update_of_ne hne]
          exact hnext
      exact h.append ha hmem hlast (some b) _ hthread
    · rw [LogPos.compare_eq_gt, not_lt] at hcmp
      exact Or.inr ⟨⟨rear, mem_append_right l mem_cons_self, hcmp⟩, rfl⟩

/-- What an insertion does: it is refused, or there is a new last node. -/
inductive InsertEffect (s : ActiveTranx) (l : List NodeAddr) (malloc : Option ℕ) (p : LogPos) :
    ActiveTranx × ℤ → Prop
  | refused {s' : ActiveTranx} (holds : s'.Holds l) (same : s.Unchanged l s')
      (numEntries : s'.numEntries = s.numEntries)
      (reason : (s.allocator.allocateNode malloc).2 = none ∨
        ∃ a ∈ l, storedPos p ≤ s.logPos a) : InsertEffect s l malloc p (s', -1)
  | appended {s' : ActiveTranx} {a : NodeAddr} (holds : s'.Holds (l ++ [a]))
      (numEntries : s'.numEntries = s.numEntries) (new : s'.logPos a = storedPos p)
      (old : ∀ b ∈ l, s'.logPos b = s.logPos b) (last : ∀ b ∈ l, s.logPos b < storedPos p) :
      InsertEffect s l malloc p (s', 0)

theorem Holds.insertTranxNode (h : s.Holds l)
    (hmalloc : ∀ b, malloc = some b → b ∉ s.allocator.usedBlocks ++ s.allocator.freeBlocks) :
    InsertEffect s l malloc p (s.insertTranxNode malloc p) := by
  obtain ⟨hwf, hnodes, hfresh⟩ := h.allocate hmalloc
  rw [ActiveTranx.insertTranxNode]
  rcases hallocate : s.allocator.allocateNode malloc with ⟨allocator, node⟩
  rw [hallocate] at hwf hnodes hfresh
  cases node with
  | none =>
    refine .refused ⟨h.entries_pos, hwf, ?_, h.list, h.rear, h.increasing, h.hashed⟩
      ⟨rfl, rfl, rfl, fun _ _ => ⟨rfl, rfl, rfl⟩⟩ rfl (Or.inl (by rw [hallocate]))
    rw [hnodes]
    exact h.sublist.trans (sublist_append_left _ _)
  | some a =>
    have ha : a ∉ l := hfresh a rfl
    have hsub : s.allocator.nodes.Sublist allocator.nodes := by
      rw [hnodes]
      exact sublist_append_left _ _
    have hmem : (l ++ [a]).Sublist allocator.nodes := by
      rw [hnodes]
      exact h.sublist.append (List.Sublist.refl _)
    have hpos (b : NodeAddr) (hb : b ∈ l) :
        (fillNode { s with allocator := allocator } a p).logPos b = s.logPos b :=
      update_of_ne (ne_of_mem_of_not_mem hb ha) ..
    have hnew : (fillNode { s with allocator := allocator } a p).logPos a = storedPos p :=
      update_self ..
    have hfilled : (fillNode { s with allocator := allocator } a p).Holds l :=
      h.filled ha hwf hsub
    dsimp only
    rcases hfilled.linkNode ha hmem (update_self ..) with
      ⟨hlast, hr, hholds, hkept, hnum⟩ | ⟨⟨b, hb, hle⟩, hlink⟩
    · rcases hlink : ActiveTranx.linkNode (fillNode { s with allocator := allocator } a p) a
        with ⟨s', r⟩
      rw [hlink] at hr hholds hkept hnum
      subst hr
      refine .appended hholds hnum ?_ (fun b hb => ?_) fun b hb => ?_
      · rw [hkept, hnew]
      · rw [hkept, hpos b hb]
      · rw [← hnew, ← hpos b hb]
        exact hlast b hb
    · rw [hlink]
      refine .refused hfilled ⟨rfl, rfl, rfl, fun b hb => ⟨hpos b hb, ?_, ?_⟩⟩ rfl
        (Or.inr ⟨b, hb, ?_⟩)
      · exact update_of_ne (ne_of_mem_of_not_mem hb ha) ..
      · exact update_of_ne (ne_of_mem_of_not_mem hb ha) ..
      · rw [← hnew, ← hpos b hb]
        exact hle

/-! ## Clearing -/

theorem Hashed.unhashUntil {l₁ l₂ : List NodeAddr} {front newFront : Option NodeAddr} {n : ℕ}
    (h : s.Hashed (l₁ ++ l₂)) (hpos : 0 < s.numEntries) (hwf : s.allocator.Wf)
    (hsub : (l₁ ++ l₂).Sublist s.allocator.nodes) (hlist : Thread s.next front (l₁ ++ l₂) none)
    (hfront : newFront = l₂.head?) (hn : l₁.length ≤ n) :
    ∃ htb hashNext, s.unhashUntil newFront n front =
        { s with trxHtb := htb, hashNext := hashNext } ∧
      ({ s with trxHtb := htb, hashNext := hashNext } : ActiveTranx).Hashed l₂ := by
  induction l₁ generalizing s front n with
  | nil =>
    have heq : front = newFront := hlist.eq_head?.trans hfront.symm
    refine ⟨s.trxHtb, s.hashNext, ?_, h⟩
    cases n with
    | zero => rfl
    | succ n => exact if_pos heq
  | cons a l₁ ih =>
    obtain ⟨n, rfl⟩ := Nat.exists_eq_succ_of_ne_zero (Nat.ne_zero_of_lt hn)
    obtain ⟨rfl, hrest⟩ := hlist
    obtain ⟨ha, hnodup⟩ := nodup_cons.1 (hwf.nodup_nodes.sublist hsub)
    have hne : some a ≠ newFront := by
      rw [hfront]
      intro heq
      exact ha (mem_append_right l₁ (List.mem_of_head? heq.symm))
    have hhashed : (s.unhashNode a).Hashed (l₁ ++ l₂) :=
      Hashed.unhashNode h hpos ha fun c hc hmem =>
        length_le_fuel hwf hc fun b hb => hsub.subset (hmem b hb)
    obtain ⟨htb, hashNext, heq, hleft⟩ := ih hhashed hpos hwf
      ((sublist_cons_self a _).trans hsub) hrest (Nat.le_of_succ_le_succ hn)
    refine ⟨htb, hashNext, ?_, hleft⟩
    rw [ActiveTranx.unhashUntil, if_neg hne]
    exact heq

def Cleared (upTo : Option LogPos) (p : LogPos) : Prop :=
  match upTo with
  | none => True
  | some q => p ≤ q

instance (upTo : Option LogPos) (p : LogPos) : Decidable (Cleared upTo p) :=
  match upTo with
  | none => inferInstanceAs (Decidable True)
  | some q => inferInstanceAs (Decidable (p ≤ q))

theorem Holds.split (h : s.Holds l) (q : LogPos) :
    ∃ l₁ l₂, l = l₁ ++ l₂ ∧ (∀ a ∈ l₁, s.logPos a ≤ q) ∧ ∀ a ∈ l₂, q < s.logPos a := by
  have hincreasing := h.increasing
  clear h
  induction l with
  | nil => exact ⟨[], [], rfl, by simp, by simp⟩
  | cons a l ih =>
    obtain ⟨ha, hrest⟩ := pairwise_cons.1 hincreasing
    rcases le_or_gt (s.logPos a) q with hle | hgt
    · obtain ⟨l₁, l₂, rfl, h₁, h₂⟩ := ih hrest
      exact ⟨a :: l₁, l₂, rfl, forall_mem_cons.2 ⟨hle, h₁⟩, h₂⟩
    · exact ⟨[], a :: l, rfl, by simp, forall_mem_cons.2 ⟨hgt, fun b hb =>
        hgt.trans (ha b hb)⟩⟩

theorem Holds.clearAll (h : s.Holds l) :
    Holds { s with
      trxHtb := fun idx => if idx < s.numEntries then none else s.trxHtb idx
      allocator := s.allocator.freeAllNodes
      trxFront := none
      trxRear := none } [] := by
  refine ⟨h.entries_pos, h.wf.freeAllNodes.1, nil_sublist _, rfl, rfl, List.Pairwise.nil, ?_⟩
  intro i hi
  refine ⟨[], if_pos hi, nodup_nil, fun a => ?_⟩
  exact iff_of_false not_mem_nil fun ha => not_mem_nil ha.1

theorem Holds.cut {l₁ l₂ : List NodeAddr} {b : NodeAddr} (h : s.Holds (l₁ ++ b :: l₂))
    (htb : ℕ → Option NodeAddr) (hashNext : NodeAddr → Option NodeAddr)
    (hhashed : ({ s with trxHtb := htb, hashNext := hashNext } : ActiveTranx).Hashed (b :: l₂)) :
    Holds { s with
      trxHtb := htb
      hashNext := hashNext
      trxFront := some b
      allocator := s.allocator.freeNodesBefore b } (b :: l₂) := by
  obtain ⟨hwf, before, hnodes, hbefore⟩ := h.wf.freeNodesBefore b
  have hsub : (b :: l₂).Sublist (before ++ (s.allocator.freeNodesBefore b).nodes) :=
    hnodes ▸ (sublist_append_right l₁ _).trans h.sublist
  refine ⟨h.entries_pos, hwf, ?_, ?_, ?_, (pairwise_append.1 h.increasing).2.1, hhashed⟩
  · obtain ⟨m₁, m₂, hm, hm₁, hm₂⟩ := sublist_append_iff.1 hsub
    cases m₁ with
    | nil => exact hm ▸ hm₂
    | cons c m₁ =>
      obtain rfl : b = c := (List.cons.inj hm).1
      exact absurd (hm₁.subset mem_cons_self) hbefore
  · obtain ⟨y, -, hrest⟩ := thread_append.1 h.list
    exact hrest.1 ▸ hrest
  · exact h.rear.trans (List.getLast?_append_of_ne_nil _ (cons_ne_nil b l₂))

theorem Holds.clearActiveTranxNodes (h : s.Holds l) (upTo : Option LogPos) :
    (s.clearActiveTranxNodes upTo).Holds (l.filter fun a => ¬Cleared upTo (s.logPos a)) ∧
      (s.clearActiveTranxNodes upTo).logPos = s.logPos ∧
      (s.clearActiveTranxNodes upTo).numEntries = s.numEntries := by
  cases upTo with
  | none =>
    have hnone : (l.filter fun a => ¬Cleared none (s.logPos a)) = [] := by
      simp [Cleared]
    rw [hnone]
    exact ⟨h.clearAll, rfl, rfl⟩
  | some q =>
    obtain ⟨l₁, l₂, rfl, h₁, h₂⟩ := h.split q
    have hkept : ((l₁ ++ l₂).filter fun a => ¬Cleared (some q) (s.logPos a)) = l₂ := by
      rw [filter_append, filter_eq_nil_iff.2, filter_eq_self.2, nil_append]
      · intro a ha
        exact decide_eq_true (not_le.2 (h₂ a ha))
      · intro a ha hnot
        exact of_decide_eq_true hnot (h₁ a ha)
    have hsearch : search s.next (fun node => (s.logPos node).compare q = .gt) s.fuel s.trxFront =
        l₂.head? := by
      have hnone : l₁.find? (fun node => (s.logPos node).compare q = .gt) = none := by
        rw [List.find?_eq_none]
        intro a ha hgt
        exact not_lt.2 (h₁ a ha) (LogPos.compare_eq_gt.1 (of_decide_eq_true hgt))
      rw [h.list.search_eq h.length_le, List.find?_append, hnone, Option.none_or]
      cases l₂ with
      | nil => rfl
      | cons b l₂ =>
        exact List.find?_cons_of_pos
          (decide_eq_true (LogPos.compare_eq_gt.2 (h₂ b mem_cons_self)))
    rw [hkept, ActiveTranx.clearActiveTranxNodes, hsearch]
    cases l₂ with
    | nil => exact ⟨h.clearAll, rfl, rfl⟩
    | cons b l₂ =>
      have hhead := h.list.eq_head?
      rw [List.head?_cons, clearBefore]
      by_cases hfront : some b = s.trxFront
      · -- a node in front of the first one would be the same node
        rw [if_pos hfront]
        have hl₁ : l₁ = [] := by
          cases l₁ with
          | nil => rfl
          | cons c l₁ =>
            obtain rfl : b = c := Option.some.inj (hfront.trans hhead)
            exact absurd (mem_append_right l₁ mem_cons_self)
              (nodup_cons.1 h.nodup).1
        rw [hl₁] at h
        exact ⟨h, rfl, rfl⟩
      · rw [if_neg hfront]
        have hlength : l₁.length ≤ s.fuel := by
          have := h.length_le
          rw [length_append] at this
          omega
        have hnew : some b = (b :: l₂).head? := rfl
        obtain ⟨htb, hashNext, heq, hhashed⟩ := Hashed.unhashUntil h.hashed h.entries_pos h.wf
          h.sublist h.list hnew hlength
        rw [heq]
        exact ⟨h.cut htb hashNext hhashed, rfl, rfl⟩

end ActiveTranx

end MySQL.Semisync
