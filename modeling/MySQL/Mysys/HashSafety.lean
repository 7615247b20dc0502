import MySQL.Mysys.HashRuns

/-!
# Every sequence of calls

A program that inserts, deletes and updates records, from an empty table on.  An update moves one
slot, so a record that is updated may be in the table only once; and there has to be a slot.
-/

namespace MySQL.Mysys

open Lib List Function

variable {ρ κ : Type*}

/-! ## The statement of `my_hash_check` -/

def Linked (array : ℕ → HashLink ρ) : List ℕ → Prop
  | [] => True
  | i :: l => (array i).next = l.head? ∧ Linked array l

/-- The sizes are right, and every slot is on exactly one chain, the one of its key. -/
structure Hash.WellFormed (ops : KeyOps κ) (key : ρ → κ) (h : Hash ρ) : Prop where
  pow : ∃ j, h.blength = 2 ^ j
  half_le : h.blength / 2 ≤ h.records
  lt : h.records < h.blength
  chains : ∃ chain : ℕ → List ℕ, ∀ b, Linked h.array (chain b) ∧ (chain b).Nodup ∧
    (∀ i, (chain b).head? = some i → i = b) ∧
    ∀ i, i ∈ chain b ↔
      i < h.records ∧ myHashRecMask ops key (h.array i) h.blength h.records = b

variable {ops : KeyOps κ} {key : ρ → κ} {h : Hash ρ} {content : Multiset ρ}

theorem linked_slots {array : ℕ → HashLink ρ} {l : List (ℕ × ρ)} (hseg : Seg array l none) :
    Linked array (slots l) := by
  induction l with
  | nil => trivial
  | cons p l ih =>
    refine ⟨?_, ih hseg.2⟩
    rw [hseg.1]
    cases l <;> rfl

theorem Hash.Inv.wellFormed (I : h.Inv ops key content) : h.WellFormed ops key := by
  obtain ⟨chains, T, -⟩ := I.table
  refine ⟨I.pow, I.half_le, I.lt, fun b => slots (chains b), fun b =>
    ⟨linked_slots (T.seg b), T.nodup_slots b, fun i hi => ?_, fun i => ?_⟩⟩
  · change ((chains b).map Prod.fst).head? = some i at hi
    rw [List.head?_map, Option.map_eq_some_iff] at hi
    obtain ⟨p, hp, rfl⟩ := hi
    exact T.head b p hp
  · constructor
    · intro hi
      have hused := (T.used_iff i).mpr ⟨b, hi⟩
      exact ⟨hused.1, T.chain_unique (mem_slots_of_mem (T.mem_chain hused)) hi⟩
    · rintro ⟨hi, hb⟩
      have hmem := mem_slots_of_mem (T.mem_chain ⟨hi, by simp⟩)
      exact hb ▸ hmem

/-! ## The check itself -/

theorem checkChain_seg {l : List (ℕ × ρ)} {i found fuel : ℕ} (hseg : Seg h.array l none)
    (hmem : ∀ p ∈ l, p.1 < h.records ∧ homeAt ops key h.blength h.records p.2 = i)
    (hfound : found + l.length ≤ h.records) (hfuel : l.length ≤ fuel) :
    checkChain ops key h i fuel (found, false) (first l none) = (found + l.length, false) := by
  induction l generalizing found fuel with
  | nil => cases fuel <;> rfl
  | cons p l ih =>
    obtain ⟨fuel, rfl⟩ := Nat.exists_eq_succ_of_ne_zero
      (Nat.ne_zero_of_lt (Nat.lt_of_lt_of_le l.length.succ_pos hfuel))
    rw [forall_mem_cons] at hmem
    obtain ⟨⟨hlt, hhome⟩, hmem⟩ := hmem
    rw [length_cons] at hfound hfuel
    have hmask : ¬ myHashRecMask ops key (h.array p.1) h.blength h.records ≠ i := by
      rw [not_not, hseg.1]
      exact hhome
    have hbound : ¬ h.records ≤ p.1 := Nat.not_le.mpr hlt
    simp only [first, checkChain, if_neg hmask, hbound, decide_false, Bool.or_false]
    rw [if_pos (by omega), hseg.1, ih hseg.2 hmem (by omega) (by omega), length_cons]
    congr 1
    omega

theorem card_recs (l : List (ℕ × ρ)) : (recs l).card = l.length := by
  rw [recs, Multiset.coe_card, length_map]

theorem card_total_mono (chains : ℕ → List (ℕ × ρ)) {m n : ℕ} (hmn : m ≤ n) :
    (total m chains).card ≤ (total n chains).card := by
  induction hmn with
  | refl => exact le_rfl
  | step _ ih =>
    rw [total_succ, Multiset.card_add]
    exact ih.trans (Nat.le_add_right _ _)

theorem Hash.Inv.check (I : h.Inv ops key content) : myHashCheck ops key h = false := by
  obtain ⟨chains, T, -⟩ := I.table
  have hcard : (total h.records chains).card = h.records := by
    rw [← T.stored_eq, Multiset.card_map, Multiset.card_range]
  -- the loop has found all records of the chains that begin below `m`
  have hslots : ∀ m, m ≤ h.records →
      checkSlots ops key h m = ((total m chains).card, false) := by
    intro m
    induction m with
    | zero => exact fun _ => rfl
    | succ m ih =>
      intro hm
      have hsum := card_total_mono chains hm
      rw [total_succ, Multiset.card_add, card_recs] at hsum
      rw [checkSlots, ih (Nat.le_of_succ_le hm), total_succ, Multiset.card_add, card_recs]
      dsimp only
      split_ifs with hown
      · obtain ⟨l, hl⟩ := T.cons_of_home ⟨hm, by simp⟩ hown
        have hseg := T.seg m
        have hlen := T.length_le m
        rw [hl, length_cons] at hlen hsum
        rw [hl] at hseg
        have hnext : (h.array m).next = first l none := congrArg Cell.next hseg.1
        rw [hnext, checkChain_seg hseg.2 (fun p hp => ?_) (by omega) (by omega), hl,
          length_cons]
        · congr 1
          omega
        · have hp' : p ∈ chains m := hl ▸ mem_cons_of_mem _ hp
          exact ⟨(T.used hp').1, T.home_eq m p hp'⟩
      · rw [T.nil_of_not_home fun _ => hown]
        rfl
  rw [myHashCheck, hslots _ le_rfl, hcard]
  simp

/-! ## Distinct keys -/

def Distinct (ops : KeyOps κ) (key : ρ → κ) (content : Multiset ρ) : Prop :=
  ∀ k, (content.filter fun d => ops.same (key d) k = true).card ≤ 1

theorem distinct_cons {record : ρ} (hd : Distinct ops key content)
    (hnone : ¬ ∃ d ∈ content, ops.same (key d) (key record) = true) :
    Distinct ops key (record ::ₘ content) := by
  intro k
  by_cases hsame : ops.same (key record) k = true
  · have hzero : content.filter (fun d => ops.same (key d) k = true) = 0 := by
      refine Multiset.filter_eq_nil.mpr fun d hmem hdk => ?_
      exact hnone ⟨d, hmem, ops.equivalence.trans hdk (ops.equivalence.symm hsame)⟩
    rw [Multiset.filter_cons, if_pos hsame, hzero, add_zero, Multiset.card_singleton]
  · rw [Multiset.filter_cons, if_neg hsame, zero_add]
    exact hd k

theorem distinct_update [DecidableEq ρ] {record : ρ} {newKey : κ} (hd : Distinct ops key content)
    (honce : content.count record ≤ 1)
    (hnone : ¬ ∃ d ∈ content, d ≠ record ∧ ops.same (key d) newKey = true) :
    Distinct ops (update key record newKey) content := by
  intro k
  by_cases hsame : ops.same newKey k = true
  · -- the record is the only one with the new key
    have hiff : ∀ d ∈ content,
        (ops.same (update key record newKey d) k = true ↔ record = d) := by
      intro d hmem
      by_cases hdr : d = record
      · rw [hdr, update_self]
        exact iff_of_true hsame rfl
      · rw [update_of_ne hdr]
        refine iff_of_false (fun hdk => ?_) (Ne.symm hdr)
        exact hnone ⟨d, hmem, hdr, ops.equivalence.trans hdk (ops.equivalence.symm hsame)⟩
    rwa [Multiset.filter_congr hiff, ← Multiset.count_eq_card_filter_eq]
  · refine (Multiset.card_le_card ?_).trans (hd k)
    refine Multiset.monotone_filter_right content fun d hdk => ?_
    have hne : d ≠ record := by
      rintro rfl
      rw [update_self] at hdk
      exact hsame hdk
    rwa [update_of_ne hne] at hdk

theorem Distinct.slots (hd : Distinct ops key h.stored) {i j : ℕ} (hi : i < h.records)
    (hj : j < h.records) (hij : i ≠ j) :
    ops.same (key (h.array i).data) (key (h.array j).data) = false := by
  rw [Bool.eq_false_iff]
  intro hsame
  have hle : ({i, j} : Multiset ℕ) ≤ Multiset.range h.records := by
    refine (Multiset.le_iff_subset (by simpa using hij)).mpr fun m hm => ?_
    rw [Multiset.insert_eq_cons, Multiset.mem_cons, Multiset.mem_singleton] at hm
    rcases hm with rfl | rfl
    · exact Multiset.mem_range.mpr hi
    · exact Multiset.mem_range.mpr hj
  have hpair := Multiset.card_le_card (Multiset.filter_le_filter
    (fun d => ops.same (key d) (key (h.array j).data) = true)
    (Multiset.map_le_map hle (f := fun i => (h.array i).data)))
  have hrefl : ops.same (key (h.array j).data) (key (h.array j).data) = true :=
    ops.equivalence.refl _
  simp only [Multiset.insert_eq_cons, Multiset.map_cons, Multiset.map_singleton,
    Multiset.filter_cons, if_pos hsame, Multiset.filter_singleton, if_pos hrefl,
    Multiset.card_add, Multiset.card_singleton] at hpair
  have := hpair.trans (hd (key (h.array j).data))
  omega

/-! ## Runs -/

section Runs

variable [DecidableEq ρ] (ops : KeyOps κ) (unique : Bool)

def HashState.Allowed (s : HashState ρ κ) : HashAct ρ κ → Prop
  | .update record _ => s.hash.records ≠ 0 ∧ s.content.count record ≤ 1
  | _ => True

instance (s : HashState ρ κ) (a : HashAct ρ κ) : Decidable (s.Allowed a) := by
  cases a <;> unfold HashState.Allowed <;> infer_instance

/-- An insert is refused for want of memory or for a key that is there, a delete if the record is
not there, an update if another record has the new key. -/
structure HashState.Answers (s : HashState ρ κ) : Prop where
  insert : ∀ record alloc, ∃ failed h',
    myHashInsert ops s.key unique alloc s.hash record = some (failed, h') ∧
      (failed = true ↔ alloc = false ∨
        unique = true ∧ ∃ d ∈ s.content, ops.same (s.key d) (s.key record) = true)
  delete : ∀ record, ∃ failed h',
    myHashDelete ops s.key s.hash record = some (failed, h') ∧
      (failed = true ↔ record ∉ s.content)
  update : ∀ record newKey, s.content.count record = 1 → ∃ failed h',
    myHashUpdate ops (update s.key record newKey) unique s.hash record (s.key record) =
        some (failed, h') ∧
      (failed = true ↔
        unique = true ∧ ∃ d ∈ s.content, d ≠ record ∧ ops.same (s.key d) newKey = true)

/-- After `my_hash_init`. -/
def HashState.Initial (s : HashState ρ κ) : Prop :=
  s.hash.records = 0 ∧ s.hash.blength = 1 ∧ s.content = 0

def callSys : System (HashState ρ κ) (HashAct ρ κ) where
  init := HashState.Initial
  step := HashState.call ops unique

def hashSys : System (HashState ρ κ) (HashAct ρ κ) where
  init := HashState.Initial
  step s a := if s.Allowed a then s.call ops unique a else none

variable {ops unique}

omit [DecidableEq ρ] in
theorem initial_inv {s : HashState ρ κ} (hs : s.Initial) : s.hash.Inv ops s.key s.content := by
  obtain ⟨hrecords, hblength, hcontent⟩ := hs
  refine ⟨⟨0, hblength⟩, by omega, by omega, fun _ => [], ?_, ?_⟩
  · refine ⟨fun _ => seg_nil, fun b p hp => absurd hp (by simp),
      fun b p hp => absurd hp not_mem_nil, fun i => ?_, fun i hi => absurd hi (by simp)⟩
    simp [Used, hrecords]
  · rw [hrecords, hcontent]
    rfl

theorem call_inv {s : HashState ρ κ} (unique : Bool) (I : s.hash.Inv ops s.key s.content)
    (a : HashAct ρ κ) (ha : s.Allowed a) :
    ∃ t, s.call ops unique a = some t ∧ t.hash.Inv ops t.key t.content ∧
      (unique = true → Distinct ops s.key s.content → Distinct ops t.key t.content) := by
  cases a with
  | insert record alloc =>
    obtain ⟨failed, h', hrun, I', hfailed⟩ := I.insert unique alloc record
    refine ⟨_, by rw [HashState.call, hrun]; rfl, I', fun hu hd => ?_⟩
    cases failed with
    | true => exact hd
    | false =>
      exact distinct_cons hd fun hex => Bool.false_ne_true (hfailed.mpr (.inr ⟨hu, hex⟩))
  | delete record =>
    obtain ⟨failed, h', hrun, I', -⟩ := I.delete record
    refine ⟨_, by rw [HashState.call, hrun]; rfl, I', fun _ hd k => ?_⟩
    exact (Multiset.card_le_card (Multiset.filter_le_filter _
      (Multiset.erase_le record s.content))).trans (hd k)
  | update record newKey =>
    obtain ⟨hpos, honce⟩ := ha
    obtain ⟨failed, h', hrun, I', hnone, -⟩ := I.update unique record newKey hpos honce
    refine ⟨_, by rw [HashState.call, hrun]; rfl, I', fun hu hd => ?_⟩
    cases failed with
    | true => exact hd
    | false => exact distinct_update hd honce fun hex => hnone rfl ⟨hu, hex⟩

theorem answers_of_inv {s : HashState ρ κ} (unique : Bool)
    (I : s.hash.Inv ops s.key s.content) : s.Answers ops unique := by
  refine ⟨fun record alloc => ?_, fun record => ?_, fun record newKey hcount => ?_⟩
  · obtain ⟨failed, h', hrun, -, hfailed⟩ := I.insert unique alloc record
    exact ⟨failed, h', hrun, hfailed⟩
  · obtain ⟨failed, h', hrun, -, hfailed⟩ := I.delete record
    exact ⟨failed, h', hrun, hfailed⟩
  · have hmem : record ∈ s.content := Multiset.count_pos.mp (by omega)
    have hpos : s.hash.records ≠ 0 := by
      intro hzero
      rw [← I.stored_eq, Hash.stored, hzero] at hmem
      exact Multiset.notMem_zero record hmem
    obtain ⟨failed, h', hrun, -, hnone, hsome⟩ := I.update unique record newKey hpos hcount.le
    refine ⟨failed, h', hrun, hsome hmem, fun hex => ?_⟩
    by_contra hfailed
    exact hnone (Bool.eq_false_iff.mpr hfailed) hex

theorem reachable_inv {s : HashState ρ κ} (hs : (hashSys ops unique).Reachable s) :
    s.hash.Inv ops s.key s.content ∧ (unique = true → Distinct ops s.key s.content) := by
  refine hs.invariant (P := fun s => s.hash.Inv ops s.key s.content ∧
    (unique = true → Distinct ops s.key s.content)) (fun s hinit => ⟨initial_inv hinit, ?_⟩)
    fun s a t _ ⟨I, hd⟩ hstep => ?_
  · intro _ k
    rw [hinit.2.2]
    exact Nat.zero_le 1
  · have hstep' : (if s.Allowed a then s.call ops unique a else none) = some t := hstep
    split_ifs at hstep' with ha
    obtain ⟨t', hcall, I', hd'⟩ := call_inv unique I a ha
    obtain rfl : t' = t := Option.some_inj.mp (hcall.symm.trans hstep')
    exact ⟨I', fun hu => hd' hu (hd hu)⟩

variable (ops unique)

/-- After every sequence of calls the table is well formed, it holds what was inserted and not
deleted, and the next call returns and does what it was asked to. -/
theorem hash_wellFormed (s : HashState ρ κ) (hs : (hashSys ops unique).Reachable s) :
    s.hash.WellFormed ops s.key ∧ myHashCheck ops s.key s.hash = false ∧
      s.hash.stored = s.content ∧ s.Answers ops unique ∧
      ∀ a, s.Allowed a → ∃ t, (hashSys ops unique).step s a = some t := by
  obtain ⟨I, -⟩ := reachable_inv hs
  refine ⟨I.wellFormed, I.check, I.stored_eq, answers_of_inv unique I, fun a ha => ?_⟩
  obtain ⟨t, hcall, -⟩ := call_inv unique I a ha
  exact ⟨t, (if_pos ha).trans hcall⟩

/-- A search returns each record with the key once, and then it ends. -/
theorem hash_search (s : HashState ρ κ) (hs : (hashSys ops unique).Reachable s) :
    (∀ k, ∃ l : List ρ, (∀ n, l.length ≤ n → searchAll ops s.key s.hash k n = some l) ∧
      (l : Multiset ρ) = s.hash.stored.filter fun d => ops.same (s.key d) k = true) ∧
    (unique = true → ∀ i j, i < s.hash.records → j < s.hash.records → i ≠ j →
      ops.same (s.key (s.hash.array i).data) (s.key (s.hash.array j).data) = false) := by
  obtain ⟨I, hd⟩ := reachable_inv hs
  refine ⟨fun k => ?_, fun hu i j hi hj hij => ?_⟩
  · rw [I.stored_eq]
    exact I.searchAll k
  · have hd' := hd hu
    rw [← I.stored_eq] at hd'
    exact hd'.slots hi hj hij

end Runs

/-! ## A record that is there twice -/

def natOps : KeyOps ℕ where
  calcHash k := k
  same a b := a == b
  equivalence := ⟨fun a => beq_self_eq_true a, fun h => beq_iff_eq.mpr (beq_iff_eq.mp h).symm,
    fun h₁ h₂ => beq_iff_eq.mpr ((beq_iff_eq.mp h₁).trans (beq_iff_eq.mp h₂))⟩
  calcHash_eq a b h := by simpa using h

/-- An empty table; the record `r` has the key `r`. -/
def emptyState : HashState ℕ ℕ := ⟨⟨fun _ => ⟨none, 0⟩, 0, 1⟩, id, 0⟩

theorem emptyState_hashSys : (hashSys natOps true).Reachable emptyState := .start ⟨rfl, rfl, rfl⟩

theorem emptyState_callSys : (callSys natOps false).Reachable emptyState := .start ⟨rfl, rfl, rfl⟩

theorem hash_wellFormed_two :
    ∃ s : HashState ℕ ℕ, (hashSys natOps true).Reachable s ∧ s.hash.records = 2 ∧
      s.hash.WellFormed natOps s.key ∧ myHashCheck natOps s.key s.hash = false ∧
      s.hash.stored = s.content ∧ s.Answers natOps true ∧
      ∀ a, s.Allowed a → ∃ t, (hashSys natOps true).step s a = some t := by
  obtain ⟨s, hs, hp⟩ := emptyState_hashSys.exists_of_run
    [.insert 4 true, .insert 6 true, .insert 5 true, .update 4 9, .delete 6]
    (fun s => s.hash.records = 2) (by decide)
  exact ⟨s, hs, of_decide_eq_true hp, hash_wellFormed natOps true s hs⟩

theorem hash_search_two :
    ∃ s : HashState ℕ ℕ, (hashSys natOps true).Reachable s ∧ s.hash.records = 2 ∧
      (∀ k, ∃ l : List ℕ, (∀ n, l.length ≤ n → searchAll natOps s.key s.hash k n = some l) ∧
        (l : Multiset ℕ) = s.hash.stored.filter fun d => natOps.same (s.key d) k = true) ∧
      (true = true → ∀ i j, i < s.hash.records → j < s.hash.records → i ≠ j →
        natOps.same (s.key (s.hash.array i).data) (s.key (s.hash.array j).data) = false) := by
  obtain ⟨s, hs, hp⟩ := emptyState_hashSys.exists_of_run
    [.insert 4 true, .insert 6 true, .update 4 9] (fun s => s.hash.records = 2) (by decide)
  exact ⟨s, hs, of_decide_eq_true hp, hash_search natOps true s hs⟩

/-- A record is inserted twice.  The update of its key moves only one of the two slots. -/
theorem not_wellFormed_twice :
    ∃ s : HashState ℕ ℕ, (callSys natOps false).Reachable s ∧
      myHashCheck natOps s.key s.hash = true := by
  obtain ⟨s, hs, hp⟩ := emptyState_callSys.exists_of_run
    [.insert 2 true, .insert 2 true, .update 2 3]
    (fun s => myHashCheck natOps s.key s.hash) (by decide)
  exact ⟨s, hs, hp⟩

/-- If the slot that was moved is deleted, the record in the other one is not found. -/
theorem not_found_twice :
    ∃ s : HashState ℕ ℕ, (callSys natOps false).Reachable s ∧
      s.hash.stored.filter (fun d => natOps.same (s.key d) 4 = true) = {1} ∧
      searchAll natOps s.key s.hash 4 1 = some [] := by
  obtain ⟨s, hs, hp⟩ := emptyState_callSys.exists_of_run
    [.insert 1 true, .insert 1 true, .insert 2 true, .update 1 4, .delete 1]
    (fun s => s.hash.stored.filter (fun d => natOps.same (s.key d) 4 = true) = {1} ∧
      searchAll natOps s.key s.hash 4 1 = some []) (by decide)
  exact ⟨s, hs, of_decide_eq_true hp⟩

end MySQL.Mysys
