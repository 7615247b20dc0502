import MySQL.Innobase.Lock.Request

/-!
# Releasing locks

What is true after locks were taken out of their queues and the requests behind them were
looked at: every lock is as it was or weaker, and a request was granted only because no lock
ahead of it conflicts.  The identifiers increase along the list of locks, so the locks ahead
of a request are those with smaller identifiers.
-/

namespace MySQL.Innobase

open List
open Function (update update_self update_of_ne)

namespace LockSys

variable {s s' s'' : LockSys} {l a : Lock} {q : Queue} {i : LockId}

theorem eq_of_id_eq (hl : l ∈ s.locks) (ha : a ∈ s.locks) (h : l.id = a.id) : l = a := by
  by_contra hne
  have hids : s.locks.Pairwise fun l a => l.id ≠ a.id := s.sorted.imp fun hlt => hlt.ne
  have : Std.Symm fun l a : Lock => l.id ≠ a.id := ⟨fun _ _ hla => hla.symm⟩
  exact hids.forall hl ha hne h

theorem find?_eq_some_iff : s.find? i = some l ↔ l ∈ s.locks ∧ l.id = i := by
  constructor
  · intro h
    exact ⟨List.mem_of_find?_eq_some h, by simpa using List.find?_some h⟩
  · rintro ⟨hl, rfl⟩
    cases hfind : s.find? l.id with
    | none =>
      have hnone := List.find?_eq_none.mp hfind l hl
      simp at hnone
    | some a =>
      have hid : a.id = l.id := by simpa using List.find?_some hfind
      rw [eq_of_id_eq (List.mem_of_find?_eq_some hfind) hl hid]

theorem mem_pageLocks {page : PageId} : l ∈ s.pageLocks page ↔ l ∈ s.locks ∧ l.onPage page = true :=
  mem_filter

theorem mem_tableLocks {table : TableId} :
    l ∈ s.tableLocks table ↔ l ∈ s.locks ∧ l.On (.table table) :=
  mem_filter

theorem mem_recLocks {page : PageId} {heapNo : ℕ} :
    l ∈ s.recLocks page heapNo ↔ l ∈ s.locks ∧ l.On (.record page heapNo) := by
  rw [recLocks, mem_filter, mem_pageLocks, and_assoc]
  rfl

theorem mem_takeWhile_iff {locks : List Lock} (h : locks.Pairwise fun l a => l.id < a.id)
    (hl : l ∈ locks) : a ∈ (locks.takeWhile fun k => k.id ≠ l.id) ↔ a ∈ locks ∧ a.id < l.id := by
  induction locks with
  | nil => exact absurd hl not_mem_nil
  | cons k rest ih =>
    obtain ⟨hk, hrest⟩ := pairwise_cons.mp h
    by_cases hkl : k.id = l.id
    · have hout : ∀ a ∈ k :: rest, ¬ a.id < l.id := by
        refine forall_mem_cons.mpr ⟨hkl.not_lt, fun a ha => ?_⟩
        exact (hkl ▸ hk a ha).not_gt
      simp only [takeWhile_cons, hkl, ne_eq, not_true_eq_false, decide_false,
        Bool.false_eq_true, if_false, not_mem_nil, false_iff, not_and]
      exact fun ha => hout a ha
    · have hl' : l ∈ rest := (mem_cons.mp hl).resolve_left fun heq => hkl (heq ▸ rfl)
      have hlt : k.id < l.id := hk l hl'
      simp only [takeWhile_cons, ne_eq, hkl, not_false_eq_true, decide_true, if_true,
        mem_cons, ih hrest hl']
      constructor
      · rintro (rfl | ⟨ha, hal⟩)
        · exact ⟨.inl rfl, hlt⟩
        · exact ⟨.inr ha, hal⟩
      · rintro ⟨rfl | ha, hal⟩
        · exact .inl rfl
        · exact .inr ⟨ha, hal⟩

def Blocked (s : LockSys) (l : Lock) : Prop := ∃ a ∈ s.locks, a.id < l.id ∧ l.Blocks a

theorem mem_locksAhead_iff (hl : l ∈ s.locks) (hq : l.Single q) :
    a ∈ s.locksAhead l ↔ a ∈ s.locks ∧ a.id < l.id ∧ a.On q := by
  cases q with
  | record page heapNo =>
    have hon : l.onPage page = true ∧ l.getNthBit heapNo = true := hq.on
    obtain ⟨nBits, bits, hm⟩ : ∃ nBits bits, l.member = .recLock page nBits bits := by
      cases hm : l.member with
      | recLock p n bits => exact ⟨n, bits, by simpa [Lock.onPage, hm] using hon.1⟩
      | tabLock t => simp [Lock.onPage, hm] at hon
    have hsorted : (s.pageLocks page).Pairwise fun l a => l.id < a.id :=
      s.sorted.sublist filter_sublist
    have hmem : l ∈ s.pageLocks page := mem_pageLocks.mpr ⟨hl, hon.1⟩
    simp only [locksAhead, hm, mem_filter, hq.findSetBit_eq, Option.any_some]
    rw [mem_takeWhile_iff hsorted hmem, mem_pageLocks, Lock.On]
    tauto
  | table t =>
    have hon : l.onTable t = true := hq.on
    obtain hm : l.member = .tabLock t := by
      cases hm : l.member with
      | recLock p n bits => simp [Lock.onTable, hm] at hon
      | tabLock t' => simpa [Lock.onTable, hm] using hon
    have hsorted : (s.tableLocks t).Pairwise fun l a => l.id < a.id :=
      s.sorted.sublist filter_sublist
    have hmem : l ∈ s.tableLocks t := mem_tableLocks.mpr ⟨hl, hon⟩
    simp only [locksAhead, hm, mem_reverse]
    rw [mem_takeWhile_iff hsorted hmem, mem_tableLocks]
    tauto

theorem hasToWaitInQueue_eq (s : LockSys) (l : Lock) :
    s.hasToWaitInQueue l = (s.locksAhead l).any (lockHasToWait l) := by
  unfold hasToWaitInQueue locksAhead
  cases l.member with
  | recLock page nBits bits =>
    simp only [lockRecHasToWaitInQueue, List.any_filter]
  | tabLock t => simp only [lockTableHasToWaitInQueue, any_reverse]

theorem hasToWaitInQueue_iff (hl : l ∈ s.locks) (hq : l.Single q) :
    s.hasToWaitInQueue l = true ↔ s.Blocked l := by
  rw [hasToWaitInQueue_eq, List.any_eq_true]
  constructor
  · rintro ⟨a, ha, hwait⟩
    obtain ⟨ha, hlt, hon⟩ := (mem_locksAhead_iff hl hq).mp ha
    exact ⟨a, ha, hlt, hq.blocks_iff.mpr ⟨hon, hq.lockHasToWait_eq ▸ hwait⟩⟩
  · rintro ⟨a, ha, hlt, hblocks⟩
    obtain ⟨hon, hwait⟩ := hq.blocks_iff.mp hblocks
    exact ⟨a, (mem_locksAhead_iff hl hq).mpr ⟨ha, hlt, hon⟩, hq.lockHasToWait_eq.trans hwait⟩

/-! ## The state of the transactions -/

/-- What ties the requests that wait to their transactions.  The back pointer of `dangling`
may be stale, and `asking` is a transaction inside `lock_rec_enqueue_waiting`, which is not
yet in the lock wait state. -/
structure Basic (dangling asking : Option TrxRef) (s : LockSys) : Prop where
  single : ∀ l ∈ s.locks, l.wait → ∃ q, l.Single q
  waitLock : ∀ l ∈ s.locks, l.wait → s.waitLock l.trx = some l.id
  pointed : ∀ t i, some t ≠ dangling → s.waitLock t = some i →
    ∃ l ∈ s.locks, l.id = i ∧ l.trx = t ∧ l.wait
  lockWait : ∀ t, some t ≠ asking → s.lockWait t = (s.waitLock t).isSome
  mode : ∀ l ∈ s.locks, ∀ page heapNo, l.On (.record page heapNo) →
    l.typeMode.mode = .s ∨ l.typeMode.mode = .x
  supremum : ∀ l ∈ s.locks, l.wait → ∀ page, l.On (.record page heapNoSupremum) →
    l.typeMode.gap = false
  /-- The AUTO-INC locks that are remembered were granted. -/
  autoinc : ∀ t, ∀ i ∈ s.autoincLocks t, i < s.nextLock ∧
    ∀ l ∈ s.locks, l.id = i → l.trx = t ∧ l.wait = false

variable {d d' y : Option TrxRef} {t : TrxRef}

theorem Basic.empty : Basic none none empty where
  single _ h := absurd h not_mem_nil
  waitLock _ h := absurd h not_mem_nil
  pointed _ _ _ h := absurd h (Option.some_ne_none _).symm
  lockWait _ _ := rfl
  mode _ h := absurd h not_mem_nil
  supremum _ h := absurd h not_mem_nil
  autoinc _ _ h := absurd h not_mem_nil

theorem Basic.wait_unique (h : Basic d y s) (hl : l ∈ s.locks) (ha : a ∈ s.locks)
    (hlw : l.wait) (haw : a.wait) (htrx : l.trx = a.trx) : l = a := by
  have hids : some l.id = some a.id := by
    rw [← h.waitLock l hl hlw, ← h.waitLock a ha haw, htrx]
  exact eq_of_id_eq hl ha (Option.some.inj hids)

theorem Basic.not_wait (h : Basic d none s) (ht : s.lockWait t = false) (hl : l ∈ s.locks)
    (htrx : l.trx = t) : l.wait = false := by
  by_contra hw
  have hsome := h.waitLock l hl (eq_true_of_ne_false hw)
  have hwait := h.lockWait t (Option.some_ne_none t)
  rw [ht, ← htrx, hsome] at hwait
  exact absurd hwait Bool.noConfusion

theorem Basic.removeLock (h : Basic d y s) (i : LockId)
    (hd : ∀ t, some t ≠ d' → some t ≠ d ∧ ∀ l ∈ s.locks, l.id = i → l.wait → l.trx ≠ t) :
    Basic d' y (s.removeLock i) where
  single k hk := h.single k (mem_of_mem_filter hk)
  waitLock k hk := h.waitLock k (mem_of_mem_filter hk)
  pointed t j ht hj := by
    obtain ⟨hne, htrx⟩ := hd t ht
    obtain ⟨k, hk, hid, hkt, hw⟩ := h.pointed t j hne hj
    refine ⟨k, mem_filter.mpr ⟨hk, ?_⟩, hid, hkt, hw⟩
    simp only [ne_eq, decide_eq_true_eq]
    exact fun hki => htrx k hk hki hw hkt
  lockWait := h.lockWait
  mode k hk := h.mode k (mem_of_mem_filter hk)
  supremum k hk := h.supremum k (mem_of_mem_filter hk)
  autoinc t j hj := by
    obtain ⟨hlt, hgranted⟩ := h.autoinc t j hj
    exact ⟨hlt, fun k hk => hgranted k (mem_of_mem_filter hk)⟩

theorem Basic.of_autoinc (h : Basic d y s) (hlocks : s'.locks = s.locks)
    (hnext : s'.nextLock = s.nextLock) (hwait : s'.waitLock = s.waitLock)
    (hque : s'.lockWait = s.lockWait)
    (hauto : ∀ t, ∀ i ∈ s'.autoincLocks t, i < s.nextLock ∧
      ∀ l ∈ s.locks, l.id = i → l.trx = t ∧ l.wait = false) : Basic d y s' where
  single := hlocks ▸ h.single
  waitLock := hwait ▸ hlocks ▸ h.waitLock
  pointed := hwait ▸ hlocks ▸ h.pointed
  lockWait := hwait ▸ hque ▸ h.lockWait
  mode := hlocks ▸ h.mode
  supremum := hlocks ▸ h.supremum
  autoinc := hnext ▸ hlocks ▸ hauto

theorem Basic.endLockWait (h : Basic d y s) (hd : d = none ∨ d = some t)
    (ht : ∀ l ∈ s.locks, l.wait → l.trx ≠ t) : Basic none y (s.endLockWait t) where
  __ := h
  waitLock l hl hw := (update_of_ne (ht l hl hw) _ _).trans (h.waitLock l hl hw)
  pointed t' i _ hi := by
    by_cases htt : t' = t
    · subst htt
      simp [LockSys.endLockWait] at hi
    · have hne : some t' ≠ d := by
        rcases hd with rfl | rfl
        · exact Option.some_ne_none t'
        · simpa using htt
      exact h.pointed t' i hne ((update_of_ne htt _ _).symm.trans hi)
  lockWait t' hy := by
    by_cases htt : t' = t
    · subst htt
      simp [LockSys.endLockWait]
    · simpa [LockSys.endLockWait, update_of_ne htt] using h.lockWait t' hy

/-! ## Granting -/

def clear (ids : List LockId) (l : Lock) : Lock := if l.id ∈ ids then l.resetWait else l

section Clear

variable (ids : List LockId) (l : Lock)

@[simp] theorem clear_id : (clear ids l).id = l.id := by
  unfold clear
  split <;> rfl

@[simp] theorem clear_trx : (clear ids l).trx = l.trx := by
  unfold clear
  split <;> rfl

@[simp] theorem clear_core : (clear ids l).typeMode.core = l.typeMode.core := by
  unfold clear
  split <;> rfl

@[simp] theorem on_clear : (clear ids l).On q ↔ l.On q := by
  unfold clear
  split
  · exact Lock.on_resetWait
  · rfl

theorem wait_clear : (clear ids l).wait = true ↔ l.wait = true ∧ l.id ∉ ids := by
  unfold clear
  split <;> simp [*]

@[simp] theorem clear_nil : clear [] l = l := by simp [clear]

theorem clear_append (js : List LockId) : clear js (clear ids l) = clear (ids ++ js) l := by
  by_cases hi : l.id ∈ ids <;> by_cases hj : l.id ∈ js <;> simp [clear, hi, hj, Lock.resetWait]

end Clear

/-- Some requests were granted, because no lock ahead of them conflicts. -/
structure Granted (ids : List LockId) (s s' : LockSys) : Prop where
  locks_eq : s'.locks = s.locks.map (clear ids)
  next_eq : s'.nextLock = s.nextLock
  lockWait : ∀ t, s.lockWait t = false → s'.lockWait t = false
  free : ∀ l ∈ s.locks, l.wait → l.id ∈ ids → ¬ s.Blocked l

variable {ids js scope : List LockId}

theorem blocks_clear {l a : Lock} : (clear ids l).Blocks (clear js a) ↔ l.Blocks a := by
  refine exists_congr fun q => ?_
  rw [on_clear, on_clear, clear_trx, ← Queue.hasToWait_core, clear_core, Queue.hasToWait_core,
    Queue.hasToWait_congr (clear_trx js a) (clear_core js a)]

theorem Granted.blocked_iff (h : Granted ids s s') : s'.Blocked (clear js l) ↔ s.Blocked l := by
  simp only [Blocked, h.locks_eq, List.mem_map, exists_exists_and_eq_and, clear_id, blocks_clear]

theorem Granted.refl (s : LockSys) : Granted [] s s where
  locks_eq := by
    have hid : clear [] = id := funext clear_nil
    rw [hid, List.map_id]
  next_eq := rfl
  lockWait _ := id
  free _ _ _ h := absurd h not_mem_nil

theorem Granted.trans (h₁ : Granted ids s s') (h₂ : Granted js s' s'') :
    Granted (ids ++ js) s s'' where
  locks_eq := by
    rw [h₂.locks_eq, h₁.locks_eq, List.map_map]
    exact map_congr_left fun l _ => clear_append ids l js
  next_eq := h₂.next_eq.trans h₁.next_eq
  lockWait t ht := h₂.lockWait t (h₁.lockWait t ht)
  free l hl hw hmem := by
    by_cases hi : l.id ∈ ids
    · exact h₁.free l hl hw hi
    · have hj : l.id ∈ js := (mem_append.mp hmem).resolve_left hi
      have hl' : clear ids l ∈ s'.locks := h₁.locks_eq ▸ List.mem_map_of_mem hl
      have hfree := h₂.free _ hl' ((wait_clear ids l).mpr ⟨hw, hi⟩) ((clear_id ids l).symm ▸ hj)
      exact fun hblocked => hfree (h₁.blocked_iff.mpr hblocked)

theorem rememberAutoinc_eq (s : LockSys) (l : Lock) :
    (s.rememberAutoinc l).locks = s.locks ∧ (s.rememberAutoinc l).nextLock = s.nextLock ∧
      (s.rememberAutoinc l).waitLock = s.waitLock ∧
      (s.rememberAutoinc l).lockWait = s.lockWait ∧
      ∀ t, ∀ i ∈ (s.rememberAutoinc l).autoincLocks t,
        i ∈ s.autoincLocks t ∨ i = l.id ∧ l.trx = t := by
  unfold rememberAutoinc
  split
  · split
    · refine ⟨rfl, rfl, rfl, rfl, fun t i hi => ?_⟩
      by_cases ht : t = l.trx
      · subst ht
        simpa [or_comm] using hi
      · exact .inl (by simpa [update_of_ne ht] using hi)
    · exact ⟨rfl, rfl, rfl, rfl, fun t i hi => .inl hi⟩
  · exact ⟨rfl, rfl, rfl, rfl, fun t i hi => .inl hi⟩

theorem lockGrant_waitLock (s : LockSys) (l : Lock) :
    (s.lockGrant l).waitLock = Function.update s.waitLock l.trx none := by
  obtain ⟨-, -, hwait, -, -⟩ := rememberAutoinc_eq (s.modifyLock l.id Lock.resetWait fun _ => rfl) l
  exact congrArg (Function.update · l.trx none) hwait

theorem lockGrant_lockWait (s : LockSys) (l : Lock) :
    (s.lockGrant l).lockWait = Function.update s.lockWait l.trx false := by
  obtain ⟨-, -, -, hque, -⟩ := rememberAutoinc_eq (s.modifyLock l.id Lock.resetWait fun _ => rfl) l
  exact congrArg (Function.update · l.trx false) hque

theorem lockGrant_granted (hl : l ∈ s.locks) (hfree : ¬ s.Blocked l) :
    Granted [l.id] s (s.lockGrant l) where
  locks_eq := by
    refine (rememberAutoinc_eq _ l).1.trans (map_congr_left fun k _ => ?_)
    simp [clear]
  next_eq := (rememberAutoinc_eq _ l).2.1
  lockWait t ht := by
    rw [lockGrant_lockWait]
    by_cases htl : t = l.trx
    · rw [htl, update_self]
    · rw [update_of_ne htl, ht]
  free k hk _ hmem := by
    have hid : k.id = l.id := by simpa using hmem
    exact eq_of_id_eq hk hl hid ▸ hfree

theorem Basic.lockGrant (h : Basic d y s) (hl : l ∈ s.locks) (hw : l.wait)
    (hg : Granted [l.id] s (s.lockGrant l)) : Basic d y (s.lockGrant l) := by
  -- A request that still waits is another one, of another transaction.
  have hother : ∀ k ∈ s.locks, (clear [l.id] k).wait → k.wait ∧ k.id ≠ l.id ∧ k.trx ≠ l.trx := by
    intro k hk hkw
    obtain ⟨hkw, hid⟩ := (wait_clear _ k).mp hkw
    have hid' : k.id ≠ l.id := by simpa using hid
    exact ⟨hkw, hid', fun htrx => hid' (congrArg Lock.id (h.wait_unique hk hl hkw hw htrx))⟩
  refine ⟨?_, ?_, fun t i ht hi => ?_, fun t ht => ?_, ?_, ?_, fun t i hi => ?_⟩
  · rw [hg.locks_eq]
    refine List.forall_mem_map.mpr fun k hk hkw => ?_
    obtain ⟨q, hq⟩ := h.single k hk (hother k hk hkw).1
    exact ⟨q, fun q' => (on_clear _ k).trans (hq q')⟩
  · rw [hg.locks_eq, lockGrant_waitLock]
    refine List.forall_mem_map.mpr fun k hk hkw => ?_
    obtain ⟨hkw, -, htrx⟩ := hother k hk hkw
    rw [clear_trx, clear_id, update_of_ne htrx]
    exact h.waitLock k hk hkw
  · rw [lockGrant_waitLock] at hi
    have htl : t ≠ l.trx := by
      rintro rfl
      simp at hi
    rw [update_of_ne htl] at hi
    obtain ⟨k, hk, hid, htrx, hkw⟩ := h.pointed t i ht hi
    have hne : k.id ∉ [l.id] := by
      intro hmem
      have hkl : k = l := eq_of_id_eq hk hl (by simpa using hmem)
      exact htl (hkl ▸ htrx).symm
    exact ⟨clear [l.id] k, hg.locks_eq ▸ List.mem_map_of_mem hk, (clear_id _ k).trans hid,
      (clear_trx _ k).trans htrx, (wait_clear _ k).mpr ⟨hkw, hne⟩⟩
  · rw [lockGrant_waitLock, lockGrant_lockWait]
    by_cases htl : t = l.trx
    · subst htl
      simp
    · rw [update_of_ne htl, update_of_ne htl]
      exact h.lockWait t ht
  · rw [hg.locks_eq]
    refine List.forall_mem_map.mpr fun k hk page heapNo hon => ?_
    have hmode : (clear [l.id] k).typeMode.mode = k.typeMode.mode :=
      (TypeMode.core_eq_iff.mp (clear_core _ k)).1
    rw [hmode]
    exact h.mode k hk page heapNo ((on_clear _ k).mp hon)
  · rw [hg.locks_eq]
    refine List.forall_mem_map.mpr fun k hk hkw page hon => ?_
    rw [(TypeMode.core_eq_iff.mp (clear_core _ k)).2.1]
    exact h.supremum k hk (hother k hk hkw).1 page ((on_clear _ k).mp hon)
  · rw [hg.next_eq, hg.locks_eq]
    obtain hold | ⟨rfl, htrx⟩ := (rememberAutoinc_eq _ l).2.2.2.2 t i hi
    · obtain ⟨hlt, hgranted⟩ := h.autoinc t i hold
      refine ⟨hlt, List.forall_mem_map.mpr fun k hk hid => ?_⟩
      obtain ⟨htrx, hkw⟩ := hgranted k hk ((clear_id _ k).symm.trans hid)
      refine ⟨(clear_trx _ k).trans htrx, ?_⟩
      rw [← Bool.not_eq_true, wait_clear, hkw]
      simp
    · refine ⟨s.lt_next l hl, List.forall_mem_map.mpr fun k hk hid => ?_⟩
      replace hid : k.id = l.id := (clear_id _ k).symm.trans hid
      refine ⟨?_, ?_⟩
      · rw [clear_trx, eq_of_id_eq hk hl hid, htrx]
      · rw [← Bool.not_eq_true, wait_clear]
        simp [hid]

theorem Basic.grantIfPossible (h : Basic d y s) (i : LockId) :
    Basic d y (s.grantIfPossible i) ∧ ∃ ids, Granted ids s (s.grantIfPossible i) ∧
      ∀ l ∈ s.locks, l.wait → l.id = i → l.id ∈ ids ∨ s.Blocked l := by
  unfold LockSys.grantIfPossible
  split
  next l hfind =>
    obtain ⟨hl, rfl⟩ := find?_eq_some_iff.mp hfind
    split
    next hcond =>
      obtain ⟨hw, hqueue⟩ : l.wait = true ∧ s.hasToWaitInQueue l = false := by simpa using hcond
      obtain ⟨q, hq⟩ := h.single l hl hw
      have hfree : ¬ s.Blocked l := fun hb => by
        rw [(hasToWaitInQueue_iff hl hq).mpr hb] at hqueue
        exact absurd hqueue Bool.noConfusion
      have hg := lockGrant_granted hl hfree
      exact ⟨h.lockGrant hl hw hg, _, hg, fun k _ _ hid => .inl (by simp [hid])⟩
    next hcond =>
      refine ⟨h, [], .refl s, fun k hk hkw hid => .inr ?_⟩
      obtain rfl := eq_of_id_eq hk hl hid
      obtain ⟨q, hq⟩ := h.single k hk hkw
      exact (hasToWaitInQueue_iff hk hq).mp (by simpa [hkw] using hcond)
  next hnone =>
    refine ⟨h, [], .refl s, fun k hk _ hid => ?_⟩
    have hsome := find?_eq_some_iff.mpr ⟨hk, hid⟩
    rw [hnone] at hsome
    cases hsome

theorem Basic.grantWaiters (h : Basic d y s) (scope : List LockId) :
    Basic d y (s.grantWaiters scope) ∧ ∃ ids, Granted ids s (s.grantWaiters scope) ∧
      ∀ l ∈ s.locks, l.wait → l.id ∈ scope → l.id ∈ ids ∨ s.Blocked l := by
  induction scope generalizing s with
  | nil => exact ⟨h, [], .refl s, fun l _ _ hmem => absurd hmem not_mem_nil⟩
  | cons i scope ih =>
    obtain ⟨hb, ids, hg, hseen⟩ := h.grantIfPossible i
    obtain ⟨hb', js, hg', hseen'⟩ := ih hb
    refine ⟨hb', ids ++ js, hg.trans hg', fun l hl hw hmem => ?_⟩
    by_cases hids : l.id ∈ ids
    · exact .inl (mem_append_left js hids)
    · rcases mem_cons.mp hmem with hi | hmem
      · exact (hseen l hl hw hi).imp_left (mem_append_left js)
      · have hl' : clear ids l ∈ (s.grantIfPossible i).locks :=
          hg.locks_eq ▸ List.mem_map_of_mem hl
        have hw' := (wait_clear ids l).mpr ⟨hw, hids⟩
        rcases hseen' _ hl' hw' ((clear_id ids l).symm ▸ hmem) with hjs | hblocked
        · exact .inl (mem_append_right ids ((clear_id ids l) ▸ hjs))
        · exact .inr (hg.blocked_iff.mp hblocked)

/-! ## Weaker locks -/

/-- The lock is as it was, or was granted, or lost some of its bits after it was granted. -/
structure Weaker (l' l : Lock) : Prop where
  id_eq : l'.id = l.id
  trx_eq : l'.trx = l.trx
  core_eq : l'.typeMode.core = l.typeMode.core
  wait : l'.wait → l.wait
  on : ∀ q, l'.On q → l.On q
  on_of_wait : l'.wait → ∀ q, l.On q → l'.On q

theorem Weaker.refl (l : Lock) : Weaker l l :=
  ⟨rfl, rfl, rfl, id, fun _ => id, fun _ _ => id⟩

theorem Weaker.trans {l'' l' l : Lock} (h₂ : Weaker l'' l') (h₁ : Weaker l' l) : Weaker l'' l :=
  ⟨h₂.id_eq.trans h₁.id_eq, h₂.trx_eq.trans h₁.trx_eq, h₂.core_eq.trans h₁.core_eq,
    fun hw => h₁.wait (h₂.wait hw), fun q hq => h₁.on q (h₂.on q hq),
    fun hw q hq => h₂.on_of_wait hw q (h₁.on_of_wait (h₂.wait hw) q hq)⟩

theorem Weaker.hasToWait_eq {l' a' : Lock} (hl : Weaker l' l) (ha : Weaker a' a) :
    q.hasToWait l'.trx l'.typeMode a' = q.hasToWait l.trx l.typeMode a := by
  rw [Queue.hasToWait_congr ha.trx_eq ha.core_eq, ← Queue.hasToWait_core, hl.trx_eq, hl.core_eq,
    Queue.hasToWait_core]

theorem Weaker.blocks {l' a' : Lock} (hl : Weaker l' l) (ha : Weaker a' a) (h : l'.Blocks a') :
    l.Blocks a := by
  obtain ⟨q, hlq, haq, hwait⟩ := h
  exact ⟨q, hl.on q hlq, ha.on q haq, (hl.hasToWait_eq ha).symm.trans hwait⟩

theorem weaker_clear (ids : List LockId) (l : Lock) : Weaker (clear ids l) l :=
  ⟨clear_id ids l, clear_trx ids l, clear_core ids l, fun hw => ((wait_clear ids l).mp hw).1,
    fun _ => (on_clear ids l).mp, fun _ _ => (on_clear ids l).mpr⟩

/-- Locks were released, and requests were granted where nothing ahead conflicts. -/
structure Release (s s' : LockSys) : Prop where
  weaker : ∀ l' ∈ s'.locks, ∃ l ∈ s.locks, Weaker l' l
  granted : ∀ l' ∈ s'.locks, l'.wait = false → ∀ l ∈ s.locks, l.id = l'.id → l.wait →
    ¬ s'.Blocked l'
  next_eq : s'.nextLock = s.nextLock
  lockWait : ∀ t, s.lockWait t = false → s'.lockWait t = false

theorem Blocked.of_weaker {l' : Lock} (h : ∀ l' ∈ s'.locks, ∃ l ∈ s.locks, Weaker l' l)
    (hl : Weaker l' l) (hblocked : s'.Blocked l') : s.Blocked l := by
  obtain ⟨a', ha', hlt, hblocks⟩ := hblocked
  obtain ⟨a, ha, hweak⟩ := h a' ha'
  exact ⟨a, ha, by rw [← hweak.id_eq, ← hl.id_eq]; exact hlt, hl.blocks hweak hblocks⟩

theorem Release.refl (s : LockSys) : Release s s where
  weaker l hl := ⟨l, hl, .refl l⟩
  granted l' hl' hw' l hl hid hw := by
    obtain rfl := eq_of_id_eq hl hl' hid
    exact absurd (hw'.symm.trans hw) Bool.noConfusion
  next_eq := rfl
  lockWait _ := id

theorem Release.trans (h₁ : Release s s') (h₂ : Release s' s'') : Release s s'' where
  weaker l'' hl'' := by
    obtain ⟨l', hl', hweak'⟩ := h₂.weaker l'' hl''
    obtain ⟨l, hl, hweak⟩ := h₁.weaker l' hl'
    exact ⟨l, hl, hweak'.trans hweak⟩
  granted l'' hl'' hw'' l hl hid hw := by
    obtain ⟨l', hl', hweak⟩ := h₂.weaker l'' hl''
    cases hw' : l'.wait with
    | true => exact h₂.granted l'' hl'' hw'' l' hl' hweak.id_eq.symm hw'
    | false =>
      have hfree := h₁.granted l' hl' hw' l hl (hid.trans hweak.id_eq) hw
      exact fun hblocked => hfree (hblocked.of_weaker h₂.weaker hweak)
  next_eq := h₂.next_eq.trans h₁.next_eq
  lockWait t ht := h₂.lockWait t (h₁.lockWait t ht)

theorem Granted.release (h : Granted ids s s') : Release s s' where
  __ := h
  weaker := by
    rw [h.locks_eq]
    exact List.forall_mem_map.mpr fun l hl => ⟨l, hl, weaker_clear ids l⟩
  granted := by
    rw [h.locks_eq]
    refine List.forall_mem_map.mpr fun k hk hkw l hl hid hw => ?_
    obtain rfl := eq_of_id_eq hl hk (hid.trans (clear_id ids k))
    have hmem : l.id ∈ ids := by
      by_contra hout
      rw [(wait_clear ids l).mpr ⟨hw, hout⟩] at hkw
      exact absurd hkw Bool.noConfusion
    exact fun hblocked => h.free l hl hw hmem (h.blocked_iff.mp hblocked)

theorem Release.of_shrink (hweak : ∀ l' ∈ s'.locks, ∃ l ∈ s.locks, Weaker l' l ∧ l'.wait = l.wait)
    (hnext : s'.nextLock = s.nextLock) (hque : s'.lockWait = s.lockWait) : Release s s' where
  weaker l' hl' := by
    obtain ⟨l, hl, hw, -⟩ := hweak l' hl'
    exact ⟨l, hl, hw⟩
  granted l' hl' hw' l hl hid hw := by
    obtain ⟨k, hk, hkl, hwait⟩ := hweak l' hl'
    obtain rfl := eq_of_id_eq hl hk (hid.trans hkl.id_eq)
    exact absurd (hw'.symm.trans (hwait.trans hw)) Bool.noConfusion
  next_eq := hnext
  lockWait t ht := hque ▸ ht

def Stuck (s : LockSys) : Prop := ∀ l ∈ s.locks, l.wait → s.Blocked l

theorem Granted.stuck (h : Granted ids s s')
    (hseen : ∀ l ∈ s.locks, l.wait → l.id ∈ ids ∨ s.Blocked l) : Stuck s' := by
  unfold Stuck
  rw [h.locks_eq]
  refine List.forall_mem_map.mpr fun l hl hw => ?_
  obtain ⟨hw, hout⟩ := (wait_clear ids l).mp hw
  exact h.blocked_iff.mpr ((hseen l hl hw).resolve_left hout)

end LockSys

end MySQL.Innobase
