import MySQL.Innobase.Lock.Release

/-!
# The functions that release

Each of them takes locks or bits out of the queues and then looks at every request that it
may have unblocked, so afterwards every request that waits still has a conflicting lock
ahead of it.
-/

namespace MySQL.Innobase

open List
open Function (update update_self update_of_ne)

namespace LockSys

variable {s s₁ s' s'' : LockSys} {l a : Lock} {d d' y : Option TrxRef} {t : TrxRef}
  {scope : List LockId}

/-- What the functions below guarantee. -/
structure Freed (d y : Option TrxRef) (s s' : LockSys) : Prop where
  basic : Basic d y s'
  release : Release s s'
  stuck : Stuck s → Stuck s'

theorem Freed.refl (h : Basic d y s) : Freed d y s s := ⟨h, .refl s, id⟩

theorem Freed.trans (h₁ : Freed d y s s') (h₂ : Freed d' y s' s'') : Freed d' y s s'' :=
  ⟨h₂.basic, h₁.release.trans h₂.release, fun h => h₂.stuck (h₁.stuck h)⟩

theorem Basic.freed_of_removed (hs₁ : Basic d y s₁) (i : LockId)
    (hlocks : s₁.locks = s.locks.filter fun k => k.id ≠ i)
    (hnext : s₁.nextLock = s.nextLock) (hque : s₁.lockWait = s.lockWait)
    (hscope : ∀ l ∈ s.locks, l.id = i → ∀ k ∈ s₁.locks, k.Blocks l → i < k.id →
      k.id ∈ scope) :
    Freed d y s (s₁.grantWaiters scope) ∧
      ∀ k ∈ (s₁.grantWaiters scope).locks, k.id ≠ i := by
  have hmem : ∀ k ∈ s₁.locks, k ∈ s.locks ∧ k.id ≠ i := by
    simp [hlocks]
  obtain ⟨hbasic, ids, hgranted, hseen⟩ := hs₁.grantWaiters scope
  have hshrink : Release s s₁ :=
    .of_shrink (fun k hk => ⟨k, (hmem k hk).1, .refl k, rfl⟩) hnext hque
  refine ⟨⟨hbasic, hshrink.trans hgranted.release, fun hstuck => ?_⟩, ?_⟩
  · refine hgranted.stuck fun k hk hw => ?_
    obtain ⟨a, ha, hlt, hblocks⟩ := hstuck k (hmem k hk).1 hw
    by_cases hai : a.id = i
    · exact hseen k hk hw (hscope a ha hai k hk hblocks (hai ▸ hlt))
    · have ha₁ : a ∈ s₁.locks := by simpa [hlocks] using ⟨ha, hai⟩
      exact .inr ⟨a, ha₁, hlt, hblocks⟩
  · rw [hgranted.locks_eq]
    exact List.forall_mem_map.mpr fun k hk => (clear_id ids k).symm ▸ (hmem k hk).2

theorem Basic.lockRecDequeueFromPage (h : Basic d y s) (page : PageId)
    (hpage : ∀ k ∈ s.locks, k.id = l.id → ∀ q, k.On q → ∃ heapNo, q = .record page heapNo)
    (hd : ∀ t, some t ≠ d' → some t ≠ d ∧ ∀ k ∈ s.locks, k.id = l.id → k.wait → k.trx ≠ t) :
    Freed d' y s (s.lockRecDequeueFromPage l page) ∧
      ∀ k ∈ (s.lockRecDequeueFromPage l page).locks, k.id ≠ l.id := by
  refine (h.removeLock l.id hd).freed_of_removed l.id rfl rfl rfl fun a ha hal k hk hblocks _ => ?_
  obtain ⟨q, hkq, haq, -⟩ := hblocks
  obtain ⟨heapNo, rfl⟩ := hpage a ha hal q haq
  exact List.mem_map_of_mem (mem_pageLocks.mpr ⟨hk, hkq.1⟩)

theorem lockTableRemoveLow_locks (s : LockSys) (l : Lock) (table : TableId) :
    (s.lockTableRemoveLow l table).locks = (s.removeLock l.id).locks ∧
      (s.lockTableRemoveLow l table).nextLock = s.nextLock ∧
      (s.lockTableRemoveLow l table).lockWait = s.lockWait := by
  unfold lockTableRemoveLow
  split <;> exact ⟨rfl, rfl, rfl⟩

theorem Basic.lockTableRemoveLow (h : Basic d y s) (table : TableId)
    (hd : ∀ t, some t ≠ d' → some t ≠ d ∧ ∀ k ∈ s.locks, k.id = l.id → k.wait → k.trx ≠ t) :
    Basic d' y (s.lockTableRemoveLow l table) := by
  have hremoved := h.removeLock l.id hd
  unfold LockSys.lockTableRemoveLow
  split
  next =>
    refine hremoved.of_autoinc rfl rfl rfl rfl fun t i hi => hremoved.autoinc t i ?_
    show i ∈ s.autoincLocks t
    split at hi
    next => exact hi
    next =>
      by_cases ht : t = l.trx
      · subst ht
        exact mem_of_mem_erase (by simpa using hi)
      · simpa [update_of_ne ht] using hi
  next => exact hremoved

theorem Basic.lockTableDequeue (h : Basic d y s) (table : TableId)
    (htable : ∀ k ∈ s.locks, k.id = l.id → ∀ q, k.On q → q = .table table)
    (hd : ∀ t, some t ≠ d' → some t ≠ d ∧ ∀ k ∈ s.locks, k.id = l.id → k.wait → k.trx ≠ t) :
    Freed d' y s (s.lockTableDequeue l table) ∧
      ∀ k ∈ (s.lockTableDequeue l table).locks, k.id ≠ l.id := by
  obtain ⟨hlocks, hnext, hque⟩ := lockTableRemoveLow_locks s l table
  refine (h.lockTableRemoveLow table hd).freed_of_removed l.id hlocks hnext hque
    fun a ha hal k hk hblocks hlt => ?_
  obtain ⟨q, hkq, haq, -⟩ := hblocks
  obtain rfl := htable a ha hal q haq
  have hk' : k ∈ s.locks := mem_of_mem_filter (hlocks ▸ hk)
  exact List.mem_map_of_mem (mem_filter.mpr ⟨mem_tableLocks.mpr ⟨hk', hkq⟩, by simpa⟩)

theorem record_of_member {page : PageId} {nBits : ℕ} {bits : Finset ℕ} {q : Queue}
    (h : l.member = .recLock page nBits bits) (hq : l.On q) :
    ∃ heapNo, q = .record page heapNo := by
  cases q with
  | record p heapNo =>
    have hp : page = p := by simpa [Lock.On, Lock.onPage, h] using hq.1
    exact ⟨heapNo, hp ▸ rfl⟩
  | table t => simp [Lock.On, Lock.onTable, h] at hq

theorem table_of_member {table : TableId} {q : Queue} (h : l.member = .tabLock table)
    (hq : l.On q) : q = .table table := by
  cases q with
  | record p heapNo => simp [Lock.On, Lock.onPage, h] at hq
  | table t =>
    have ht : table = t := by simpa [Lock.On, Lock.onTable, h] using hq
    exact ht ▸ rfl

theorem Basic.dequeue (h : Basic d y s) (hl : l ∈ s.locks) (hw : l.wait = false) :
    Freed d y s (s.dequeue l) := by
  have heq : ∀ k ∈ s.locks, k.id = l.id → k = l := fun k hk => eq_of_id_eq hk hl
  have hd : ∀ t, some t ≠ d → some t ≠ d ∧ ∀ k ∈ s.locks, k.id = l.id → k.wait → k.trx ≠ t := by
    refine fun t ht => ⟨ht, fun k hk hid hkw => ?_⟩
    rw [heq k hk hid, hw] at hkw
    exact absurd hkw Bool.noConfusion
  unfold LockSys.dequeue
  split
  next page nBits bits hmember =>
    refine (h.lockRecDequeueFromPage page (fun k hk hid q hq => ?_) hd).1
    exact record_of_member hmember (heq k hk hid ▸ hq)
  next table hmember =>
    refine (h.lockTableDequeue table (fun k hk hid q hq => ?_) hd).1
    exact table_of_member hmember (heq k hk hid ▸ hq)

/-! ## Changes of a granted lock -/

section Modify

variable {f : Lock → Lock} {hf : ∀ k, (f k).id = k.id}

theorem mem_modifyLock_of_ne {i : LockId} (hl : l ∈ s.locks) (hne : l.id ≠ i) :
    l ∈ (s.modifyLock i f hf).locks :=
  List.mem_map.mpr ⟨l, hl, if_neg hne⟩

theorem mem_modifyLock_self (hl : l ∈ s.locks) : f l ∈ (s.modifyLock l.id f hf).locks :=
  List.mem_map.mpr ⟨l, hl, if_pos rfl⟩

theorem modifyLock_cases (hl : l ∈ s.locks) {k : Lock}
    (hk : k ∈ (s.modifyLock l.id f hf).locks) : k = f l ∨ k ∈ s.locks ∧ k.id ≠ l.id := by
  obtain ⟨k', hk', rfl⟩ := List.mem_map.mp hk
  split
  next hid => exact .inl (eq_of_id_eq hk' hl hid ▸ rfl)
  next hid => exact .inr ⟨hk', hid⟩

theorem wait_modifyLock (hl : l ∈ s.locks) (hw : (f l).wait = false) {k : Lock}
    (hk : k ∈ (s.modifyLock l.id f hf).locks) (hkw : k.wait) : k ∈ s.locks ∧ k.id ≠ l.id := by
  rcases modifyLock_cases hl hk with rfl | hk
  · exact absurd (hw.symm.trans hkw) Bool.noConfusion
  · exact hk

theorem Basic.changeLock (h : Basic d y s) (hl : l ∈ s.locks) (hw : (f l).wait = false)
    (htrx : (f l).trx = l.trx)
    (hmode : ∀ page heapNo, (f l).On (.record page heapNo) →
      (f l).typeMode.mode = .s ∨ (f l).typeMode.mode = .x)
    (hd : ∀ t, some t ≠ d' → some t ≠ d ∧ (l.wait → l.trx ≠ t)) :
    Basic d' y (s.modifyLock l.id f hf) := by
  have hwait : ∀ k ∈ (s.modifyLock l.id f hf).locks, k.wait → k ∈ s.locks := fun k hk hkw =>
    (wait_modifyLock hl hw hk hkw).1
  refine ⟨fun k hk hkw => h.single k (hwait k hk hkw) hkw,
    fun k hk hkw => h.waitLock k (hwait k hk hkw) hkw, fun t i ht hi => ?_, h.lockWait,
    fun k hk page heapNo hon => ?_, fun k hk hkw => h.supremum k (hwait k hk hkw) hkw,
    fun t i hi => ?_⟩
  · obtain ⟨k, hk, hid, hkt, hkw⟩ := h.pointed t i (hd t ht).1 hi
    refine ⟨k, mem_modifyLock_of_ne hk fun hkl => ?_, hid, hkt, hkw⟩
    obtain rfl := eq_of_id_eq hk hl hkl
    exact (hd t ht).2 hkw hkt
  · rcases modifyLock_cases hl hk with rfl | ⟨hk, -⟩
    · exact hmode page heapNo hon
    · exact h.mode k hk page heapNo hon
  · obtain ⟨hlt, hgranted⟩ := h.autoinc t i hi
    refine ⟨hlt, fun k hk hid => ?_⟩
    rcases modifyLock_cases hl hk with rfl | ⟨hk, -⟩
    · exact ⟨htrx.trans (hgranted l hl ((hf l).symm.trans hid)).1, hw⟩
    · exact hgranted k hk hid

theorem Basic.modifyLock (h : Basic d y s) (hl : l ∈ s.locks) (hw : l.wait = false)
    (hfw : (f l).wait = false) (hft : (f l).trx = l.trx)
    (hmode : ∀ page heapNo, (f l).On (.record page heapNo) →
      (f l).typeMode.mode = .s ∨ (f l).typeMode.mode = .x) :
    Basic d y (s.modifyLock l.id f hf) :=
  h.changeLock hl hfw hft hmode fun _ ht =>
    ⟨ht, fun hlw => absurd (hw.symm.trans hlw) Bool.noConfusion⟩

end Modify

theorem weaker_resetNthBit (hw : l.wait = false) (heapNo : ℕ) :
    Weaker (l.resetNthBit heapNo) l where
  id_eq := l.resetNthBit_id heapNo
  trx_eq := l.resetNthBit_trx heapNo
  core_eq := congrArg TypeMode.core (l.resetNthBit_typeMode heapNo)
  wait h := by simpa [Lock.wait] using h
  on q h := (Lock.on_resetNthBit.mp h).1
  on_of_wait h := by simp [Lock.wait] at h hw; simp [hw] at h

theorem Basic.resetNthBit (h : Basic d y s) (hl : l ∈ s.locks) (hw : l.wait = false) (heapNo : ℕ) :
    Basic d y (s.modifyLock l.id (·.resetNthBit heapNo) fun k => k.resetNthBit_id heapNo) := by
  refine h.modifyLock hl hw (by simpa [Lock.wait] using hw) (l.resetNthBit_trx heapNo)
    fun page heapNo' hon => ?_
  rw [Lock.resetNthBit_typeMode]
  exact h.mode l hl page heapNo' (Lock.on_resetNthBit.mp hon).1

theorem Basic.lockRecUnlock (h : Basic none none s) (ht : s.lockWait t = false) (page : PageId)
    (heapNo : ℕ) (mode : LockMode) : Freed none none s (s.lockRecUnlock t page heapNo mode) := by
  unfold LockSys.lockRecUnlock
  split
  next l hfind =>
    obtain ⟨hl, hon⟩ := mem_recLocks.mp (List.mem_of_find?_eq_some hfind)
    have htrx : l.trx = t := by
      have := List.find?_some hfind
      simp only [Bool.and_eq_true, decide_eq_true_eq] at this
      exact this.1
    have hw : l.wait = false := h.not_wait ht hl htrx
    obtain ⟨hbasic, ids, hgranted, hseen⟩ := (h.resetNthBit hl hw heapNo).grantWaiters
      ((s.recLocks page heapNo).map Lock.id)
    have hshrink : Release s
        (s.modifyLock l.id (·.resetNthBit heapNo) fun k => k.resetNthBit_id heapNo) := by
      refine .of_shrink (fun k hk => ?_) rfl rfl
      rcases modifyLock_cases hl hk with rfl | ⟨hk, -⟩
      · exact ⟨l, hl, weaker_resetNthBit hw heapNo, by simp [Lock.wait]⟩
      · exact ⟨k, hk, .refl k, rfl⟩
    refine ⟨hbasic, hshrink.trans hgranted.release, fun hstuck => hgranted.stuck fun k hk hkw => ?_⟩
    have hks : k ∈ s.locks := by
      rcases modifyLock_cases hl hk with rfl | ⟨hk, -⟩
      · simp [Lock.wait] at hkw hw
        simp [hw] at hkw
      · exact hk
    obtain ⟨a, ha, hlt, hblocks⟩ := hstuck k hks hkw
    by_cases hal : a.id = l.id
    · -- The lock that lost its bit blocked the request, in the queue of the record or elsewhere.
      obtain rfl := eq_of_id_eq ha hl hal
      obtain ⟨q, hkq, haq, hwait⟩ := hblocks
      by_cases hq : k.On (.record page heapNo)
      · exact hseen k hk hkw (List.mem_map_of_mem (mem_recLocks.mpr ⟨hks, hq⟩))
      · have hreset : (a.resetNthBit heapNo).On q := by
          refine Lock.on_resetNthBit.mpr ⟨haq, ?_⟩
          rintro page' rfl
          exact hq (Lock.onPage_unique haq.1 hon.1 ▸ hkq)
        refine .inr ⟨_, mem_modifyLock_self ha, by simpa using hlt, q, hkq, hreset, ?_⟩
        rw [← hwait]
        exact Queue.hasToWait_congr (a.resetNthBit_trx heapNo)
          (congrArg TypeMode.core (a.resetNthBit_typeMode heapNo))
    · exact .inr ⟨a, mem_modifyLock_of_ne ha hal, hlt, hblocks⟩
  next => exact .refl h

/-! ## Release of all locks, and cancellation -/

theorem Basic.releaseLocks (h : Basic none none s) (ht : s.lockWait t = false) (count : ℕ) :
    Freed none none s (LockSys.releaseLocks t count s) := by
  induction count generalizing s with
  | zero => exact .refl h
  | succ count ih =>
    unfold LockSys.releaseLocks
    split
    next l hlast =>
      obtain ⟨hl, htrx⟩ := mem_filter.mp (List.mem_of_getLast? hlast)
      have hw := h.not_wait ht hl (of_decide_eq_true htrx)
      have hfreed := h.dequeue hl hw
      exact hfreed.trans (ih hfreed.basic (hfreed.release.lockWait t ht))
    next => exact .refl h

theorem Basic.dequeueIds (h : Basic d y s) {ids : List LockId}
    (hids : ∀ i ∈ ids, ∀ l ∈ s.locks, l.id = i → l.wait = false) :
    Freed d y s (ids.foldl dequeueId s) := by
  induction ids generalizing s with
  | nil => exact .refl h
  | cons i ids ih =>
    have hfirst : Freed d y s (s.dequeueId i) := by
      unfold LockSys.dequeueId
      split
      next l hfind =>
        obtain ⟨hl, hid⟩ := find?_eq_some_iff.mp hfind
        exact h.dequeue hl (hids i mem_cons_self l hl hid)
      next => exact .refl h
    refine hfirst.trans (ih hfirst.basic fun j hj l' hl' hid => ?_)
    obtain ⟨l, hl, hweak⟩ := hfirst.release.weaker l' hl'
    have hw := hids j (mem_cons_of_mem i hj) l hl (hweak.id_eq.symm.trans hid)
    exact Bool.eq_false_iff.mpr fun hw' =>
      absurd (hw.symm.trans (hweak.wait hw')) Bool.noConfusion

theorem Basic.lockReleaseAutoincLocks (h : Basic d y s) (t : TrxRef) :
    Freed d y s (s.lockReleaseAutoincLocks t) :=
  h.dequeueIds fun i hi l hl hid => ((h.autoinc t i hi).2 l hl hid).2

theorem Freed.endLockWait (h : Freed d y s s') (hd : d = none ∨ d = some t)
    (ht : ∀ l ∈ s'.locks, l.wait → l.trx ≠ t) : Freed none y s (s'.endLockWait t) where
  basic := h.basic.endLockWait hd ht
  release :=
    { h.release with
      lockWait := fun t' ht' => by
        by_cases htt : t' = t
        · rw [htt]
          exact update_self ..
        · exact (update_of_ne htt ..).trans (h.release.lockWait t' ht') }
  stuck := h.stuck

theorem Basic.lockCancelWaitingAndRelease (h : Basic none y s) (hl : l ∈ s.locks)
    (hw : l.wait) : Freed none y s (s.lockCancelWaitingAndRelease l) ∧
      ∀ k ∈ (s.lockCancelWaitingAndRelease l).locks, k.id ≠ l.id := by
  -- The request is the only one of its transaction that waits, also after a release.
  have hother : ∀ {s'}, Release s s' → (∀ k ∈ s'.locks, k.id ≠ l.id) →
      ∀ k ∈ s'.locks, k.wait → k.trx ≠ l.trx := by
    intro s' hr hout k' hk' hkw htrx
    obtain ⟨k, hk, hweak⟩ := hr.weaker k' hk'
    have hkl := h.wait_unique hk hl (hweak.wait hkw) hw (hweak.trx_eq.symm.trans htrx)
    exact hout k' hk' (hweak.id_eq.trans (congrArg Lock.id hkl))
  have hd : ∀ {s'}, Release s s' → ∀ t, some t ≠ some l.trx → some t ≠ none ∧
      ∀ k ∈ s'.locks, k.id = l.id → k.wait → k.trx ≠ t := by
    intro s' hr t ht
    refine ⟨Option.some_ne_none t, fun k' hk' hid _ htrx => ht ?_⟩
    obtain ⟨k, hk, hweak⟩ := hr.weaker k' hk'
    obtain rfl := eq_of_id_eq hk hl (hweak.id_eq.symm.trans hid)
    rw [← htrx, hweak.trx_eq]
  unfold LockSys.lockCancelWaitingAndRelease
  split
  next page nBits bits hmember =>
    obtain ⟨hfreed, hout⟩ := h.lockRecDequeueFromPage page
      (fun k hk hid q hq => record_of_member hmember (eq_of_id_eq hk hl hid ▸ hq))
      (hd (.refl s))
    exact ⟨hfreed.endLockWait (.inr rfl) (hother hfreed.release hout), hout⟩
  next table hmember =>
    have hauto := h.lockReleaseAutoincLocks l.trx
    obtain ⟨hfreed, hout⟩ := hauto.basic.lockTableDequeue table
      (fun k' hk' hid q hq => by
        obtain ⟨k, hk, hweak⟩ := hauto.release.weaker k' hk'
        obtain rfl := eq_of_id_eq hk hl (hweak.id_eq.symm.trans hid)
        exact table_of_member hmember (hweak.on q hq))
      (hd hauto.release)
    have hall := hauto.trans hfreed
    exact ⟨hall.endLockWait (.inr rfl) (hother hall.release hout), hout⟩

/-! ## Which locks stay, and how many requests wait -/

def place (l : Lock) : LockId × LockMember := (l.id, l.member)

theorem on_of_place_eq {q : Queue} (h : place l = place a) (ha : a.On q) : l.On q := by
  have hm : l.member = a.member := congrArg Prod.snd h
  cases q with
  | record page heapNo => simpa [Lock.On, Lock.onPage, Lock.getNthBit, hm] using ha
  | table t => simpa [Lock.On, Lock.onTable, hm] using ha

theorem grantWaiters_places (s : LockSys) (scope : List LockId) :
    (s.grantWaiters scope).locks.map place = s.locks.map place := by
  induction scope generalizing s with
  | nil => rfl
  | cons i scope ih =>
    refine (ih (s.grantIfPossible i)).trans ?_
    unfold grantIfPossible
    split
    · split
      · refine (congrArg (List.map place) (rememberAutoinc_eq _ _).1).trans ?_
        refine List.map_map.trans (map_congr_left fun k _ => ?_)
        simp only [Function.comp_apply]
        split <;> rfl
      · rfl
    · rfl

section Places

variable {p : LockId × LockMember}

theorem mem_places_dequeue (hp : p ∈ s.locks.map place) (hl : p.1 ≠ l.id) :
    p ∈ (s.dequeue l).locks.map place := by
  have hremoved : p ∈ (s.removeLock l.id).locks.map place := by
    obtain ⟨k, hk, rfl⟩ := List.mem_map.mp hp
    exact List.mem_map_of_mem (mem_filter.mpr ⟨hk, by simpa [place] using hl⟩)
  unfold dequeue
  split
  · rwa [lockRecDequeueFromPage, grantWaiters_places]
  · rwa [lockTableDequeue, grantWaiters_places, (lockTableRemoveLow_locks s l _).1]

theorem mem_places_dequeueIds {ids : List LockId} (hp : p ∈ s.locks.map place)
    (hids : p.1 ∉ ids) : p ∈ (ids.foldl dequeueId s).locks.map place := by
  induction ids generalizing s with
  | nil => exact hp
  | cons j ids ih =>
    obtain ⟨hij, hrest⟩ := not_or.mp (mem_cons.not.mp hids)
    refine ih ?_ hrest
    unfold dequeueId
    split
    next l hfind => exact mem_places_dequeue hp ((find?_eq_some_iff.mp hfind).2 ▸ hij)
    next => exact hp

theorem Basic.mem_places_cancel (h : Basic d y s) (hl : l ∈ s.locks) (ha : a ∈ s.locks)
    (htrx : a.trx ≠ l.trx) : place a ∈ (s.lockCancelWaitingAndRelease l).locks.map place := by
  have hne : a.id ≠ l.id := fun hid => htrx (congrArg Lock.trx (eq_of_id_eq ha hl hid))
  have hmem : place a ∈ s.locks.map place := List.mem_map_of_mem ha
  have hauto : place a ∈ (s.lockReleaseAutoincLocks l.trx).locks.map place :=
    mem_places_dequeueIds hmem fun hi => htrx ((h.autoinc l.trx a.id hi).2 a ha rfl).1
  unfold LockSys.lockCancelWaitingAndRelease LockSys.endLockWait
  split
  next page nBits bits hm =>
    have hkept := mem_places_dequeue hmem hne
    simpa only [LockSys.dequeue, hm] using hkept
  next table hm =>
    have hkept := mem_places_dequeue hauto hne
    simpa only [LockSys.dequeue, hm] using hkept

end Places

theorem Release.countP_wait_lt (h : Release s s') (hl : l ∈ s.locks) (hw : l.wait)
    (hout : ∀ k ∈ s'.locks, k.id ≠ l.id) :
    s'.locks.countP Lock.wait < s.locks.countP Lock.wait := by
  have hnodup : ((s'.locks.filter Lock.wait).map Lock.id).Nodup := by
    refine pairwise_map.mpr ((s'.sorted.sublist filter_sublist).imp ?_)
    exact fun hlt => hlt.ne
  have hmem : l.id ∈ (s.locks.filter Lock.wait).map Lock.id :=
    List.mem_map_of_mem (mem_filter.mpr ⟨hl, hw⟩)
  have hsub : (s'.locks.filter Lock.wait).map Lock.id ⊆
      ((s.locks.filter Lock.wait).map Lock.id).erase l.id := by
    intro i hi
    obtain ⟨k', hk', rfl⟩ := List.mem_map.mp hi
    obtain ⟨hk', hkw⟩ := mem_filter.mp hk'
    obtain ⟨k, hk, hweak⟩ := h.weaker k' hk'
    refine (List.mem_erase_of_ne (hout k' hk')).mpr (hweak.id_eq ▸ ?_)
    exact List.mem_map_of_mem (mem_filter.mpr ⟨hk, hweak.wait hkw⟩)
  have hle := (subperm_of_subset hnodup hsub).length_le
  rw [length_erase_of_mem hmem, length_map, length_map,
    ← countP_eq_length_filter, ← countP_eq_length_filter] at hle
  have hpos : 0 < s.locks.countP Lock.wait := countP_pos_iff.mpr ⟨l, hl, hw⟩
  omega

end LockSys

end MySQL.Innobase
