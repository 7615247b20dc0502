import MySQL.Innobase.Lock.Move

/-!
# Safety of the lock system

What is true between any two sections under the kernel mutex: record locks exclude each
other, a request waits only as long as some lock ahead of it conflicts, and no transactions
wait for each other in a circle.
-/

namespace MySQL.Innobase

namespace LockSys

variable {cfg : LockConfig} {moves : Bool → Bool → Bool} {s s' : LockSys} {act : LockAct}

/-! ## One section -/

theorem Basic.step (h : Basic none none s) (hstep : step cfg moves s act = some s') :
    Keeps s s' ∨ ∃ donator donatorHeapNo receiver receiverHeapNo,
      moves (donatorHeapNo = heapNoSupremum) (receiverHeapNo = heapNoSupremum) = true ∧
        Moved (.record donator donatorHeapNo) receiver receiverHeapNo s
          (· ∈ s.recLocks donator donatorHeapNo) s' := by
  cases act with
  | recLock trx impl mode page heapNo nHeap =>
    obtain ⟨⟨hrun, hheap⟩, hstep⟩ := Option.ite_none_right_eq_some.mp hstep
    obtain ⟨err, s₁, hsome, hkeeps⟩ := h.lockRecLock cfg impl mode page trx hrun hheap
    rw [hsome] at hstep
    exact .inl (Option.some.inj hstep ▸ hkeeps)
  | insertCheck trx page nextRecHeapNo nHeap =>
    obtain ⟨⟨hrun, hheap⟩, hstep⟩ := Option.ite_none_right_eq_some.mp hstep
    obtain ⟨err, s₁, hsome, hkeeps, -⟩ := h.lockRecInsertCheckAndLock cfg page trx hrun hheap
    rw [hsome] at hstep
    exact .inl (Option.some.inj hstep ▸ hkeeps)
  | table trx table mode =>
    obtain ⟨hrun, hstep⟩ := Option.ite_none_right_eq_some.mp hstep
    obtain ⟨err, s₁, hsome, hkeeps⟩ := h.lockTable cfg table mode hrun
    rw [hsome] at hstep
    exact .inl (Option.some.inj hstep ▸ hkeeps)
  | unlock trx page heapNo mode =>
    obtain ⟨hrun, hstep⟩ := Option.ite_none_right_eq_some.mp hstep
    exact .inl (Option.some.inj hstep ▸ (h.lockRecUnlock hrun page heapNo mode).keeps)
  | cancel trx =>
    obtain ⟨-, hstep⟩ := Option.ite_none_right_eq_some.mp hstep
    obtain ⟨l, hfound, rfl⟩ := Option.map_eq_some_iff.mp hstep
    obtain ⟨hl, hw, -⟩ := h.of_waitLock? hfound
    exact .inl (h.lockCancelWaitingAndRelease hl hw).1.keeps
  | release trx =>
    obtain ⟨hrun, hstep⟩ := Option.ite_none_right_eq_some.mp hstep
    exact .inl (Option.some.inj hstep ▸ (h.releaseLocks hrun 1000).keeps)
  | releaseAutoinc trx =>
    obtain ⟨-, hstep⟩ := Option.ite_none_right_eq_some.mp hstep
    exact .inl (Option.some.inj hstep ▸ (h.lockReleaseAutoincLocks trx).keeps)
  | inherit noGapLocks heirPage page heirHeapNo heirNHeap heapNo =>
    obtain ⟨⟨hheap, -⟩, hstep⟩ := Option.ite_none_right_eq_some.mp hstep
    exact .inl (Option.some.inj hstep ▸ h.lockRecInheritToGap noGapLocks hheap)
  | move receiver donator receiverHeapNo receiverNHeap donatorHeapNo =>
    obtain ⟨⟨hheap, hempty, hmoves⟩, hstep⟩ := Option.ite_none_right_eq_some.mp hstep
    exact .inr ⟨donator, donatorHeapNo, receiver, receiverHeapNo, hmoves,
      Option.some.inj hstep ▸ h.lockRecMove donator donatorHeapNo hheap hempty⟩

/-! ## Every run -/

theorem reachable_basic (hs : (lockSys cfg moves).Reachable s) : Basic none none s := by
  refine hs.invariant (fun s h => h ▸ .empty) fun s act s' _ h hstep => ?_
  rcases h.step hstep with hkeeps | ⟨_, _, _, _, -, hmoved⟩
  · exact hkeeps.basic
  · exact hmoved.basic

theorem reachable_exclusive (hmoves : moves true false = false)
    (hs : (lockSys cfg moves).Reachable s) : Exclusive s := by
  refine hs.invariant (fun s h => h ▸ fun _ ha => absurd ha List.not_mem_nil)
    fun s act s' hr h hstep => ?_
  rcases (reachable_basic hr).step hstep with hkeeps | ⟨_, dh, _, rh, hallowed, hmoved⟩
  · exact hkeeps.exclusive h
  · refine hmoved.exclusive h fun hdon => ?_
    by_contra hrec
    simp [hdon, hrec, hmoves] at hallowed

theorem reachable_stuck_acyclic (hmoves : ∀ d r, moves d r = true → d = r)
    (hs : (lockSys cfg moves).Reachable s) : Stuck s ∧ Lib.Acyclic (Edge s) := by
  refine hs.invariant (P := fun s => Stuck s ∧ Lib.Acyclic (Edge s)) (fun s h => ?_)
    fun s act s' hr h hstep => ?_
  · obtain rfl : s = LockSys.empty := h
    exact ⟨fun _ hl => absurd hl List.not_mem_nil,
      fun _ => not_transGen_of_not_wait fun _ hk => absurd hk List.not_mem_nil⟩
  · have hbasic := reachable_basic hr
    rcases hbasic.step hstep with hkeeps | ⟨_, dh, _, rh, hallowed, hmoved⟩
    · exact ⟨hkeeps.stuck h.1, hkeeps.acyclic h.2⟩
    · have hkind : dh = heapNoSupremum ↔ rh = heapNoSupremum :=
        decide_eq_decide.mp (hmoves _ _ hallowed)
      exact ⟨hmoved.stuck hbasic h.1 hkind, h.2.mono fun _ _ => hmoved.edge hbasic hkind⟩

/-! ## Exclusion -/

/-- Granted locks of different transactions on a record are shared ones, as long as no locks
are moved from a supremum to another record; and an insert succeeds only if no other
transaction has or waits for a lock on the gap. -/
theorem recordLocks_exclude (hmoves : moves true false = false)
    (hs : (lockSys cfg moves).Reachable s) :
    (∀ a ∈ s.locks, ∀ b ∈ s.locks, a.wait = false → b.wait = false → a.trx ≠ b.trx →
      ∀ page heapNo, heapNo ≠ heapNoSupremum → a.On (.record page heapNo) →
        b.On (.record page heapNo) → a.typeMode.gap = false →
        a.typeMode.insertIntention = false → b.typeMode.gap = false →
        b.typeMode.insertIntention = false →
          a.typeMode.mode = .s ∧ b.typeMode.mode = .s) ∧
    ∀ trx page heapNo nHeap s', s.lockWait trx = false → heapNo < nHeap →
      s.lockRecInsertCheckAndLock cfg page heapNo nHeap trx = some (.success, s') →
        ∀ a ∈ s'.locks, a.trx ≠ trx → a.On (.record page heapNo) →
          a.typeMode.recNotGap = true ∨ a.typeMode.insertIntention = true := by
  have hbasic := reachable_basic hs
  refine ⟨?_, ?_⟩
  · intro a ha b hb haw hbw hne page heapNo hheap haq hbq hag hai hbg hbi
    have hcompatible := (reachable_exclusive hmoves hs).compatible ha hb haw hbw hne hheap haq hbq
      (by simp [TypeMode.coversRecord, hag, hai]) (by simp [TypeMode.coversRecord, hbg, hbi])
    rcases hbasic.mode a ha page heapNo haq with hma | hma <;>
      rcases hbasic.mode b hb page heapNo hbq with hmb | hmb <;>
      simp [hma, hmb, LockMode.compatible] at hcompatible ⊢
  · intro trx page heapNo nHeap s' hrun hheap hcall a ha hne hon
    obtain ⟨err, s₁, hsome, -, hsuccess⟩ :=
      hbasic.lockRecInsertCheckAndLock cfg page trx hrun hheap
    obtain ⟨rfl, rfl⟩ := Prod.mk.inj (Option.some.inj (hsome.symm.trans hcall))
    have hgap := hsuccess rfl a ha hne hon
    simpa [coversGap, or_iff_not_imp_left] using hgap

theorem empty_reachable (cfg : LockConfig) (moves : Bool → Bool → Bool) :
    (lockSys cfg moves).Reachable LockSys.empty := .start rfl

def askingVictim : LockConfig := ⟨fun _ _ _ => true, 200, 1000000⟩

def readersAndWriter : List LockAct :=
  [.recLock 1 false (.ordinary false) ⟨0, 3⟩ 2 4, .recLock 2 false (.recNotGap false) ⟨0, 3⟩ 2 4,
    .recLock 3 false (.ordinary true) ⟨0, 3⟩ 2 4, .move ⟨0, 4⟩ ⟨0, 3⟩ 5 6 2]

theorem recordLocks_exclude_readersAndWriter :
    ∃ s, (lockSys askingVictim fun d r => !d || r).Reachable s ∧
      ∃ a ∈ s.locks, ∃ b ∈ s.locks, (a.trx = 1 ∧ a.On (.record ⟨0, 4⟩ 5)) ∧
        (b.trx = 2 ∧ b.On (.record ⟨0, 4⟩ 5)) ∧ a.typeMode.mode = .s ∧ b.typeMode.mode = .s := by
  obtain ⟨s, hs, hp⟩ := (empty_reachable askingVictim fun d r => !d || r).exists_of_run
    readersAndWriter
    (fun s => ∃ a ∈ s.locks, ∃ b ∈ s.locks, (a.trx = 1 ∧ a.On (.record ⟨0, 4⟩ 5)) ∧
      (b.trx = 2 ∧ b.On (.record ⟨0, 4⟩ 5)) ∧ a.wait = false ∧ b.wait = false ∧
        a.typeMode.gap = false ∧ a.typeMode.insertIntention = false ∧
          b.typeMode.gap = false ∧ b.typeMode.insertIntention = false) (by decide)
  obtain ⟨a, ha, b, hb, ⟨hat, haq⟩, ⟨hbt, hbq⟩, haw, hbw, hag, hai, hbg, hbi⟩ :=
    of_decide_eq_true hp
  have hne : a.trx ≠ b.trx := by simp [hat, hbt]
  exact ⟨s, hs, a, ha, b, hb, ⟨hat, haq⟩, ⟨hbt, hbq⟩, (recordLocks_exclude rfl hs).1 a ha b hb haw
    hbw hne ⟨0, 4⟩ 5 (by decide) haq hbq hag hai hbg hbi⟩

def supremumToRecord : List LockAct :=
  [.recLock 1 false (.ordinary true) ⟨0, 3⟩ 1 4, .recLock 2 false (.ordinary true) ⟨0, 3⟩ 1 4,
    .move ⟨0, 4⟩ ⟨0, 3⟩ 2 4 1]

/-- Exclusive locks on a supremum do not conflict, but on the record they are moved to they
cover the record itself. -/
theorem exists_exclusive_pair_of_supremum :
    ∃ s, (lockSys askingVictim fun _ _ => true).Reachable s ∧
      ∃ a ∈ s.locks, ∃ b ∈ s.locks, a.wait = false ∧ b.wait = false ∧ a.trx ≠ b.trx ∧
        a.On (.record ⟨0, 4⟩ 2) ∧ b.On (.record ⟨0, 4⟩ 2) ∧ a.typeMode.gap = false ∧
        a.typeMode.insertIntention = false ∧ b.typeMode.gap = false ∧
        b.typeMode.insertIntention = false ∧ a.typeMode.mode = .x ∧ b.typeMode.mode = .x := by
  obtain ⟨s, hs, hp⟩ :=
    (empty_reachable askingVictim fun _ _ => true).exists_of_run supremumToRecord
    (fun s => ∃ a ∈ s.locks, ∃ b ∈ s.locks, a.wait = false ∧ b.wait = false ∧ a.trx ≠ b.trx ∧
      a.On (.record ⟨0, 4⟩ 2) ∧ b.On (.record ⟨0, 4⟩ 2) ∧ a.typeMode.gap = false ∧
      a.typeMode.insertIntention = false ∧ b.typeMode.gap = false ∧
      b.typeMode.insertIntention = false ∧ a.typeMode.mode = .x ∧ b.typeMode.mode = .x)
    (by decide)
  exact ⟨s, hs, of_decide_eq_true hp⟩

/-! ## Waiting -/

/-- Every request for a record that waits has one bit, is the one its transaction waits for,
and has to wait for some lock ahead of it in the queue of the page. -/
theorem waiting_hasToWait (hmoves : ∀ d r, moves d r = true → d = r)
    (hs : (lockSys cfg moves).Reachable s) :
    ∀ l ∈ s.locks, l.wait → ∀ page, l.onPage page → ∃ heapNo,
      (∀ i, l.getNthBit i = true ↔ i = heapNo) ∧ s.waitLock l.trx = some l.id ∧
      ∃ a ∈ (s.pageLocks page).takeWhile fun k => k.id ≠ l.id,
        a.getNthBit heapNo = true ∧ lockHasToWait l a = true := by
  intro l hl hw page hpage
  have hbasic := reachable_basic hs
  obtain ⟨q, hq⟩ := hbasic.single l hl hw
  obtain ⟨heapNo, rfl⟩ : ∃ heapNo, q = .record page heapNo := by
    cases hm : l.member with
    | recLock p nBits bits =>
      obtain rfl : p = page := by simpa [Lock.onPage, hm] using hpage
      exact record_of_member hm hq.on
    | tabLock t => simp [Lock.onPage, hm] at hpage
  obtain ⟨a, ha, hlt, hblocks⟩ := (reachable_stuck_acyclic hmoves hs).1 l hl hw
  obtain ⟨hon, hwait⟩ := hq.blocks_iff.mp hblocks
  refine ⟨heapNo, fun i => ?_, hbasic.waitLock l hl hw, a, ?_, hon.2,
    hq.lockHasToWait_eq.trans hwait⟩
  · simpa [Lock.On, hpage] using hq (.record page i)
  · have hsorted : (s.pageLocks page).Pairwise fun l a => l.id < a.id :=
      s.sorted.sublist List.filter_sublist
    rw [mem_takeWhile_iff hsorted (mem_pageLocks.mpr ⟨hl, hpage⟩)]
    exact ⟨mem_pageLocks.mpr ⟨ha, hon.1⟩, hlt⟩

/-- The writer waits for the readers also after the move. -/
theorem waiting_hasToWait_readersAndWriter :
    ∃ s, (lockSys askingVictim fun d r => d == r).Reachable s ∧ ∃ l ∈ s.locks, l.trx = 3 ∧
      ∃ a ∈ (s.pageLocks ⟨0, 4⟩).takeWhile fun k => k.id ≠ l.id, lockHasToWait l a = true := by
  obtain ⟨s, hs, hp⟩ := (empty_reachable askingVictim fun d r => d == r).exists_of_run
    readersAndWriter
    (fun s => ∃ l ∈ s.locks, l.trx = 3 ∧ l.wait = true ∧ l.onPage ⟨0, 4⟩ = true) (by decide)
  obtain ⟨l, hl, htrx, hw, hpage⟩ := of_decide_eq_true hp
  obtain ⟨heapNo, -, -, a, ha, -, hwait⟩ :=
    waiting_hasToWait (fun _ _ => eq_of_beq) hs l hl hw ⟨0, 4⟩ hpage
  exact ⟨s, hs, l, hl, htrx, a, ha, hwait⟩

/-! ## Deadlocks -/

/-- The transaction is in a lock wait, and the other one owns a lock ahead of its request for
which the request has to wait. -/
def WaitsFor (s : LockSys) (t u : TrxRef) : Prop :=
  s.lockWait t = true ∧ ∃ l, s.waitLock? t = some l ∧
    ∃ a ∈ s.locksAhead l, lockHasToWait l a = true ∧ a.trx = u

theorem Basic.edge_of_waitsFor (h : Basic none none s) {t u : TrxRef} (htu : WaitsFor s t u) :
    Edge s t u := by
  obtain ⟨-, l, hfound, a, ha, hwait, rfl⟩ := htu
  obtain ⟨hl, hw, htrx⟩ := h.of_waitLock? hfound
  obtain ⟨q, hq⟩ := h.single l hl hw
  obtain ⟨ha, hlt, hon⟩ := (mem_locksAhead_iff hl hq).mp ha
  exact ⟨l, hl, hw, htrx, a, ha, hlt,
    hq.blocks_iff.mpr ⟨hon, hq.lockHasToWait_eq.symm.trans hwait⟩, rfl⟩

/-- Every request returns, with the searches for deadlocks that it makes, and there is no
circle of transactions that wait for each other. -/
theorem waitsFor_acyclic (hmoves : ∀ d r, moves d r = true → d = r)
    (hs : (lockSys cfg moves).Reachable s) :
    (∀ trx, s.lockWait trx = false →
      (∀ impl mode page heapNo nHeap, heapNo < nHeap →
        (s.lockRecLock cfg impl mode page heapNo nHeap trx).isSome ∧
          (s.lockRecInsertCheckAndLock cfg page heapNo nHeap trx).isSome) ∧
      ∀ table mode, (s.lockTable cfg table mode trx).isSome) ∧
    ∀ t, ¬ Relation.TransGen (WaitsFor s) t t := by
  have hbasic := reachable_basic hs
  refine ⟨fun trx hrun => ⟨fun impl mode page heapNo nHeap hheap => ⟨?_, ?_⟩,
    fun table mode => ?_⟩, ?_⟩
  · obtain ⟨err, s', hsome, -⟩ := hbasic.lockRecLock cfg impl mode page trx hrun hheap
    exact Option.isSome_iff_exists.mpr ⟨_, hsome⟩
  · obtain ⟨err, s', hsome, -⟩ := hbasic.lockRecInsertCheckAndLock cfg page trx hrun hheap
    exact Option.isSome_iff_exists.mpr ⟨_, hsome⟩
  · obtain ⟨err, s', hsome, -⟩ := hbasic.lockTable cfg table mode hrun
    exact Option.isSome_iff_exists.mpr ⟨_, hsome⟩
  · exact (reachable_stuck_acyclic hmoves hs).2.mono fun _ _ => hbasic.edge_of_waitsFor

def crossedWriters : List LockAct :=
  [.recLock 1 false (.ordinary true) ⟨0, 3⟩ 2 4, .recLock 2 false (.ordinary true) ⟨0, 3⟩ 3 4,
    .recLock 1 false (.ordinary true) ⟨0, 3⟩ 3 4, .recLock 2 false (.ordinary true) ⟨0, 3⟩ 2 4]

/-- The second request closes a circle and is taken back; the first one waits. -/
theorem waitsFor_acyclic_crossedWriters :
    ∃ s, (lockSys askingVictim fun d r => d == r).Reachable s ∧ s.lockWait 1 = true ∧
      s.lockWait 2 = false ∧ (∀ t, ¬ Relation.TransGen (WaitsFor s) t t) ∧
        (s.lockTable askingVictim 7 .ix 2).isSome := by
  obtain ⟨s, hs, hp⟩ :=
    (empty_reachable askingVictim fun d r => d == r).exists_of_run crossedWriters
    (fun s => s.lockWait 1 = true ∧ s.lockWait 2 = false) (by decide)
  obtain ⟨hone, htwo⟩ := of_decide_eq_true hp
  obtain ⟨hreturn, hacyclic⟩ := waitsFor_acyclic (fun _ _ => eq_of_beq) hs
  exact ⟨s, hs, hone, htwo, hacyclic, (hreturn 2 htwo).2 7 .ix⟩

end LockSys

end MySQL.Innobase
