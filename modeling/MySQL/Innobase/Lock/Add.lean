import MySQL.Lib.Graph
import MySQL.Innobase.Lock.Dequeue

/-!
# Adding locks

A lock is added to a queue as a new structure at its end, or by setting one more bit of a
structure that exists.  The second is done only where nothing waits, so in both cases no
request that waits gets one more lock ahead of it.
-/

namespace MySQL.Innobase

def TypeMode.coversRecord (m : TypeMode) : Bool := !m.gap && !m.insertIntention

theorem Queue.hasToWait_of_coversRecord (page : PageId) {heapNo : ℕ} {trx : TrxRef}
    {m : TypeMode} {a : Lock} (hheap : heapNo ≠ heapNoSupremum) (htrx : trx ≠ a.trx)
    (hm : m.coversRecord = true) (ha : a.typeMode.coversRecord = true) :
    (Queue.record page heapNo).hasToWait trx m a = !m.mode.compatible a.typeMode.mode := by
  simp only [TypeMode.coversRecord, Bool.and_eq_true, Bool.not_eq_true'] at hm ha
  simp [Queue.hasToWait, lockRecHasToWait, hheap, htrx, hm, ha]

namespace LockSys

variable {s s' s'' : LockSys} {l a c : Lock} {q q' : Queue} {d y : Option TrxRef}
  {t u trx : TrxRef}

/-! ## What every section keeps -/

def Exclusive (s : LockSys) : Prop :=
  ∀ a ∈ s.locks, ∀ b ∈ s.locks, a.id < b.id → b.wait = false → a.trx ≠ b.trx →
    ∀ page heapNo, heapNo ≠ heapNoSupremum → a.On (.record page heapNo) →
      b.On (.record page heapNo) → a.typeMode.coversRecord → b.typeMode.coversRecord →
        a.typeMode.mode.compatible b.typeMode.mode = true

theorem Exclusive.compatible (hs : Exclusive s) {a b : Lock} (ha : a ∈ s.locks)
    (hb : b ∈ s.locks) (haw : a.wait = false) (hbw : b.wait = false) (hne : a.trx ≠ b.trx)
    {page : PageId} {heapNo : ℕ} (hheap : heapNo ≠ heapNoSupremum)
    (haq : a.On (.record page heapNo)) (hbq : b.On (.record page heapNo))
    (hac : a.typeMode.coversRecord) (hbc : b.typeMode.coversRecord) :
    a.typeMode.mode.compatible b.typeMode.mode = true := by
  rcases lt_trichotomy a.id b.id with hlt | heq | hgt
  · exact hs a ha b hb hlt hbw hne page heapNo hheap haq hbq hac hbc
  · exact absurd (congrArg Lock.trx (eq_of_id_eq ha hb heq)) hne
  · rw [LockMode.compatible_comm]
    exact hs b hb a ha hgt haw hne.symm page heapNo hheap hbq haq hbc hac

def Edge (s : LockSys) (t u : TrxRef) : Prop :=
  ∃ l ∈ s.locks, l.wait ∧ l.trx = t ∧ ∃ a ∈ s.locks, a.id < l.id ∧ l.Blocks a ∧ a.trx = u

/-- A section under the kernel mutex that keeps all the invariants. -/
structure Keeps (s s' : LockSys) : Prop where
  basic : Basic none none s'
  exclusive : Exclusive s → Exclusive s'
  stuck : Stuck s → Stuck s'
  acyclic : Lib.Acyclic (Edge s) → Lib.Acyclic (Edge s')

theorem Keeps.refl (h : Basic none none s) : Keeps s s := ⟨h, id, id, id⟩

theorem Keeps.trans (h₁ : Keeps s s') (h₂ : Keeps s' s'') : Keeps s s'' :=
  ⟨h₂.basic, fun h => h₂.exclusive (h₁.exclusive h), fun h => h₂.stuck (h₁.stuck h),
    fun h => h₂.acyclic (h₁.acyclic h)⟩

theorem Weaker.coversRecord_eq {l' l : Lock} (h : Weaker l' l) :
    l'.typeMode.coversRecord = l.typeMode.coversRecord := by
  obtain ⟨-, hgap, -, hins⟩ := TypeMode.core_eq_iff.mp h.core_eq
  simp only [TypeMode.coversRecord, hgap, hins]

theorem Release.exclusive (h : Release s s') (hs : Exclusive s) : Exclusive s' := by
  intro a' ha' b' hb' hlt hw hne page heapNo hheap haq hbq hac hbc
  obtain ⟨a, ha, hwa⟩ := h.weaker a' ha'
  obtain ⟨b, hb, hwb⟩ := h.weaker b' hb'
  cases hbw : b.wait with
  | false =>
    rw [(TypeMode.core_eq_iff.mp hwa.core_eq).1, (TypeMode.core_eq_iff.mp hwb.core_eq).1]
    refine hs a ha b hb ?_ hbw ?_ page heapNo hheap (hwa.on _ haq) (hwb.on _ hbq)
      (hwa.coversRecord_eq ▸ hac) (hwb.coversRecord_eq ▸ hbc)
    · rwa [← hwa.id_eq, ← hwb.id_eq]
    · rwa [← hwa.trx_eq, ← hwb.trx_eq]
  | true =>
    -- The request was granted in between, so nothing ahead of it conflicts.
    have hfree := h.granted b' hb' hw b hb hwb.id_eq.symm hbw
    have hno : (Queue.record page heapNo).hasToWait b'.trx b'.typeMode a' = false :=
      Bool.eq_false_iff.mpr fun hwait => hfree ⟨a', ha', hlt, _, hbq, haq, hwait⟩
    rw [Queue.hasToWait_of_coversRecord page hheap hne.symm hbc hac] at hno
    rw [LockMode.compatible_comm]
    exact Bool.not_eq_false' .. |>.mp hno

theorem Release.edge (h : Release s s') (he : Edge s' t u) : Edge s t u := by
  obtain ⟨l', hl', hw, rfl, a', ha', hlt, hblocks, rfl⟩ := he
  obtain ⟨l, hl, hwl⟩ := h.weaker l' hl'
  obtain ⟨a, ha, hwa⟩ := h.weaker a' ha'
  refine ⟨l, hl, hwl.wait hw, hwl.trx_eq.symm, a, ha, ?_, hwl.blocks hwa hblocks,
    hwa.trx_eq.symm⟩
  rwa [← hwl.id_eq, ← hwa.id_eq]

theorem Freed.keeps (h : Freed none none s s') : Keeps s s' :=
  ⟨h.basic, h.release.exclusive, h.stuck, fun hs => hs.mono fun _ _ => h.release.edge⟩

/-! ## One more lock in a queue -/

/-- The lock `c` was added to the queue `q`, or got the bit for it. -/
structure Extends (q : Queue) (c : Lock) (s s' : LockSys) : Prop where
  mem : c ∈ s'.locks
  on : c.On q
  cases : ∀ l ∈ s'.locks, l ∈ s.locks ∨ l = c
  on_cases : ∀ q', c.On q' → q' = q ∨
    ∃ l ∈ s.locks, l.id = c.id ∧ l.trx = c.trx ∧ l.typeMode = c.typeMode ∧ l.On q'
  keep : ∀ l ∈ s.locks, ∃ l' ∈ s'.locks, l'.id = l.id ∧ l'.trx = l.trx ∧
    l'.typeMode = l.typeMode ∧ ∀ q', l.On q' → l'.On q'
  last : ∀ l ∈ s.locks, l.wait → l.On q → l.id < c.id
  fresh : c.wait → ∀ l ∈ s.locks, l.id < c.id
  lockWait : s'.lockWait = s.lockWait

theorem Extends.old (h : Extends q c s s') (hl : l ∈ s'.locks) (hq' : l.On q') :
    l = c ∧ q' = q ∨
      ∃ k ∈ s.locks, k.id = l.id ∧ k.trx = l.trx ∧ k.typeMode = l.typeMode ∧ k.On q' := by
  rcases h.cases l hl with hl | rfl
  · exact .inr ⟨l, hl, rfl, rfl, rfl, hq'⟩
  · rcases h.on_cases q' hq' with rfl | hold
    · exact .inl ⟨rfl, rfl⟩
    · exact .inr hold

theorem Extends.blocked (h : Extends q c s s') (hl : s.Blocked l) : s'.Blocked l := by
  obtain ⟨a, ha, hlt, q', hlq, haq, hwait⟩ := hl
  obtain ⟨a', ha', hid, htrx, hmode, hon⟩ := h.keep a ha
  refine ⟨a', ha', hid ▸ hlt, q', hlq, hon q' haq, ?_⟩
  rw [Queue.hasToWait_congr htrx (congrArg TypeMode.core hmode), hwait]

theorem Extends.stuck (h : Extends q c s s') (hs : Stuck s) (hc : c.wait → s'.Blocked c) :
    Stuck s' := by
  intro l hl hw
  rcases h.cases l hl with hl | rfl
  · exact h.blocked (hs l hl hw)
  · exact hc hw

theorem Extends.edge (h : Extends q c s s') (he : Edge s' t u) :
    Edge s t u ∨ c.wait ∧ t = c.trx := by
  obtain ⟨l, hl, hw, rfl, a, ha, hlt, ⟨q', hlq, haq, hwait⟩, rfl⟩ := he
  rcases h.cases l hl with hls | rfl
  · rcases h.old ha haq with ⟨rfl, rfl⟩ | ⟨k, hk, hid, htrx, hmode, hkq⟩
    · exact absurd (h.last l hls hw hlq) hlt.not_gt
    · refine .inl ⟨l, hls, hw, rfl, k, hk, hid ▸ hlt, ⟨q', hlq, hkq, ?_⟩, htrx⟩
      rw [Queue.hasToWait_congr htrx (congrArg TypeMode.core hmode), hwait]
  · exact .inr ⟨hw, rfl⟩

def Compatible (q : Queue) (c : Lock) (s : LockSys) : Prop :=
  ∀ page heapNo, q = .record page heapNo → heapNo ≠ heapNoSupremum →
    c.typeMode.coversRecord → ∀ a ∈ s.locks, a.On q → a.trx ≠ c.trx → a.typeMode.coversRecord →
      a.typeMode.mode.compatible c.typeMode.mode = true

theorem Extends.exclusive (h : Extends q c s s') (hs : Exclusive s)
    (hc : c.wait = false → Compatible q c s) : Exclusive s' := by
  intro a ha b hb hlt hw hne page heapNo hheap haq hbq hac hbc
  rcases h.old ha haq with ⟨rfl, rfl⟩ | ⟨k, hk, hid, htrx, hmode, hkq⟩
  · rcases h.old hb hbq with ⟨rfl, -⟩ | ⟨m, hm, hid', htrx', hmode', hmq⟩
    · exact absurd hlt (lt_irrefl _)
    · cases haw : a.wait with
      | true => exact absurd (hid' ▸ h.fresh haw m hm) hlt.not_gt
      | false =>
        rw [LockMode.compatible_comm, ← hmode']
        exact hc haw page heapNo rfl hheap hac m hm hmq (htrx' ▸ hne.symm) (hmode' ▸ hbc)
  · rcases h.old hb hbq with ⟨rfl, rfl⟩ | ⟨m, hm, hid', htrx', hmode', hmq⟩
    · rw [← hmode]
      exact hc hw page heapNo rfl hheap hbc k hk hkq (htrx ▸ hne) (hmode ▸ hac)
    · rw [← hmode, ← hmode']
      refine hs k hk m hm (by rwa [hid, hid']) ?_ (by rwa [htrx, htrx']) page heapNo hheap hkq hmq
        (hmode ▸ hac) (hmode' ▸ hbc)
      rw [Lock.wait, hmode']
      exact hw

theorem Extends.keeps (h : Extends q c s s') (hb : Basic none none s') (hw : c.wait = false)
    (hc : Compatible q c s) : Keeps s s' where
  basic := hb
  exclusive hs := h.exclusive hs fun _ => hc
  stuck hs := h.stuck hs fun hcw => absurd (hw.symm.trans hcw) Bool.noConfusion
  acyclic hs := hs.mono fun _ _ he => (h.edge he).resolve_right fun hcw =>
    absurd (hw.symm.trans hcw.1) Bool.noConfusion

/-! ## The functions that add -/

section AddLock

variable {m : TypeMode} {member : LockMember}

theorem mem_addLock : l ∈ (s.addLock trx m member).locks ↔
    l ∈ s.locks ∨ l = ⟨s.nextLock, trx, m, member⟩ := by
  simp [addLock]

theorem extends_addLock (hq : Lock.Single ⟨s.nextLock, trx, m, member⟩ q) :
    Extends q ⟨s.nextLock, trx, m, member⟩ s (s.addLock trx m member) where
  mem := mem_addLock.mpr (.inr rfl)
  on := hq.on
  cases _ := mem_addLock.mp
  on_cases q' hq' := .inl ((hq q').mp hq')
  keep l hl := ⟨l, mem_addLock.mpr (.inl hl), rfl, rfl, rfl, fun _ => id⟩
  last l hl _ _ := s.lt_next l hl
  fresh _ l hl := s.lt_next l hl
  lockWait := rfl

theorem Basic.addLock (h : Basic none y s) (hq : Lock.Single ⟨s.nextLock, trx, m, member⟩ q)
    (hwait : m.wait → y = some trx ∧ s.waitLock trx = none)
    (hmode : ∀ page heapNo, q = .record page heapNo → m.mode = .s ∨ m.mode = .x)
    (hsup : ∀ page, q = .record page heapNoSupremum → m.gap = false) :
    Basic none y (s.addLock trx m member) := by
  have hpointer : ∀ t, (m.wait → t ≠ trx) →
      (s.addLock trx m member).waitLock t = s.waitLock t := by
    intro t ht
    unfold LockSys.addLock
    split
    next hw => exact Function.update_of_ne (ht hw) ..
    next => rfl
  have hself : m.wait → (s.addLock trx m member).waitLock trx = some s.nextLock := by
    intro hw
    simp [LockSys.addLock, hw]
  refine ⟨fun l hl hw => ?_, fun l hl hw => ?_, fun t i ht hi => ?_, fun t ht => ?_,
    fun l hl page heapNo hon => ?_, fun l hl hw page hon => ?_, fun t i hi => ?_⟩
  · rcases mem_addLock.mp hl with hl | rfl
    · exact h.single l hl hw
    · exact ⟨q, hq⟩
  · rcases mem_addLock.mp hl with hl | rfl
    · have hold := h.waitLock l hl hw
      rw [hpointer, hold]
      intro hm htrx
      rw [htrx, (hwait hm).2] at hold
      exact absurd hold (Option.some_ne_none _).symm
    · exact hself hw
  · by_cases hm : m.wait ∧ t = trx
    · obtain ⟨hm, rfl⟩ := hm
      obtain rfl := Option.some.inj ((hself hm).symm.trans hi)
      exact ⟨_, mem_addLock.mpr (.inr rfl), rfl, rfl, hm⟩
    · rw [hpointer t fun hw htrx => hm ⟨hw, htrx⟩] at hi
      obtain ⟨l, hl, hrest⟩ := h.pointed t i ht hi
      exact ⟨l, mem_addLock.mpr (.inl hl), hrest⟩
  · rw [hpointer t fun hw htrx => ht (htrx ▸ (hwait hw).1.symm)]
    exact h.lockWait t ht
  · rcases mem_addLock.mp hl with hl | rfl
    · exact h.mode l hl page heapNo hon
    · exact hmode page heapNo ((hq _).mp hon).symm
  · rcases mem_addLock.mp hl with hl | rfl
    · exact h.supremum l hl hw page hon
    · exact hsup page ((hq _).mp hon).symm
  · obtain ⟨hlt, hgranted⟩ := h.autoinc t i hi
    refine ⟨hlt.trans (Nat.lt_succ_self _), fun l hl hid => ?_⟩
    rcases mem_addLock.mp hl with hl | rfl
    · exact hgranted l hl hid
    · exact absurd hid hlt.ne'

end AddLock

section Records

variable {m : TypeMode} {page : PageId} {heapNo nHeap : ℕ}

theorem extends_setNthBit (hl : l ∈ s.locks) (hw : l.wait = false) (hpage : l.onPage page = true)
    (hbit : heapNo < l.nBits)
    (hnone : ∀ k ∈ s.locks, k.wait → ¬ k.On (.record page heapNo)) :
    Extends (.record page heapNo) (l.setNthBit heapNo) s
      (s.modifyLock l.id (·.setNthBit heapNo) fun k => k.setNthBit_id heapNo) where
  mem := mem_modifyLock_self hl
  on := (Lock.on_setNthBit hpage hbit).mpr (.inr rfl)
  cases k hk := (modifyLock_cases hl hk).symm.imp_left And.left
  on_cases q' hq' := by
    refine ((Lock.on_setNthBit hpage hbit).mp hq').symm.imp_right fun hon => ⟨l, hl, ?_⟩
    simpa using hon
  keep k hk := by
    by_cases hkl : k.id = l.id
    · obtain rfl := eq_of_id_eq hk hl hkl
      refine ⟨_, mem_modifyLock_self hk, by simp, by simp, by simp, fun q' hq' => ?_⟩
      exact (Lock.on_setNthBit hpage hbit).mpr (.inl hq')
    · exact ⟨k, mem_modifyLock_of_ne hk hkl, rfl, rfl, rfl, fun _ => id⟩
  last k hk hkw hon := absurd hon (hnone k hk hkw)
  fresh hcw := by
    rw [Lock.wait, Lock.setNthBit_typeMode] at hcw
    exact absurd (hw.symm.trans hcw) Bool.noConfusion
  lockWait := rfl

theorem Basic.setNthBit (h : Basic d y s) (hl : l ∈ s.locks) (hw : l.wait = false)
    (hmode : l.typeMode.mode = .s ∨ l.typeMode.mode = .x) (heapNo : ℕ) :
    Basic d y (s.modifyLock l.id (·.setNthBit heapNo) fun k => k.setNthBit_id heapNo) := by
  refine h.modifyLock hl hw (by simpa [Lock.wait] using hw) (l.setNthBit_trx heapNo)
    fun _ _ _ => ?_
  rwa [Lock.setNthBit_typeMode]

/-- What the functions that add a record lock have in common. -/
structure RecAdded (y : Option TrxRef) (m : TypeMode) (page : PageId) (heapNo : ℕ)
    (trx : TrxRef) (c : Lock) (s s' : LockSys) : Prop where
  basic : Basic none y s'
  extend : Extends (.record page heapNo) c s s'
  trx_eq : c.trx = trx
  typeMode_eq : c.typeMode = m

theorem Basic.lockRecCreate (h : Basic none y s) (page : PageId) (trx : TrxRef)
    (hheap : heapNo < nHeap) (hwait : m.wait → y = some trx ∧ s.waitLock trx = none)
    (hmode : m.mode = .s ∨ m.mode = .x) :
    ∃ c, c.id = s.nextLock ∧ RecAdded y (m.forRecord heapNo) page heapNo trx c s
      (s.lockRecCreate m page heapNo nHeap trx) := by
  have hbits : heapNo < (1 + (nHeap + 64) / 8) * 8 := by omega
  refine ⟨_, rfl, ?_, extends_addLock (Lock.single_recLock hbits), rfl, rfl⟩
  refine h.addLock (Lock.single_recLock hbits) ?_ ?_ ?_
  · simpa using hwait
  · simpa using hmode
  · intro page' hq
    have hsup : heapNo = heapNoSupremum := by simpa using And.right (Queue.record.inj hq)
    simp [TypeMode.forRecord, hsup]

theorem Basic.lockRecAddToQueue (h : Basic none y s) (page : PageId) (trx : TrxRef)
    (hheap : heapNo < nHeap) (hwait : m.wait → y = some trx ∧ s.waitLock trx = none)
    (hmode : m.mode = .s ∨ m.mode = .x) :
    ∃ c, RecAdded y (m.forRecord heapNo) page heapNo trx c s
        (s.lockRecAddToQueue m page heapNo nHeap trx) ∧
      (c.id = s.nextLock ∨
        m.wait = false ∧ ∀ k ∈ s.locks, k.wait → ¬ k.On (.record page heapNo)) := by
  have hcreate : ∃ c, RecAdded y (m.forRecord heapNo) page heapNo trx c s
        (s.lockRecCreate (m.forRecord heapNo) page heapNo nHeap trx) ∧
      (c.id = s.nextLock ∨
        m.wait = false ∧ ∀ k ∈ s.locks, k.wait → ¬ k.On (.record page heapNo)) := by
    obtain ⟨c, hid, hadded⟩ := h.lockRecCreate (m := m.forRecord heapNo) page trx hheap
      (by simpa using hwait) (by simpa using hmode)
    rw [TypeMode.forRecord_forRecord] at hadded
    exact ⟨c, hadded, .inl hid⟩
  unfold LockSys.lockRecAddToQueue
  dsimp only
  split
  next => exact hcreate
  next hany =>
    split
    next => exact hcreate
    next hw =>
      split
      next l hfind =>
        have hnone : ∀ k ∈ s.locks, k.wait → ¬ k.On (.record page heapNo) := by
          intro k hk hkw hon
          refine hany (List.any_eq_true.mpr ⟨k, mem_pageLocks.mpr ⟨hk, hon.1⟩, ?_⟩)
          rw [hkw, hon.2, Bool.and_self]
        obtain ⟨hl, hpage⟩ := mem_pageLocks.mp (List.mem_of_find?_eq_some hfind)
        obtain ⟨⟨htrx, htm⟩, hbit⟩ :
            (l.trx = trx ∧ l.typeMode = m.forRecord heapNo) ∧ heapNo < l.nBits := by
          simpa only [Bool.and_eq_true, decide_eq_true_eq] using List.find?_some hfind
        have hlw : l.wait = false := by rw [Lock.wait, htm]; simpa using hw
        refine ⟨l.setNthBit heapNo, ⟨h.setNthBit hl hlw ?_ heapNo,
          extends_setNthBit hl hlw hpage hbit hnone, ?_, ?_⟩, .inr ⟨by simpa using hw, hnone⟩⟩
        · rw [htm, TypeMode.mode_forRecord]
          exact hmode
        · rw [Lock.setNthBit_trx, htrx]
        · rw [Lock.setNthBit_typeMode, htm]
      next => exact hcreate

theorem RecAdded.keeps (h : RecAdded none m page heapNo trx c s s') (hw : m.wait = false)
    (hfree : heapNo ≠ heapNoSupremum → m.coversRecord →
      s.lockRecOtherHasConflicting m page heapNo trx = false) : Keeps s s' := by
  refine h.extend.keeps h.basic ?_ fun page' heapNo' hq hheap hcover a ha hon hne hac => ?_
  · rw [Lock.wait, h.typeMode_eq, hw]
  · obtain ⟨rfl, rfl⟩ := Queue.record.inj hq
    rw [h.typeMode_eq] at hcover ⊢
    have hno := List.any_eq_false.mp (hfree hheap hcover) a (mem_recLocks.mpr ⟨ha, hon⟩)
    have hwait := Queue.hasToWait_of_coversRecord page hheap (h.trx_eq ▸ hne.symm) hcover hac
    rw [LockMode.compatible_comm]
    exact Bool.not_eq_false' .. |>.mp (hwait.symm.trans (Bool.eq_false_iff.mpr hno))

theorem Basic.lockRecAddToQueue_keeps (h : Basic none none s) (page : PageId) (trx : TrxRef)
    (hheap : heapNo < nHeap) (hmode : m.mode = .s ∨ m.mode = .x) (hw : m.wait = false)
    (hfree : heapNo ≠ heapNoSupremum → m.coversRecord →
      s.lockRecOtherHasConflicting m page heapNo trx = false) :
    Keeps s (s.lockRecAddToQueue m page heapNo nHeap trx) := by
  obtain ⟨c, hadded, -⟩ := h.lockRecAddToQueue page trx hheap
    (fun hm => absurd (hw.symm.trans hm) Bool.noConfusion) hmode
  refine hadded.keeps (by simpa using hw) fun hsup => ?_
  rw [TypeMode.forRecord, if_neg hsup]
  exact hfree hsup

theorem Basic.lockRecInheritToGap (h : Basic none none s) (noGapLocks : TrxRef → Bool)
    {heirPage page : PageId} {heirHeapNo heirNHeap heapNo : ℕ} (hheap : heirHeapNo < heirNHeap) :
    Keeps s (s.lockRecInheritToGap noGapLocks heirPage page heirHeapNo heirNHeap heapNo) := by
  have hmode : ∀ l ∈ s.recLocks page heapNo, l.typeMode.mode = .s ∨ l.typeMode.mode = .x :=
    fun l hl => h.mode l (mem_recLocks.mp hl).1 page heapNo (mem_recLocks.mp hl).2
  unfold LockSys.lockRecInheritToGap
  -- The loop goes through the locks that were there at first.
  generalize s.recLocks page heapNo = donors at hmode
  induction donors generalizing s with
  | nil => exact .refl h
  | cons l donors ih =>
    obtain ⟨hl, hdonors⟩ := List.forall_mem_cons.mp hmode
    rw [List.foldl_cons]
    split
    next =>
      have hfirst := h.lockRecAddToQueue_keeps
        (m := ⟨l.typeMode.mode, false, true, false, false⟩) heirPage l.trx hheap hl rfl
        fun _ hcover => absurd hcover Bool.noConfusion
      exact hfirst.trans (ih hfirst.basic hdonors)
    next => exact ih h hdonors

end Records

/-! ## Table locks -/

theorem Basic.lockTableCreate (h : Basic none y s) {m : TypeMode} (table : TableId) (trx : TrxRef)
    (hwait : m.wait → y = some trx ∧ s.waitLock trx = none) :
    Basic none y (s.lockTableCreate table m trx) ∧
      Extends (.table table) ⟨s.nextLock, trx, m, .tabLock table⟩ s
        (s.lockTableCreate table m trx) := by
  have hext : Extends (.table table) ⟨s.nextLock, trx, m, .tabLock table⟩ s
      (s.addLock trx m (.tabLock table)) := extends_addLock Lock.single_tabLock
  have hbasic : Basic none y (s.addLock trx m (.tabLock table)) :=
    h.addLock Lock.single_tabLock hwait (fun _ _ hq => Queue.noConfusion hq)
      (fun _ hq => Queue.noConfusion hq)
  unfold LockSys.lockTableCreate
  split
  next hauto =>
    refine ⟨hbasic.of_autoinc rfl rfl rfl rfl fun t i hi => ?_, { hext with }⟩
    by_cases ht : t = trx
    · subst ht
      rcases List.mem_cons.mp (by simpa using hi) with rfl | hi
      · refine ⟨Nat.lt_succ_self _, fun l hl hid => ?_⟩
        rcases mem_addLock.mp hl with hl | rfl
        · exact absurd hid (s.lt_next l hl).ne
        · exact ⟨rfl, hauto.2⟩
      · exact hbasic.autoinc t i hi
    · refine hbasic.autoinc t i ?_
      show i ∈ s.autoincLocks t
      simpa [Function.update_of_ne ht] using hi
  next => exact ⟨hbasic, hext⟩

end LockSys

end MySQL.Innobase
