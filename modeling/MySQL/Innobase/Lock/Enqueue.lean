import MySQL.Innobase.Lock.Deadlock

/-!
# Lock requests

A request is granted at once, or it is put at the end of its queue; then the search for
deadlocks decides whether it stays there, was granted because a victim was cancelled, or is
taken back.
-/

namespace MySQL.Innobase

open Function

theorem RecMode.typeMode_mode (mode : RecMode) :
    mode.typeMode.mode = .s ∨ mode.typeMode.mode = .x := by
  rcases mode with x | x | x <;> cases x <;> simp [RecMode.typeMode]

theorem RecMode.typeMode_wait (mode : RecMode) : mode.typeMode.wait = false := by
  cases mode <;> rfl

namespace LockSys

variable {cfg : LockConfig} {s s₁ s₂ s₃ : LockSys} {l a c : Lock} {q : Queue}
  {d y : Option TrxRef} {t trx : TrxRef}

/-! ## The state of the transaction that asks -/

theorem Basic.of_asking (h : Basic d (some t) s) (ht : s.lockWait t = (s.waitLock t).isSome) :
    Basic d none s :=
  { h with
    lockWait := fun u _ => by
      by_cases hut : u = t
      · exact hut ▸ ht
      · exact h.lockWait u (by simpa using hut) }

theorem Basic.waitLock_eq_none (h : Basic d none s) (ht : s.lockWait t = false) :
    s.waitLock t = none := by
  have hque := h.lockWait t (Option.some_ne_none t)
  rw [ht] at hque
  simpa using hque.symm

theorem Basic.to_asking (h : Basic d none s) (y : Option TrxRef) : Basic d y s :=
  { h with lockWait := fun t _ => h.lockWait t (Option.some_ne_none t) }

theorem Basic.suspend (h : Basic none (some t) s) (ht : s.waitLock t ≠ none) :
    Basic none none { s with lockWait := update s.lockWait t true } := by
  have hasking : Basic none (some t) { s with lockWait := update s.lockWait t true } :=
    { h with
      lockWait := fun u hu => by
        have hut : u ≠ t := by simpa using hu
        simpa [update_of_ne hut] using h.lockWait u hu }
  refine hasking.of_asking ?_
  simpa using Option.isSome_iff_ne_none.mpr ht

theorem Basic.resetWaitLock (h : Basic (some t) (some t) s)
    (ht : ∀ l ∈ s.locks, l.wait → l.trx ≠ t) :
    Basic none (some t) { s with waitLock := update s.waitLock t none } :=
  { h with
    waitLock := fun l hl hw => (update_of_ne (ht l hl hw) ..).trans (h.waitLock l hl hw)
    pointed := fun u i _ hi => by
      have hut : u ≠ t := by
        rintro rfl
        simp at hi
      exact h.pointed u i (by simpa using hut) (by simpa [update_of_ne hut] using hi)
    lockWait := fun u hu => by
      have hut : u ≠ t := by simpa using hu
      simpa [update_of_ne hut] using h.lockWait u hu }

section Drop

variable {f : Lock → Lock} {hf : ∀ k, (f k).id = k.id}

theorem Basic.dropLock (h : Basic none y s) (hl : l ∈ s.locks) (hw : (f l).wait = false)
    (htrx : (f l).trx = l.trx) (hcore : (f l).typeMode.core = l.typeMode.core)
    (hon : ∀ q, (f l).On q → l.On q) : Basic (some l.trx) y (s.modifyLock l.id f hf) := by
  refine h.changeLock hl hw htrx (fun page heapNo hkq => ?_) fun t ht =>
    ⟨Option.some_ne_none t, fun _ hlt => ht (hlt ▸ rfl)⟩
  rw [(TypeMode.core_eq_iff.mp hcore).1]
  exact h.mode l hl page heapNo (hon _ hkq)

theorem release_dropLock (hl : l ∈ s.locks) (hw : (f l).wait = false) (htrx : (f l).trx = l.trx)
    (hcore : (f l).typeMode.core = l.typeMode.core) (hempty : ∀ q, ¬ (f l).On q) :
    Release s (s.modifyLock l.id f hf) where
  weaker k hk := by
    rcases modifyLock_cases hl hk with rfl | ⟨hk, -⟩
    · exact ⟨l, hl, hf l, htrx, hcore, fun hkw => absurd (hw.symm.trans hkw) Bool.noConfusion,
        fun q hon => absurd hon (hempty q),
        fun hkw => absurd (hw.symm.trans hkw) Bool.noConfusion⟩
    · exact ⟨k, hk, .refl k⟩
  granted k hk hkw k₀ hk₀ hid hkw₀ := by
    rcases modifyLock_cases hl hk with rfl | ⟨hk, -⟩
    · rintro ⟨a, -, -, q, hon, -⟩
      exact hempty q hon
    · obtain rfl := eq_of_id_eq hk₀ hk hid
      exact absurd (hkw.symm.trans hkw₀) Bool.noConfusion
  next_eq := rfl
  lockWait _ := id

end Drop

/-! ## Requests in a queue -/

/-- The request `c` was put at the end of its queue, behind a lock that conflicts. -/
structure Queued (q : Queue) (c : Lock) (s s₁ : LockSys) : Prop where
  before : Basic none none s
  run : s.lockWait c.trx = false
  basic : Basic none (some c.trx) s₁
  extend : Extends q c s s₁
  wait : c.wait
  id_eq : c.id = s.nextLock
  next_eq : s₁.nextLock = s.nextLock + 1
  blocked : s₁.Blocked c

namespace Queued

variable {found : Bool} (h : Queued q c s s₁)

include h

theorem eq_of_wait (hl : l ∈ s₁.locks) (hw : l.wait) (htrx : l.trx = c.trx) : l = c :=
  h.basic.wait_unique hl h.extend.mem hw h.wait htrx

theorem id_of_wait (hr : Release s₁ s₂) (hl : l ∈ s₂.locks)
    (hw : l.wait) (htrx : l.trx = c.trx) : l.id = c.id := by
  obtain ⟨k, hk, hweak⟩ := hr.weaker l hl
  rw [hweak.id_eq, h.eq_of_wait hk (hweak.wait hw) (hweak.trx_eq.symm.trans htrx)]

theorem lockDeadlockOccurs (cfg : LockConfig) :
    ∃ found s₂, s₁.lockDeadlockOccurs cfg s.nextLock c.trx = some (found, s₂) ∧
      Resolved c.trx found s₁ s₂ := by
  refine h.basic.deadlockSearches (fun l hl hid => ?_) (fun l hl hw htrx => ?_)
    (Nat.lt_succ_self _) 0
  · rw [eq_of_id_eq hl h.extend.mem (hid.trans h.id_eq.symm)]
  · rw [h.eq_of_wait hl hw htrx, h.id_eq]

theorem exists_request
    (hr : Resolved c.trx found s₁ s₂) : ∃ c' ∈ s₂.locks, Weaker c' c ∧ c'.On q := by
  obtain ⟨c', hc', hplace⟩ := List.mem_map.mp (hr.kept c h.extend.mem rfl)
  obtain ⟨k, hk, hweak⟩ := hr.freed.release.weaker c' hc'
  obtain rfl := eq_of_id_eq hk h.extend.mem (hweak.id_eq.symm.trans (congrArg Prod.fst hplace))
  exact ⟨c', hc', hweak, on_of_place_eq hplace h.extend.on⟩

theorem lockWait_eq (hr : Release s₁ s₂) : s₂.lockWait c.trx = false :=
  hr.lockWait c.trx (by rw [h.extend.lockWait, h.run])

theorem keeps (hr : Release s₁ s₂) (hstuck : Stuck s₁ → Stuck s₂)
    (hcycle : ¬ Relation.TransGen (Edge s₂) c.trx c.trx) (hlocks : s₃.locks = s₂.locks)
    (hbasic : Basic none none s₃) : Keeps s s₃ where
  basic := hbasic
  exclusive hs := by
    have hs₂ := hr.exclusive (h.extend.exclusive hs fun hw =>
      absurd (hw.symm.trans h.wait) Bool.noConfusion)
    unfold Exclusive
    rw [hlocks]
    exact hs₂
  stuck hs := by
    have hs₂ := hstuck (h.extend.stuck hs fun _ => h.blocked)
    unfold Stuck Blocked
    rw [hlocks]
    exact hs₂
  acyclic hs := by
    have hs₂ : Lib.Acyclic (Edge s₂) := by
      refine Lib.acyclic_of_avoiding (hs.mono ?_) hcycle
      rintro t u ⟨hne, hedge⟩
      exact (h.extend.edge (hr.edge hedge)).resolve_right fun hc => hne hc.2
    unfold Edge
    rw [hlocks]
    exact hs₂

theorem keeps_suspend (hr : Resolved c.trx false s₁ s₂) (hwait : s₂.waitLock c.trx ≠ none) :
    Keeps s { s₂ with lockWait := update s₂.lockWait c.trx true } :=
  h.keeps hr.freed.release hr.freed.stuck (hr.acyclic rfl) rfl (hr.freed.basic.suspend hwait)

theorem keeps_granted (hr : Resolved c.trx false s₁ s₂)
    (hwait : s₂.waitLock c.trx = none) : Keeps s s₂ := by
  refine h.keeps hr.freed.release hr.freed.stuck (hr.acyclic rfl) rfl
    (hr.freed.basic.of_asking ?_)
  rw [hwait, h.lockWait_eq hr.freed.release, Option.isSome_none]

theorem keeps_drop (hr : Resolved c.trx found s₁ s₂)
    (hdrop : Release s₂ s₃) (hothers : ∀ k ∈ s₂.locks, k.id ≠ c.id → k ∈ s₃.locks)
    (hwait : ∀ k ∈ s₃.locks, k.wait → k ∈ s₂.locks ∧ k.id ≠ c.id)
    (hbasic : Basic (some c.trx) (some c.trx) s₃) :
    Keeps s { s₃ with waitLock := update s₃.waitLock c.trx none } := by
  have hrelease := hr.freed.release.trans hdrop
  have hnone : ∀ k ∈ s₃.locks, k.wait → k.trx ≠ c.trx := by
    intro k hk hkw htrx
    obtain ⟨hk₂, hid⟩ := hwait k hk hkw
    exact hid (h.id_of_wait hr.freed.release hk₂ hkw htrx)
  refine h.keeps hrelease (fun hs k hk hkw => ?_) (not_transGen_of_not_wait hnone) rfl
    ((hbasic.resetWaitLock hnone).of_asking ?_)
  · obtain ⟨hk₂, -⟩ := hwait k hk hkw
    obtain ⟨a, ha, hlt, hblocks⟩ := hr.freed.stuck hs k hk₂ hkw
    refine ⟨a, hothers a ha fun hac => ?_, hlt, hblocks⟩
    have hnext := s₂.lt_next k hk₂
    rw [hr.freed.release.next_eq, h.next_eq, ← h.id_eq, ← hac] at hnext
    exact absurd hlt (Nat.lt_succ_iff.mp hnext).not_gt
  · simpa using h.lockWait_eq hrelease

theorem not_hasToWait (hr : Resolved c.trx false s₁ s₂)
    (hwait : s₂.waitLock c.trx = none) (ha : a ∈ s₂.locks) (htrx : a.trx ≠ c.trx)
    (hon : a.On q) : q.hasToWait c.trx c.typeMode a = false := by
  obtain ⟨c', hc', hweak, hcq⟩ := h.exists_request hr
  have hgranted : c'.wait = false := by
    refine Bool.eq_false_iff.mpr fun hw => ?_
    have hsome := hr.freed.basic.waitLock c' hc' hw
    rw [hweak.trx_eq, hwait] at hsome
    exact absurd hsome.symm (Option.some_ne_none _)
  have hfree := hr.freed.release.granted c' hc' hgranted c h.extend.mem hweak.id_eq.symm h.wait
  obtain ⟨k, hk, hka⟩ := hr.freed.release.weaker a ha
  have hlt : a.id < c'.id := by
    rw [hka.id_eq, hweak.id_eq, h.id_eq]
    rcases h.extend.cases k hk with hk | rfl
    · exact s.lt_next k hk
    · exact absurd hka.trx_eq htrx
  refine Bool.eq_false_iff.mpr fun hconflict => hfree ⟨a, ha, hlt, q, hcq, hon, ?_⟩
  rw [hweak.hasToWait_eq (.refl a), hconflict]

end Queued

/-! ## Record locks -/

section Records

variable {m : TypeMode} {page : PageId} {heapNo nHeap : ℕ} {found : Bool}

theorem hasToWait_forRecord (h : (Queue.record page heapNo).hasToWait trx m a = true) :
    (Queue.record page heapNo).hasToWait trx (m.forRecord heapNo) a = true := by
  unfold TypeMode.forRecord
  split
  next hsup =>
    cases hins : m.insertIntention <;>
      simp_all [Queue.hasToWait, lockRecHasToWait]
  next => exact h

theorem Basic.queued_record (h : Basic none none s) (page : PageId) (trx : TrxRef)
    (hrun : s.lockWait trx = false) (hheap : heapNo < nHeap) (hmode : m.mode = .s ∨ m.mode = .x)
    (hconflict : s.lockRecOtherHasConflicting m page heapNo trx = true) :
    ∃ c, c.trx = trx ∧ c.typeMode.core = (m.forRecord heapNo).core ∧
      Queued (.record page heapNo) c s
        (s.lockRecCreate { m with wait := true } page heapNo nHeap trx) := by
  obtain ⟨c, hid, hadded⟩ := (h.to_asking (some trx)).lockRecCreate (m := { m with wait := true })
    page trx hheap (fun _ => ⟨rfl, h.waitLock_eq_none hrun⟩) hmode
  have hcore : c.typeMode.core = (m.forRecord heapNo).core := by
    rw [hadded.typeMode_eq, TypeMode.core_forRecord, TypeMode.core_forRecord]
    rfl
  have htrx := hadded.trx_eq
  subst htrx
  have hw : c.wait = true := by
    rw [Lock.wait, hadded.typeMode_eq, TypeMode.wait_forRecord]
  refine ⟨c, rfl, hcore, h, hrun, hadded.basic, hadded.extend, hw, hid, rfl, ?_⟩
  obtain ⟨a, ha, hwait⟩ := List.any_eq_true.mp hconflict
  obtain ⟨ha, hon⟩ := mem_recLocks.mp ha
  obtain ⟨a', ha', hid', htrx', hmode', hon'⟩ := hadded.extend.keep a ha
  refine ⟨a', ha', by rw [hid', hid]; exact s.lt_next a ha, _, hadded.extend.on, hon' _ hon, ?_⟩
  rw [Queue.hasToWait_congr htrx' (congrArg TypeMode.core hmode'), ← Queue.hasToWait_core, hcore,
    Queue.hasToWait_core]
  exact hasToWait_forRecord hwait

theorem Queued.keeps_drop_record (h : Queued (.record page heapNo) c s s₁)
    (hr : Resolved c.trx found s₁ s₂) :
    Keeps s { s₂.modifyLock c.id (fun l => l.resetWait.resetNthBit heapNo)
        (fun l => l.resetWait.resetNthBit_id heapNo) with
      waitLock := update s₂.waitLock c.trx none } := by
  obtain ⟨c', hc', hweak, -⟩ := h.exists_request hr
  obtain ⟨q, hq⟩ := h.basic.single c h.extend.mem h.wait
  have hempty : ∀ q', ¬ (c'.resetWait.resetNthBit heapNo).On q' := by
    intro q' hon
    obtain ⟨hon, hne⟩ := Lock.on_resetNthBit.mp hon
    have hcq : q' = q := (hq q').mp (hweak.on q' (Lock.on_resetWait.mp hon))
    exact hne page (hcq.trans ((hq _).mp h.extend.on).symm)
  have hgranted : (c'.resetWait.resetNthBit heapNo).wait = false := by
    rw [Lock.wait, Lock.resetNthBit_typeMode]
    rfl
  have htrx : (c'.resetWait.resetNthBit heapNo).trx = c'.trx := Lock.resetNthBit_trx ..
  have hcore : (c'.resetWait.resetNthBit heapNo).typeMode.core = c'.typeMode.core := by
    rw [Lock.resetNthBit_typeMode, Lock.resetWait_core]
  rw [← hweak.id_eq]
  refine h.keeps_drop hr (release_dropLock hc' hgranted htrx hcore hempty)
    (fun k hk hne => mem_modifyLock_of_ne hk (hweak.id_eq ▸ hne))
    (fun k hk hkw => hweak.id_eq ▸ wait_modifyLock hc' hgranted hk hkw) ?_
  exact hweak.trx_eq ▸ hr.freed.basic.dropLock hc' hgranted htrx hcore
    fun q' hon => absurd hon (hempty q')

section

variable (h : Basic none none s) (cfg : LockConfig)

include h

theorem Basic.lockRecEnqueueWaiting (page : PageId) (trx : TrxRef) (hrun : s.lockWait trx = false)
    (hheap : heapNo < nHeap) (hmode : m.mode = .s ∨ m.mode = .x)
    (hconflict : s.lockRecOtherHasConflicting m page heapNo trx = true) :
    ∃ err s', s.lockRecEnqueueWaiting cfg m page heapNo nHeap trx = some (err, s') ∧
      Keeps s s' ∧ err ≠ .success ∧
      (err = .successLockedRec → ∀ a ∈ s'.locks, a.trx ≠ trx → a.On (.record page heapNo) →
        (Queue.record page heapNo).hasToWait trx (m.forRecord heapNo) a = false) := by
  obtain ⟨c, rfl, hcore, hqueued⟩ := h.queued_record page trx hrun hheap hmode hconflict
  obtain ⟨found, s₂, hsome, hresolved⟩ := hqueued.lockDeadlockOccurs cfg
  unfold LockSys.lockRecEnqueueWaiting
  simp only [hsome]
  cases found with
  | true =>
    refine ⟨_, _, rfl, ?_, DbErr.noConfusion, fun hno => DbErr.noConfusion hno⟩
    have hdrop := hqueued.keeps_drop_record hresolved
    rwa [hqueued.id_eq] at hdrop
  | false =>
    by_cases hwait : s₂.waitLock c.trx = none
    · simp only [hwait, if_true]
      refine ⟨_, _, rfl, hqueued.keeps_granted hresolved hwait, DbErr.noConfusion,
        fun _ a ha htrx hon => ?_⟩
      rw [← Queue.hasToWait_core, ← hcore]
      exact hqueued.not_hasToWait hresolved hwait ha htrx hon
    · simp only [hwait, if_false]
      exact ⟨_, _, rfl, hqueued.keeps_suspend hresolved hwait, DbErr.noConfusion,
        fun hno => DbErr.noConfusion hno⟩

theorem Basic.lockRecLockFast (impl : Bool) (page : PageId) (trx : TrxRef) (hheap : heapNo < nHeap)
    (hmode : m.mode = .s ∨ m.mode = .x) (hw : m.wait = false) :
    Keeps s (s.lockRecLockFast impl m page heapNo nHeap trx).2 := by
  unfold LockSys.lockRecLockFast
  split
  next hnil =>
    cases impl with
    | true => exact .refl h
    | false =>
      obtain ⟨c, -, hadded⟩ := h.lockRecCreate page trx hheap
        (fun hm => absurd (hw.symm.trans hm) Bool.noConfusion) hmode
      refine hadded.keeps (by simpa using hw) fun _ _ => ?_
      simp [lockRecOtherHasConflicting, recLocks, hnil]
  next l hone =>
    have hpage : ∀ k, k ∈ s.locks ∧ k.onPage page = true ↔ k = l := by
      intro k
      rw [← mem_pageLocks, hone, List.mem_singleton]
    obtain ⟨hl, hon⟩ := (hpage l).mpr rfl
    split
    next => exact .refl h
    next hsame =>
      simp only [Bool.or_eq_true, decide_eq_true_eq, not_or, not_not, not_le] at hsame
      obtain ⟨⟨htrx, htm⟩, hbit⟩ := hsame
      split
      next =>
        have hlw : l.wait = false := by rw [Lock.wait, htm, hw]
        have hadded : RecAdded none m page heapNo trx (l.setNthBit heapNo) s
            (s.modifyLock l.id (·.setNthBit heapNo) fun k => k.setNthBit_id heapNo) := by
          refine ⟨h.setNthBit hl hlw (htm ▸ hmode) heapNo, extends_setNthBit hl hlw hon hbit ?_,
            by rw [Lock.setNthBit_trx, htrx], by rw [Lock.setNthBit_typeMode, htm]⟩
          intro k hk hkw hkon
          obtain rfl := (hpage k).mp ⟨hk, hkon.1⟩
          exact absurd (hlw.symm.trans hkw) Bool.noConfusion
        refine hadded.keeps hw fun _ _ => List.any_eq_false.mpr fun k hk hkw => ?_
        obtain ⟨hk, hkon⟩ := mem_recLocks.mp hk
        obtain rfl := (hpage k).mp ⟨hk, hkon.1⟩
        simp [lockRecHasToWait, htrx] at hkw
      next => exact .refl h
  next => exact .refl h

theorem Basic.lockRecLockSlow (impl : Bool) (page : PageId) (trx : TrxRef)
    (hrun : s.lockWait trx = false) (hheap : heapNo < nHeap) (hmode : m.mode = .s ∨ m.mode = .x)
    (hw : m.wait = false) :
    ∃ err s', s.lockRecLockSlow cfg impl m page heapNo nHeap trx = some (err, s') ∧
      Keeps s s' := by
  unfold LockSys.lockRecLockSlow
  split
  next => exact ⟨_, _, rfl, .refl h⟩
  next =>
    split
    next hconflict =>
      obtain ⟨err, s', hsome, hkeeps, -⟩ :=
        h.lockRecEnqueueWaiting cfg page trx hrun hheap hmode hconflict
      exact ⟨err, s', hsome, hkeeps⟩
    next hfree =>
      split
      next =>
        exact ⟨_, _, rfl, h.lockRecAddToQueue_keeps page trx hheap hmode hw
          fun _ _ => Bool.eq_false_iff.mpr hfree⟩
      next => exact ⟨_, _, rfl, .refl h⟩

theorem Basic.lockRecLock (impl : Bool) (mode : RecMode) (page : PageId) (trx : TrxRef)
    (hrun : s.lockWait trx = false) (hheap : heapNo < nHeap) :
    ∃ err s', s.lockRecLock cfg impl mode page heapNo nHeap trx = some (err, s') ∧
      Keeps s s' := by
  have hfast := h.lockRecLockFast impl page trx hheap mode.typeMode_mode mode.typeMode_wait
  unfold LockSys.lockRecLock
  split
  next s' heq => exact ⟨_, s', rfl, by rwa [heq] at hfast⟩
  next s' heq => exact ⟨_, s', rfl, by rwa [heq] at hfast⟩
  next =>
    exact h.lockRecLockSlow cfg impl page trx hrun hheap mode.typeMode_mode mode.typeMode_wait

end

def coversGap (l : Lock) : Bool := !l.typeMode.recNotGap && !l.typeMode.insertIntention

theorem not_coversGap_of_not_hasToWait (htrx : trx ≠ a.trx)
    (h : (Queue.record page heapNo).hasToWait trx insertTypeMode a = false ∨
      (Queue.record page heapNo).hasToWait trx (insertTypeMode.forRecord heapNo) a = false) :
    coversGap a = false := by
  have hno : (Queue.record page heapNo).hasToWait trx insertTypeMode a = false :=
    h.elim id fun hno => Bool.eq_false_iff.mpr fun hwait =>
      absurd (hno.symm.trans (hasToWait_forRecord hwait)) Bool.noConfusion
  have hmode : LockMode.x.compatible a.typeMode.mode = false := by cases a.typeMode.mode <;> rfl
  simp [Queue.hasToWait, lockRecHasToWait, insertTypeMode, htrx, hmode] at hno
  cases hrec : a.typeMode.recNotGap <;> simp_all [coversGap]

theorem Basic.lockRecInsertCheckAndLock (h : Basic none none s) (cfg : LockConfig)
    (page : PageId) (trx : TrxRef) (hrun : s.lockWait trx = false) (hheap : heapNo < nHeap) :
    ∃ err s', s.lockRecInsertCheckAndLock cfg page heapNo nHeap trx = some (err, s') ∧
      Keeps s s' ∧ (err = .success → ∀ a ∈ s'.locks, a.trx ≠ trx → a.On (.record page heapNo) →
        coversGap a = false) := by
  unfold LockSys.lockRecInsertCheckAndLock
  split
  next hnil =>
    refine ⟨_, _, rfl, .refl h, fun _ a ha _ hon => ?_⟩
    have hmem := mem_recLocks.mpr ⟨ha, hon⟩
    rw [hnil] at hmem
    exact absurd hmem List.not_mem_nil
  next =>
    split
    next hconflict =>
      obtain ⟨err, s', hsome, hkeeps, hsuccess, hgranted⟩ :=
        h.lockRecEnqueueWaiting cfg page trx hrun hheap (.inr rfl) hconflict
      refine ⟨_, s', by rw [hsome]; rfl, hkeeps, fun herr a ha htrx hon => ?_⟩
      have hlocked : err = .successLockedRec := by
        by_contra hne
        exact hsuccess (by simpa [hne] using herr)
      exact not_coversGap_of_not_hasToWait htrx.symm (.inr (hgranted hlocked a ha htrx hon))
    next hfree =>
      refine ⟨_, _, rfl, .refl h, fun _ a ha htrx hon => ?_⟩
      have hno : (Queue.record page heapNo).hasToWait trx insertTypeMode a = false :=
        Bool.eq_false_iff.mpr
          (List.any_eq_false.mp (Bool.eq_false_iff.mpr hfree) a (mem_recLocks.mpr ⟨ha, hon⟩))
      exact not_coversGap_of_not_hasToWait htrx.symm (.inl hno)

end Records

/-! ## Table locks -/

section Tables

variable {table : TableId} {mode : LockMode} {found : Bool}

theorem lockTableCreate_nextLock {m : TypeMode} :
    (s.lockTableCreate table m trx).nextLock = s.nextLock + 1 := by
  unfold lockTableCreate
  split <;> rfl

theorem Basic.queued_table (h : Basic none none s) (hrun : s.lockWait trx = false)
    (hconflict : s.lockTableOtherHasIncompatible trx table mode = true) :
    Queued (.table table) ⟨s.nextLock, trx, ⟨mode, true, false, false, false⟩, .tabLock table⟩ s
      (s.lockTableCreate table ⟨mode, true, false, false, false⟩ trx) := by
  obtain ⟨hbasic, hextend⟩ := (h.to_asking (some trx)).lockTableCreate
    table trx fun _ => ⟨rfl, h.waitLock_eq_none hrun⟩
  refine ⟨h, hrun, hbasic, hextend, rfl, rfl, lockTableCreate_nextLock, ?_⟩
  obtain ⟨a, ha, hcond⟩ := List.any_eq_true.mp hconflict
  obtain ⟨ha, hon⟩ := mem_tableLocks.mp ha
  obtain ⟨a', ha', hid', htrx', hmode', hon'⟩ := hextend.keep a ha
  refine ⟨a', ha', hid' ▸ s.lt_next a ha, _, hextend.on, hon' _ hon, ?_⟩
  rw [Queue.hasToWait_congr htrx' (congrArg TypeMode.core hmode')]
  simpa [Queue.hasToWait, LockMode.compatible_comm, ne_comm] using hcond

theorem Queued.keeps_drop_table (h : Queued (.table table) c s s₁)
    (hr : Resolved c.trx found s₁ s₂) (hl : l ∈ s₂.locks) (hid : l.id = c.id) :
    Keeps s { s₂.lockTableRemoveLow l table with
      waitLock := update (s₂.lockTableRemoveLow l table).waitLock c.trx none } := by
  obtain ⟨c', hc', hweak, -⟩ := h.exists_request hr
  obtain rfl := eq_of_id_eq hc' hl (hweak.id_eq.trans hid.symm)
  obtain ⟨hlocks, hnext, hque⟩ := lockTableRemoveLow_locks s₂ c' table
  have hmem : ∀ k, k ∈ (s₂.lockTableRemoveLow c' table).locks ↔ k ∈ s₂.locks ∧ k.id ≠ c.id := by
    rw [hlocks, ← hid]
    simp [removeLock]
  refine h.keeps_drop hr (.of_shrink (fun k hk => ?_) hnext hque)
    (fun k hk hne => (hmem k).mpr ⟨hk, hne⟩) (fun k hk _ => (hmem k).mp hk) ?_
  · exact ⟨k, ((hmem k).mp hk).1, .refl k, rfl⟩
  · refine hr.freed.basic.lockTableRemoveLow table fun t ht =>
      ⟨Option.some_ne_none t, fun k hk hkid _ htrx => ht ?_⟩
    rw [← htrx, eq_of_id_eq hk hl hkid, hweak.trx_eq]

theorem Basic.lockTableEnqueueWaiting (h : Basic none none s) (cfg : LockConfig)
    (hrun : s.lockWait trx = false)
    (hconflict : s.lockTableOtherHasIncompatible trx table mode = true) :
    ∃ err s', s.lockTableEnqueueWaiting cfg mode table trx = some (err, s') ∧ Keeps s s' := by
  have hqueued := h.queued_table hrun hconflict
  obtain ⟨found, s₂, hsome, hresolved⟩ := hqueued.lockDeadlockOccurs cfg
  unfold LockSys.lockTableEnqueueWaiting
  simp only [hsome]
  cases found with
  | true =>
    obtain ⟨c', hc', hweak, -⟩ := hqueued.exists_request hresolved
    have hfind : s₂.find? s.nextLock = some c' := find?_eq_some_iff.mpr ⟨hc', hweak.id_eq⟩
    simp only [hfind]
    exact ⟨_, _, rfl, hqueued.keeps_drop_table hresolved hc' hweak.id_eq⟩
  | false =>
    by_cases hwait : s₂.waitLock trx = none
    · simp only [hwait, if_true]
      exact ⟨_, _, rfl, hqueued.keeps_granted hresolved hwait⟩
    · simp only [hwait, if_false]
      exact ⟨_, _, rfl, hqueued.keeps_suspend hresolved hwait⟩

theorem Basic.lockTable (h : Basic none none s) (cfg : LockConfig) (table : TableId)
    (mode : LockMode) (hrun : s.lockWait trx = false) :
    ∃ err s', s.lockTable cfg table mode trx = some (err, s') ∧ Keeps s s' := by
  unfold LockSys.lockTable
  split
  next => exact ⟨_, _, rfl, .refl h⟩
  next =>
    split
    next hconflict => exact h.lockTableEnqueueWaiting cfg hrun hconflict
    next =>
      obtain ⟨hbasic, hextend⟩ := h.lockTableCreate
        (m := ⟨mode, false, false, false, false⟩) table trx fun hm => absurd hm Bool.noConfusion
      exact ⟨_, _, rfl, hextend.keeps hbasic rfl fun _ _ hq => Queue.noConfusion hq⟩

end Tables

end LockSys

end MySQL.Innobase
