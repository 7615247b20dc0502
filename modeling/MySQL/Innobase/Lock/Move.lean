import MySQL.Innobase.Lock.Enqueue

/-!
# Moving locks to another record

`lock_rec_move` goes through the locks of the donator; each of them loses its bit there, and
a lock of the same mode is added to the queue of the receiver, which had no locks.  The
images of two locks keep their order if one of them waits: a structure is used again only as
long as nothing waits for the receiver.
-/

namespace MySQL.Innobase

open List

namespace LockSys

variable {s₀ s s' : LockSys} {l a b c k : Lock} {q : Queue}
  {donator receiver : PageId} {donatorHeapNo receiverHeapNo receiverNHeap : ℕ}

/-! ## One turn of the loop -/

def strip (donatorHeapNo : ℕ) (l : Lock) : Lock := (l.resetNthBit donatorHeapNo).resetWait

theorem strip_id (l : Lock) : (strip donatorHeapNo l).id = l.id :=
  l.resetNthBit_id donatorHeapNo

/-- The state in which `lock_rec_move` adds the lock to the receiver. -/
def takeFrom (s : LockSys) (donatorHeapNo : ℕ) (l : Lock) : LockSys :=
  let s₁ := s.modifyLock l.id (·.resetNthBit donatorHeapNo) fun l => l.resetNthBit_id donatorHeapNo
  if l.wait then
    { s₁.modifyLock l.id Lock.resetWait Lock.resetWait_id with
      waitLock := Function.update s₁.waitLock l.trx none }
  else s₁

theorem strip_typeMode (hw : l.wait = false) : (strip donatorHeapNo l).typeMode = l.typeMode := by
  have hwait : l.typeMode.wait = false := hw
  simp only [strip, Lock.resetWait, Lock.resetNthBit_typeMode]
  rw [← hwait]

theorem on_strip (h : l.On (.record donator donatorHeapNo)) :
    (strip donatorHeapNo l).On q ↔ l.On q ∧ q ≠ .record donator donatorHeapNo := by
  unfold strip
  rw [Lock.on_resetWait, Lock.on_resetNthBit]
  refine and_congr_right fun hq => ⟨fun hne => hne donator, fun hne page heq => ?_⟩
  subst heq
  exact hne (by rw [Lock.onPage_unique hq.1 h.1])

theorem takeFrom_locks (hl : l ∈ s.locks) (donatorHeapNo : ℕ) : (s.takeFrom donatorHeapNo l).locks =
    (s.modifyLock l.id (strip donatorHeapNo) strip_id).locks := by
  unfold takeFrom
  split
  next =>
    refine List.map_map.trans (map_congr_left fun k _ => ?_)
    by_cases hkl : k.id = l.id <;> simp [hkl, strip]
  next hw =>
    refine map_congr_left fun k hk => ?_
    split
    next hkl =>
      obtain rfl := eq_of_id_eq hk hl hkl
      have hwait : (k.resetNthBit donatorHeapNo).typeMode.wait = false := by
        rw [Lock.resetNthBit_typeMode]
        exact Bool.eq_false_iff.mpr hw
      unfold strip Lock.resetWait
      rw [← hwait]
    next => rfl

theorem takeFrom_nextLock : (s.takeFrom donatorHeapNo l).nextLock = s.nextLock := by
  unfold takeFrom
  split <;> rfl

theorem takeFrom_autoincLocks : (s.takeFrom donatorHeapNo l).autoincLocks = s.autoincLocks := by
  unfold takeFrom
  split <;> rfl

theorem takeFrom_lockWait : (s.takeFrom donatorHeapNo l).lockWait = s.lockWait := by
  unfold takeFrom
  split <;> rfl

theorem Basic.takeFrom_granted (h : Basic none none s) (hl : l ∈ s.locks) (hw : l.wait = false)
    (donatorHeapNo : ℕ) : Basic none none (s.takeFrom donatorHeapNo l) := by
  have hgranted := h.resetNthBit hl hw donatorHeapNo
  unfold LockSys.takeFrom
  simpa only [hw, Bool.false_eq_true, if_false] using hgranted

theorem Basic.takeFrom_waiting (h : Basic none none s) (hl : l ∈ s.locks) (hw : l.wait = true)
    (donatorHeapNo : ℕ) : Basic none (some l.trx) (s.takeFrom donatorHeapNo l) ∧
      (s.takeFrom donatorHeapNo l).waitLock l.trx = none := by
  have hlocks := takeFrom_locks hl donatorHeapNo
  have hdropped : Basic (some l.trx) (some l.trx)
      (s.modifyLock l.id (strip donatorHeapNo) strip_id) :=
    (h.to_asking _).dropLock hl rfl (Lock.resetNthBit_trx ..)
      (by rw [strip, Lock.resetWait_core, Lock.resetNthBit_typeMode])
      fun q hq => (Lock.on_resetNthBit.mp (Lock.on_resetWait.mp hq)).1
  have hreset := hdropped.resetWaitLock fun k hk hkw htrx => by
    obtain ⟨hk, hid⟩ := wait_modifyLock hl rfl hk hkw
    exact hid (congrArg Lock.id (h.wait_unique hk hl hkw hw htrx))
  have hwait : (s.takeFrom donatorHeapNo l).waitLock = Function.update s.waitLock l.trx none := by
    simp only [LockSys.takeFrom, hw, if_true]
    rfl
  refine ⟨hreset.of_autoinc hlocks takeFrom_nextLock hwait takeFrom_lockWait ?_, ?_⟩
  · intro t i hi
    rw [takeFrom_autoincLocks] at hi
    exact hreset.autoinc t i hi
  · rw [hwait, Function.update_self]

/-- What one turn does: a lock moves from the queue of the donator to that of the receiver,
and every other lock stays where it was. -/
structure Turn (donator receiver : Queue) (i : LockId) (c : Lock) (s s' : LockSys) : Prop where
  basic : Basic none none s'
  mem : c ∈ s'.locks
  on : c.On receiver
  pull : ∀ k' ∈ s'.locks, ∀ q, k'.On q → k' = c ∧ q = receiver ∨
    ∃ k ∈ s.locks, k.id = k'.id ∧ k.trx = k'.trx ∧ k.typeMode = k'.typeMode ∧ k.On q ∧
      (k.id = i → q ≠ donator)
  push : ∀ k ∈ s.locks, ∀ q, k.On q → (k.id = i → q ≠ donator) →
    ∃ k' ∈ s'.locks, k.id = k'.id ∧ k.trx = k'.trx ∧ k.typeMode = k'.typeMode ∧ k'.On q
  last : (∀ k ∈ s.locks, k.id < c.id) ∨
    c.wait = false ∧ ∀ k ∈ s.locks, k.wait → ¬ k.On receiver

section Turn

variable (hl : l ∈ s.locks) (hon : l.On (.record donator donatorHeapNo))

include hl hon

theorem Basic.takeFrom_pull (h : Basic none none s) (hk : k ∈ (s.takeFrom donatorHeapNo l).locks)
    (hq : k.On q) : ∃ k₀ ∈ s.locks, k₀.id = k.id ∧ k₀.trx = k.trx ∧ k₀.typeMode = k.typeMode ∧
      k₀.On q ∧ (k₀.id = l.id → q ≠ .record donator donatorHeapNo) := by
  rw [takeFrom_locks hl] at hk
  rcases modifyLock_cases hl hk with rfl | ⟨hk, hne⟩
  · obtain ⟨hlq, hne⟩ := (on_strip hon).mp hq
    cases hw : l.wait with
    | true =>
      obtain ⟨q', hq'⟩ := h.single l hl hw
      exact absurd (((hq' q).mp hlq).trans ((hq' _).mp hon).symm) hne
    | false =>
      exact ⟨l, hl, (strip_id l).symm, (Lock.resetNthBit_trx ..).symm,
        (strip_typeMode hw).symm, hlq, fun _ => hne⟩
  · exact ⟨k, hk, rfl, rfl, rfl, hq, fun hid => absurd hid hne⟩

theorem Basic.takeFrom_push (h : Basic none none s) (hk : k ∈ s.locks) (hq : k.On q)
    (hkeep : k.id = l.id → q ≠ .record donator donatorHeapNo) :
    ∃ k' ∈ (s.takeFrom donatorHeapNo l).locks,
      k.id = k'.id ∧ k.trx = k'.trx ∧ k.typeMode = k'.typeMode ∧ k'.On q := by
  rw [takeFrom_locks hl]
  by_cases hkl : k.id = l.id
  · obtain rfl := eq_of_id_eq hk hl hkl
    cases hw : k.wait with
    | true =>
      obtain ⟨q', hq'⟩ := h.single k hk hw
      exact absurd (((hq' q).mp hq).trans ((hq' _).mp hon).symm) (hkeep rfl)
    | false =>
      exact ⟨_, mem_modifyLock_self hk, (strip_id k).symm, (Lock.resetNthBit_trx ..).symm,
        (strip_typeMode hw).symm, (on_strip hon).mpr ⟨hq, hkeep rfl⟩⟩
  · exact ⟨k, mem_modifyLock_of_ne hk hkl, rfl, rfl, rfl, hq⟩

theorem Basic.moveLock (h : Basic none none s) (receiver : PageId)
    (hheap : receiverHeapNo < receiverNHeap) :
    ∃ c, c.trx = l.trx ∧ c.typeMode = l.typeMode.forRecord receiverHeapNo ∧
      Turn (.record donator donatorHeapNo) (.record receiver receiverHeapNo) l.id c s
        (s.moveLock receiver receiverHeapNo receiverNHeap donatorHeapNo l) := by
  have hmode := h.mode l hl _ _ hon
  -- The lock is added in the state where the donator has lost it.
  have hadded : ∃ c, RecAdded none (l.typeMode.forRecord receiverHeapNo) receiver receiverHeapNo
        l.trx c (s.takeFrom donatorHeapNo l)
        (s.moveLock receiver receiverHeapNo receiverNHeap donatorHeapNo l) ∧
      (c.id = (s.takeFrom donatorHeapNo l).nextLock ∨ l.wait = false ∧
        ∀ k ∈ (s.takeFrom donatorHeapNo l).locks, k.wait →
          ¬ k.On (.record receiver receiverHeapNo)) := by
    rcases Bool.eq_false_or_eq_true l.wait with hw | hw
    · obtain ⟨hbasic, hnone⟩ := h.takeFrom_waiting hl hw donatorHeapNo
      obtain ⟨c, hadded, hlast⟩ := hbasic.lockRecAddToQueue receiver l.trx hheap
        (fun _ => ⟨rfl, hnone⟩) hmode
      refine ⟨c, { hadded with basic := hadded.basic.of_asking ?_ }, hlast⟩
      have hcw : c.wait = true := by
        rw [Lock.wait, hadded.typeMode_eq, TypeMode.wait_forRecord]
        exact hw
      have hpointer := hadded.basic.waitLock c hadded.extend.mem hcw
      rw [hadded.trx_eq] at hpointer
      rw [hadded.extend.lockWait, takeFrom_lockWait, h.lockWait _ (Option.some_ne_none _),
        h.waitLock l hl hw, hpointer]
      rfl
    · exact (h.takeFrom_granted hl hw donatorHeapNo).lockRecAddToQueue receiver l.trx hheap
        (fun hm => absurd (hw.symm.trans hm) Bool.noConfusion) hmode
  obtain ⟨c, hadded, hlast⟩ := hadded
  refine ⟨c, hadded.trx_eq, hadded.typeMode_eq, hadded.basic, hadded.extend.mem,
    hadded.extend.on, fun k' hk' q hq => ?_, fun k hk q hq hkeep => ?_, ?_⟩
  · refine (hadded.extend.old hk' hq).imp_right ?_
    rintro ⟨k, hk, hid, htrx, hmode, hkq⟩
    obtain ⟨k₀, hk₀, hid₀, htrx₀, hmode₀, hrest⟩ := h.takeFrom_pull hl hon hk hkq
    exact ⟨k₀, hk₀, hid₀.trans hid, htrx₀.trans htrx, hmode₀.trans hmode, hrest⟩
  · obtain ⟨k₁, hk₁, hid, htrx, hmode, hkq⟩ := h.takeFrom_push hl hon hk hq hkeep
    obtain ⟨k', hk', hid', htrx', hmode', hon'⟩ := hadded.extend.keep k₁ hk₁
    exact ⟨k', hk', hid.trans hid'.symm, htrx.trans htrx'.symm, hmode.trans hmode'.symm,
      hon' q hkq⟩
  · rcases hlast with hid | ⟨hw, hnone⟩
    · refine .inl fun k hk => ?_
      rw [hid, takeFrom_nextLock]
      exact s.lt_next k hk
    refine .inr ⟨?_, fun k hk hkw hkq => ?_⟩
    · rw [Lock.wait, hadded.typeMode_eq, TypeMode.wait_forRecord]
      exact hw
    · obtain ⟨k', hk', -, -, hmode', hkq'⟩ := h.takeFrom_push hl hon hk hkq fun hid => by
        obtain rfl := eq_of_id_eq hk hl hid
        exact absurd (hw.symm.trans hkw) Bool.noConfusion
      refine hnone k' hk' ?_ hkq'
      rw [Lock.wait, ← hmode']
      exact hkw

end Turn

/-! ## The whole loop -/

/-- The lock `a'` of the receiver was made from the lock `a` of the donator. -/
structure IsImage (receiver : PageId) (receiverHeapNo : ℕ) (s : LockSys) (a a' : Lock) : Prop where
  mem : a' ∈ s.locks
  on : a'.On (.record receiver receiverHeapNo)
  trx_eq : a'.trx = a.trx
  typeMode_eq : a'.typeMode = a.typeMode.forRecord receiverHeapNo

theorem IsImage.wait_eq {a' : Lock} (h : IsImage receiver receiverHeapNo s a a') :
    a'.wait = a.wait := by
  rw [Lock.wait, h.typeMode_eq, TypeMode.wait_forRecord]
  rfl

/-- The state after the locks `P` of the donator were moved. -/
structure Moved (donator : Queue) (receiver : PageId) (receiverHeapNo : ℕ) (s₀ : LockSys)
    (P : Lock → Prop) (s : LockSys) : Prop where
  basic : Basic none none s
  keep : ∀ l ∈ s₀.locks, ∀ q, l.On q → (q = donator → ¬ P l) →
    ∃ l' ∈ s.locks, l.id = l'.id ∧ l.trx = l'.trx ∧ l.typeMode = l'.typeMode ∧ l'.On q
  old : ∀ l' ∈ s.locks, ∀ q, q ≠ .record receiver receiverHeapNo → l'.On q →
    ∃ l ∈ s₀.locks, l.id = l'.id ∧ l.trx = l'.trx ∧ l.typeMode = l'.typeMode ∧ l.On q ∧
      (q = donator → ¬ P l)
  source : ∀ a' ∈ s.locks, a'.On (.record receiver receiverHeapNo) →
    ∃ a ∈ s₀.locks, P a ∧ IsImage receiver receiverHeapNo s a a'
  /-- Two images keep their order if one of them waits. -/
  order : ∀ a' ∈ s.locks, ∀ b' ∈ s.locks, a'.On (.record receiver receiverHeapNo) →
    b'.On (.record receiver receiverHeapNo) → a'.id < b'.id → a'.wait ∨ b'.wait →
      ∃ a ∈ s₀.locks, ∃ b ∈ s₀.locks, P a ∧ P b ∧ IsImage receiver receiverHeapNo s a a' ∧
        IsImage receiver receiverHeapNo s b b' ∧ a.id < b.id
  image : ∀ a ∈ s₀.locks, P a → ∃ a', IsImage receiver receiverHeapNo s a a'
  images : ∀ a ∈ s₀.locks, ∀ w ∈ s₀.locks, P a → P w → w.wait → a.id < w.id →
    ∃ a' w', IsImage receiver receiverHeapNo s a a' ∧ IsImage receiver receiverHeapNo s w w' ∧
      a'.id < w'.id

section Moved

variable {qd : Queue} {P : Lock → Prop} {a' : Lock}

theorem Moved.start (h : Basic none none s₀) (qd : Queue)
    (hempty : ∀ l ∈ s₀.locks, ¬ l.On (.record receiver receiverHeapNo)) :
    Moved qd receiver receiverHeapNo s₀ (fun _ => False) s₀ where
  basic := h
  keep l hl _ hq _ := ⟨l, hl, rfl, rfl, rfl, hq⟩
  old l hl _ _ hq := ⟨l, hl, rfl, rfl, rfl, hq, fun _ => id⟩
  source a ha hq := absurd hq (hempty a ha)
  order a ha _ _ hq := absurd hq (hempty a ha)
  image _ _ := False.elim
  images _ _ _ _ := False.elim

theorem Turn.push_image (ht : Turn qd (.record receiver receiverHeapNo) l.id c s s')
    (hne : qd ≠ .record receiver receiverHeapNo) (h : IsImage receiver receiverHeapNo s a a') :
    ∃ a'', IsImage receiver receiverHeapNo s' a a'' ∧ a''.id = a'.id := by
  obtain ⟨a'', ha'', hid, htrx, hmode, hon⟩ := ht.push a' h.mem _ h.on fun _ => hne.symm
  exact ⟨a'', ⟨ha'', hon, htrx.symm.trans h.trx_eq, hmode.symm.trans h.typeMode_eq⟩, hid.symm⟩

theorem Turn.pull_image (ht : Turn qd (.record receiver receiverHeapNo) l.id c s s')
    (ha' : a' ∈ s'.locks) (hon : a'.On (.record receiver receiverHeapNo)) :
    a' = c ∨ ∃ k ∈ s.locks, k.id = a'.id ∧ k.wait = a'.wait ∧
      k.On (.record receiver receiverHeapNo) ∧ ∀ a, IsImage receiver receiverHeapNo s a k →
        IsImage receiver receiverHeapNo s' a a' := by
  refine (ht.pull a' ha' _ hon).imp And.left ?_
  rintro ⟨k, hk, hid, htrx, hmode, hkq, -⟩
  refine ⟨k, hk, hid, congrArg TypeMode.wait hmode, hkq, fun a h => ⟨ha', hon, ?_, ?_⟩⟩
  · exact htrx.symm.trans h.trx_eq
  · exact hmode.symm.trans h.typeMode_eq

section

variable (h : Moved qd receiver receiverHeapNo s₀ P s)

include h

theorem Moved.order_turn (hl : l ∈ s₀.locks)
    (hlt : ∀ a ∈ s₀.locks, P a → a.id < l.id) (hc : IsImage receiver receiverHeapNo s' l c)
    (ht : Turn qd (.record receiver receiverHeapNo) l.id c s s') {a' b' : Lock}
    (ha' : a' ∈ s'.locks) (hb' : b' ∈ s'.locks) (hona : a'.On (.record receiver receiverHeapNo))
    (honb : b'.On (.record receiver receiverHeapNo)) (hid : a'.id < b'.id)
    (hwait : a'.wait ∨ b'.wait) :
    ∃ a ∈ s₀.locks, ∃ b ∈ s₀.locks, (P a ∨ a = l) ∧ (P b ∨ b = l) ∧
      IsImage receiver receiverHeapNo s' a a' ∧ IsImage receiver receiverHeapNo s' b b' ∧
        a.id < b.id := by
  rcases ht.last with hlast | ⟨hcw, hnone⟩
  · obtain rfl | ⟨k, hk, hkb, hkw, hkq, hbk⟩ := ht.pull_image hb' honb
    · obtain rfl | ⟨m, hm, hma, -, hmq, ham⟩ := ht.pull_image ha' hona
      · exact absurd hid (lt_irrefl _)
      · obtain ⟨a, ha, hPa, himage⟩ := h.source m hm hmq
        exact ⟨a, ha, l, hl, .inl hPa, .inr rfl, ham a himage, hc, hlt a ha hPa⟩
    · obtain rfl | ⟨m, hm, hma, hmw, hmq, ham⟩ := ht.pull_image ha' hona
      · exact absurd hid (hkb ▸ hlast k hk).not_gt
      · rw [← hma, ← hkb] at hid
        rw [← hmw, ← hkw] at hwait
        obtain ⟨a, ha, b, hb, hPa, hPb, himage, himage', hab⟩ :=
          h.order m hm k hk hmq hkq hid hwait
        exact ⟨a, ha, b, hb, .inl hPa, .inl hPb, ham a himage, hbk b himage', hab⟩
  · -- A structure was used again, so nothing waits for the receiver.
    have hgranted : ∀ k' ∈ s'.locks, k'.On (.record receiver receiverHeapNo) → ¬ k'.wait := by
      intro k' hk' hon hw
      obtain rfl | ⟨k, hk, -, hkw, hkq, -⟩ := ht.pull_image hk' hon
      · exact absurd (hcw.symm.trans hw) Bool.noConfusion
      · exact hnone k hk (hkw.trans hw) hkq
    exact absurd hwait (not_or.mpr ⟨hgranted a' ha' hona, hgranted b' hb' honb⟩)

theorem Moved.images_turn (hne : qd ≠ .record receiver receiverHeapNo)
    (hlt : ∀ a ∈ s₀.locks, P a → a.id < l.id) (hc : IsImage receiver receiverHeapNo s' l c)
    (ht : Turn qd (.record receiver receiverHeapNo) l.id c s s') {w : Lock} (ha : a ∈ s₀.locks)
    (hw : w ∈ s₀.locks) (hPa : P a ∨ a = l) (hPw : P w ∨ w = l) (hww : w.wait) (hid : a.id < w.id) :
    ∃ a' w', IsImage receiver receiverHeapNo s' a a' ∧ IsImage receiver receiverHeapNo s' w w' ∧
      a'.id < w'.id := by
  rcases hPa with hPa | rfl
  · rcases hPw with hPw | rfl
    · obtain ⟨a₁, w₁, ha₁, hw₁, hlt₁⟩ := h.images a ha w hw hPa hPw hww hid
      obtain ⟨a', ha', haid⟩ := ht.push_image hne ha₁
      obtain ⟨w', hw', hwid⟩ := ht.push_image hne hw₁
      exact ⟨a', w', ha', hw', by rwa [haid, hwid]⟩
    · obtain ⟨a₁, ha₁⟩ := h.image a ha hPa
      obtain ⟨a', ha', haid⟩ := ht.push_image hne ha₁
      refine ⟨a', c, ha', hc, haid ▸ ?_⟩
      rcases ht.last with hlast | ⟨hcw, -⟩
      · exact hlast a₁ ha₁.mem
      · exact absurd (hcw.symm.trans (hc.wait_eq.trans hww)) Bool.noConfusion
  · rcases hPw with hPw | rfl
    · exact absurd hid (hlt w hw hPw).not_gt
    · exact absurd hid (lt_irrefl _)

theorem Moved.turn (hne : qd ≠ .record receiver receiverHeapNo) (hl : l ∈ s₀.locks)
    (hlt : ∀ a ∈ s₀.locks, P a → a.id < l.id) (htrx : c.trx = l.trx)
    (hmode : c.typeMode = l.typeMode.forRecord receiverHeapNo)
    (ht : Turn qd (.record receiver receiverHeapNo) l.id c s s') :
    Moved qd receiver receiverHeapNo s₀ (fun k => P k ∨ k = l) s' := by
  have hc : IsImage receiver receiverHeapNo s' l c := ⟨ht.mem, ht.on, htrx, hmode⟩
  refine ⟨ht.basic, fun k hk q hq hkeep => ?_, fun k' hk' q hqr hq => ?_, fun a' ha' hon => ?_,
    fun a' ha' b' hb' hona honb hid hwait => ?_, fun a ha hPa => ?_,
    fun a ha w hw hPa hPw hww hid => ?_⟩
  · obtain ⟨k₁, hk₁, hid, htrx, hmode, hq₁⟩ :=
      h.keep k hk q hq fun heq hP => hkeep heq (.inl hP)
    obtain ⟨k', hk', hid', htrx', hmode', hq'⟩ := ht.push k₁ hk₁ q hq₁ fun hkl heq =>
      hkeep heq (.inr (eq_of_id_eq hk hl (hid.trans hkl)))
    exact ⟨k', hk', hid.trans hid', htrx.trans htrx', hmode.trans hmode', hq'⟩
  · obtain ⟨-, heq⟩ | ⟨k₁, hk₁, hid, htrx, hmode, hq₁, hkl⟩ := ht.pull k' hk' q hq
    · exact absurd heq hqr
    · obtain ⟨k, hk, hid', htrx', hmode', hq', hP⟩ := h.old k₁ hk₁ q hqr hq₁
      refine ⟨k, hk, hid'.trans hid, htrx'.trans htrx, hmode'.trans hmode, hq', fun heq => ?_⟩
      rintro (hPk | rfl)
      · exact hP heq hPk
      · exact hkl hid'.symm heq
  · obtain rfl | ⟨k, hk, -, -, hkq, himage⟩ := ht.pull_image ha' hon
    · exact ⟨l, hl, .inr rfl, hc⟩
    · obtain ⟨a, ha, hPa, hak⟩ := h.source k hk hkq
      exact ⟨a, ha, .inl hPa, himage a hak⟩
  · exact h.order_turn hl hlt hc ht ha' hb' hona honb hid hwait
  · rcases hPa with hPa | rfl
    · obtain ⟨a', ha'⟩ := h.image a ha hPa
      obtain ⟨a'', ha'', -⟩ := ht.push_image hne ha'
      exact ⟨a'', ha''⟩
    · exact ⟨c, hc⟩
  · exact h.images_turn hne hlt hc ht ha hw hPa hPw hww hid

end

theorem moveLock_congr {l' : Lock} (hid : l.id = l'.id) (htrx : l.trx = l'.trx)
    (hmode : l.typeMode = l'.typeMode) :
    s.moveLock receiver receiverHeapNo receiverNHeap donatorHeapNo l =
      s.moveLock receiver receiverHeapNo receiverNHeap donatorHeapNo l' := by
  obtain ⟨i, trx, m, member⟩ := l
  obtain ⟨i', trx', m', member'⟩ := l'
  obtain rfl : i = i' := hid
  obtain rfl : trx = trx' := htrx
  obtain rfl : m = m' := hmode
  rfl

theorem Moved.foldl (hheap : receiverHeapNo < receiverNHeap)
    (hempty : ∀ l ∈ s₀.locks, ¬ l.On (.record receiver receiverHeapNo)) {locks : List Lock}
    (h : Moved (.record donator donatorHeapNo) receiver receiverHeapNo s₀ P s)
    (hlocks : ∀ l ∈ locks, l ∈ s₀.locks ∧ l.On (.record donator donatorHeapNo) ∧
      ∀ a ∈ s₀.locks, P a → a.id < l.id) (hsorted : locks.Pairwise fun a b => a.id < b.id) :
    Moved (.record donator donatorHeapNo) receiver receiverHeapNo s₀ (fun k => P k ∨ k ∈ locks)
      (locks.foldl (fun s l => s.moveLock receiver receiverHeapNo receiverNHeap donatorHeapNo l)
        s) := by
  induction locks generalizing P s with
  | nil => simpa only [foldl_nil, not_mem_nil, or_false] using h
  | cons l locks ih =>
    obtain ⟨⟨hl, hon, hlt⟩, hrest⟩ := forall_mem_cons.mp hlocks
    obtain ⟨hfirst, hsorted⟩ := pairwise_cons.mp hsorted
    have hne : Queue.record donator donatorHeapNo ≠ .record receiver receiverHeapNo :=
      fun heq => hempty l hl (heq ▸ hon)
    -- The lock may have got other bits before its turn.
    obtain ⟨cur, hcur, hid, htrx, hmode, hcon⟩ :=
      h.keep l hl _ hon fun _ hP => absurd (hlt l hl hP) (lt_irrefl _)
    obtain ⟨c, hctrx, hcmode, hturn⟩ := h.basic.moveLock hcur hcon receiver hheap
    rw [← moveLock_congr hid htrx hmode, ← hid] at hturn
    have hmoved := h.turn hne hl hlt (hctrx.trans htrx.symm) (hmode ▸ hcmode) hturn
    have hall := ih hmoved (fun k hk => ?_) hsorted
    · simpa only [foldl_cons, mem_cons, or_assoc] using hall
    · obtain ⟨hks, hkon, hklt⟩ := hrest k hk
      refine ⟨hks, hkon, fun a ha hP => ?_⟩
      rcases hP with hP | rfl
      · exact hklt a ha hP
      · exact hfirst k hk

theorem Basic.lockRecMove (h : Basic none none s₀) (donator : PageId) (donatorHeapNo : ℕ)
    (hheap : receiverHeapNo < receiverNHeap) (hempty : s₀.recLocks receiver receiverHeapNo = []) :
    Moved (.record donator donatorHeapNo) receiver receiverHeapNo s₀
      (· ∈ s₀.recLocks donator donatorHeapNo)
      (s₀.lockRecMove receiver donator receiverHeapNo receiverNHeap donatorHeapNo) := by
  have hnone : ∀ l ∈ s₀.locks, ¬ l.On (.record receiver receiverHeapNo) := by
    intro l hl hon
    have hmem := mem_recLocks.mpr ⟨hl, hon⟩
    rw [hempty] at hmem
    exact absurd hmem not_mem_nil
  have hsorted : (s₀.recLocks donator donatorHeapNo).Pairwise fun a b => a.id < b.id :=
    s₀.sorted.sublist (filter_sublist.trans filter_sublist)
  have hall := (Moved.start h (.record donator donatorHeapNo) hnone).foldl hheap hnone
    (fun l hl => ⟨(mem_recLocks.mp hl).1, (mem_recLocks.mp hl).2, fun _ _ => False.elim⟩) hsorted
  unfold LockSys.lockRecMove
  simpa only [false_or] using hall

/-! ## What a move keeps -/

variable (h : Moved (.record donator donatorHeapNo) receiver receiverHeapNo s₀
  (· ∈ s₀.recLocks donator donatorHeapNo) s)

include h

theorem Moved.exclusive (hs : Exclusive s₀)
    (hkind : donatorHeapNo = heapNoSupremum → receiverHeapNo = heapNoSupremum) : Exclusive s := by
  intro a' ha' b' hb' hlt hw hne page heapNo hheap haq hbq hac hbc
  by_cases hq : Queue.record page heapNo = .record receiver receiverHeapNo
  · obtain ⟨rfl, rfl⟩ := Queue.record.inj hq
    have hdon : donatorHeapNo ≠ heapNoSupremum := fun hd => hheap (hkind hd)
    have hmode : ∀ {a a'}, IsImage page heapNo s a a' → a'.typeMode = a.typeMode := by
      intro a a' himage
      rw [himage.typeMode_eq, TypeMode.forRecord, if_neg hheap]
    -- The locks they were made from stand in the same order, or are both granted.
    have hpair : ∃ a b, (a ∈ s₀.recLocks donator donatorHeapNo ∧
        b ∈ s₀.recLocks donator donatorHeapNo) ∧ IsImage page heapNo s a a' ∧
          IsImage page heapNo s b b' ∧ (a.id < b.id ∨ a'.wait = false) := by
      cases haw : a'.wait with
      | true =>
        obtain ⟨a, -, b, -, hPa, hPb, hia, hib, hab⟩ :=
          h.order a' ha' b' hb' haq hbq hlt (.inl haw)
        exact ⟨a, b, ⟨hPa, hPb⟩, hia, hib, .inl hab⟩
      | false =>
        obtain ⟨a, -, hPa, hia⟩ := h.source a' ha' haq
        obtain ⟨b, -, hPb, hib⟩ := h.source b' hb' hbq
        exact ⟨a, b, ⟨hPa, hPb⟩, hia, hib, .inr rfl⟩
    obtain ⟨a, b, ⟨hPa, hPb⟩, hia, hib, hcase⟩ := hpair
    obtain ⟨ha, hona⟩ := mem_recLocks.mp hPa
    obtain ⟨hb, honb⟩ := mem_recLocks.mp hPb
    have hne₀ : a.trx ≠ b.trx := by rwa [← hia.trx_eq, ← hib.trx_eq]
    rw [hmode hia] at hac ⊢
    rw [hmode hib] at hbc ⊢
    rcases hcase with hab | haw
    · exact hs a ha b hb hab (hib.wait_eq ▸ hw) hne₀ donator donatorHeapNo hdon hona honb hac hbc
    · exact hs.compatible ha hb (hia.wait_eq ▸ haw) (hib.wait_eq ▸ hw) hne₀ hdon hona honb hac hbc
  · obtain ⟨a, ha, hida, htrxa, hmodea, haq₀, -⟩ := h.old a' ha' _ hq haq
    obtain ⟨b, hb, hidb, htrxb, hmodeb, hbq₀, -⟩ := h.old b' hb' _ hq hbq
    rw [← hmodea, ← hmodeb]
    refine hs a ha b hb (by rwa [hida, hidb]) ?_ (by rwa [htrxa, htrxb]) page heapNo hheap haq₀
      hbq₀ (hmodea ▸ hac) (hmodeb ▸ hbc)
    rw [Lock.wait, hmodeb]
    exact hw

omit h in
theorem IsImage.hasToWait_eq {w w' a' : Lock} (hw : IsImage receiver receiverHeapNo s w w')
    (ha : IsImage receiver receiverHeapNo s a a')
    (hkind : donatorHeapNo = heapNoSupremum ↔ receiverHeapNo = heapNoSupremum)
    (hgap : donatorHeapNo = heapNoSupremum → w.typeMode.gap = false) :
    (Queue.record receiver receiverHeapNo).hasToWait w'.trx w'.typeMode a' =
      (Queue.record donator donatorHeapNo).hasToWait w.trx w.typeMode a := by
  by_cases hsup : receiverHeapNo = heapNoSupremum
  · have hdon := hkind.mpr hsup
    have hgap := hgap hdon
    cases hins : w.typeMode.insertIntention <;>
      simp [Queue.hasToWait, lockRecHasToWait, hw.trx_eq, hw.typeMode_eq, ha.trx_eq,
        ha.typeMode_eq, TypeMode.forRecord, hsup, hdon, hgap, hins]
  · have hdon : donatorHeapNo ≠ heapNoSupremum := fun hd => hsup (hkind.mp hd)
    simp [Queue.hasToWait, lockRecHasToWait, hw.trx_eq, hw.typeMode_eq, ha.trx_eq,
      ha.typeMode_eq, TypeMode.forRecord, hsup, hdon]

theorem Moved.edge (hb : Basic none none s₀)
    (hkind : donatorHeapNo = heapNoSupremum ↔ receiverHeapNo = heapNoSupremum) {t u : TrxRef}
    (hedge : Edge s t u) : Edge s₀ t u := by
  obtain ⟨w', hw', hww, rfl, a', ha', hlt, ⟨q, hwq, haq, hwait⟩, rfl⟩ := hedge
  by_cases hq : q = .record receiver receiverHeapNo
  · subst hq
    obtain ⟨a, ha, w, hw, hPa, hPw, hia, hiw, haw⟩ :=
      h.order a' ha' w' hw' haq hwq hlt (.inr hww)
    have hww₀ : w.wait := hiw.wait_eq ▸ hww
    obtain ⟨-, hwon⟩ := mem_recLocks.mp hPw
    refine ⟨w, hw, hww₀, hiw.trx_eq.symm, a, ha, haw,
      ⟨_, hwon, (mem_recLocks.mp hPa).2, ?_⟩, hia.trx_eq.symm⟩
    rw [← hwait, hiw.hasToWait_eq hia hkind fun hd => ?_]
    subst hd
    exact hb.supremum w hw hww₀ donator hwon
  · obtain ⟨w, hw, hidw, htrxw, hmodew, hwq₀, -⟩ := h.old w' hw' q hq hwq
    obtain ⟨a, ha, hida, htrxa, hmodea, haq₀, -⟩ := h.old a' ha' q hq haq
    have hww₀ : w.wait := by
      rw [Lock.wait, hmodew]
      exact hww
    refine ⟨w, hw, hww₀, htrxw, a, ha, by rwa [hida, hidw], ⟨q, hwq₀, haq₀, ?_⟩, htrxa⟩
    rw [Queue.hasToWait_congr htrxa (congrArg TypeMode.core hmodea), htrxw, hmodew, hwait]

theorem Moved.stuck (hb : Basic none none s₀) (hs : Stuck s₀)
    (hkind : donatorHeapNo = heapNoSupremum ↔ receiverHeapNo = heapNoSupremum) : Stuck s := by
  intro w' hw' hww
  obtain ⟨q, hq⟩ := h.basic.single w' hw' hww
  by_cases hqr : q = .record receiver receiverHeapNo
  · subst hqr
    obtain ⟨w, hw, hPw, hiw⟩ := h.source w' hw' hq.on
    have hww₀ : w.wait := hiw.wait_eq ▸ hww
    obtain ⟨-, hwon⟩ := mem_recLocks.mp hPw
    obtain ⟨q₀, hq₀⟩ := hb.single w hw hww₀
    obtain rfl := (hq₀ _).mp hwon
    obtain ⟨a, ha, hlt, hblocks⟩ := hs w hw hww₀
    obtain ⟨haon, hwait⟩ := hq₀.blocks_iff.mp hblocks
    obtain ⟨a', w'', hia, hiw', hlt'⟩ :=
      h.images a ha w hw (mem_recLocks.mpr ⟨ha, haon⟩) hPw hww₀ hlt
    -- The transaction has only one request that waits.
    obtain rfl := h.basic.wait_unique hiw'.mem hw' (hiw'.wait_eq.trans hww₀) hww
      (hiw'.trx_eq.trans hiw.trx_eq.symm)
    refine ⟨a', hia.mem, hlt', _, hq.on, hia.on, ?_⟩
    rw [hiw.hasToWait_eq hia hkind fun hd => ?_, hwait]
    subst hd
    exact hb.supremum w hw hww₀ donator hwon
  · obtain ⟨w, hw, hidw, htrxw, hmodew, hwq, hmoved⟩ := h.old w' hw' q hqr hq.on
    have hww₀ : w.wait := by
      rw [Lock.wait, hmodew]
      exact hww
    obtain ⟨q₀, hq₀⟩ := hb.single w hw hww₀
    obtain rfl := (hq₀ _).mp hwq
    obtain ⟨a, ha, hlt, hblocks⟩ := hs w hw hww₀
    obtain ⟨haon, hwait⟩ := hq₀.blocks_iff.mp hblocks
    obtain ⟨a', ha', hida, htrxa, hmodea, haq⟩ := h.keep a ha q haon fun heq =>
      absurd (mem_recLocks.mpr ⟨hw, heq ▸ hwq⟩) (hmoved heq)
    refine ⟨a', ha', by rwa [← hida, ← hidw], q, hq.on, haq, ?_⟩
    rw [← Queue.hasToWait_congr htrxa (congrArg TypeMode.core hmodea), ← htrxw, ← hmodew, hwait]

end Moved

end LockSys

end MySQL.Innobase
