import MySQL.Lib.System
import MySQL.Innobase.Lock.Sys

/-!
# Lock requests

The search for deadlocks, the functions that request a lock, and the sections under the
kernel mutex as the steps of a system.  The search is a recursion whose depth is bounded by
`LOCK_MAX_DEPTH_IN_DEADLOCK_CHECK`; the loop around it ends when no victim was chosen other
than the transaction that asks.
-/

namespace MySQL.Innobase

open Function

/-- What the lock system is given: how two transactions compare as victims, and the limits
of the search. -/
structure LockConfig where
  /-- `trx_weight_ge`. -/
  trxWeightGe : LockSys → TrxRef → TrxRef → Bool
  /-- `LOCK_MAX_DEPTH_IN_DEADLOCK_CHECK`. -/
  maxDepth : ℕ
  /-- `LOCK_MAX_N_STEPS_IN_DEADLOCK_CHECK`. -/
  maxSteps : ℕ

/-- The result of `lock_deadlock_recursive`.  A victim other than the start is given by the
request that is cancelled. -/
inductive DeadlockResult where
  | notFound
  | victimIsStart
  | victimIsOther (waitLock : Lock)
  | exceedMaxDepth

/-- What the search keeps: the transactions with `deadlock_mark`, and its cost. -/
structure DeadlockSearch where
  marks : List TrxRef
  cost : ℕ

inductive DbErr where
  | success
  | successLockedRec
  | lockWait
  | deadlock
  deriving DecidableEq, Repr

/-- The modes that are requested for records: `LOCK_S` or `LOCK_X`, possibly with
`LOCK_GAP` or `LOCK_REC_NOT_GAP`. -/
inductive RecMode where
  | ordinary (exclusive : Bool)
  | gap (exclusive : Bool)
  | recNotGap (exclusive : Bool)
  deriving DecidableEq, Repr

def RecMode.typeMode : RecMode → TypeMode
  | .ordinary x => ⟨if x then .x else .s, false, false, false, false⟩
  | .gap x => ⟨if x then .x else .s, false, true, false, false⟩
  | .recNotGap x => ⟨if x then .x else .s, false, false, true, false⟩

/-- `LOCK_X | LOCK_GAP | LOCK_INSERT_INTENTION`. -/
def insertTypeMode : TypeMode := ⟨.x, false, true, false, true⟩

namespace LockSys

variable (cfg : LockConfig) (s : LockSys)

/-! ## Deadlocks -/

/-- The locks that `lock_deadlock_recursive` looks at: those ahead of the request, for a
record from the first one on and for a table from the last one back. -/
def locksAhead (waitLock : Lock) : List Lock :=
  match waitLock.member with
  | .recLock page _ _ =>
    ((s.pageLocks page).takeWhile fun l => l.id ≠ waitLock.id).filter fun l =>
      waitLock.findSetBit.any l.getNthBit
  | .tabLock table => ((s.tableLocks table).takeWhile fun l => l.id ≠ waitLock.id).reverse

def waitLock? (trx : TrxRef) : Option Lock := (s.waitLock trx).bind s.find?

/-- The loop of `lock_deadlock_recursive` over the locks ahead.  `tooDeep` says that the
recursion has reached its last level, and `search` is the recursive call. -/
def scanAhead (start trx : TrxRef) (waitLock : Lock) (tooDeep : Bool)
    (search : TrxRef → Lock → DeadlockSearch → DeadlockResult × DeadlockSearch) :
    List Lock → DeadlockSearch → DeadlockResult × DeadlockSearch
  | [], d => (.notFound, { d with marks := trx :: d.marks })
  | l :: rest, d =>
    if lockHasToWait waitLock l then
      if l.trx = start then
        if cfg.trxWeightGe s waitLock.trx start then (.victimIsStart, d)
        else (.victimIsOther waitLock, d)
      else if tooDeep || cfg.maxSteps < d.cost then (.exceedMaxDepth, d)
      else
        match if s.lockWait l.trx then s.waitLock? l.trx else none with
        | some waitLock' =>
          match search l.trx waitLock' d with
          | (.notFound, d') => scanAhead start trx waitLock tooDeep search rest d'
          | result => result
        | none => scanAhead start trx waitLock tooDeep search rest d
    else scanAhead start trx waitLock tooDeep search rest d

/-- `lock_deadlock_recursive`, with the number of levels that are left. -/
def lockDeadlockRecursive (start : TrxRef) :
    ℕ → TrxRef → Lock → DeadlockSearch → DeadlockResult × DeadlockSearch
  | levels, trx, waitLock, d =>
    if trx ∈ d.marks then (.notFound, d)
    else
      let d := { d with cost := d.cost + 1 }
      match levels with
      | 0 =>
        s.scanAhead cfg start trx waitLock true (fun _ _ d => (.exceedMaxDepth, d))
          (s.locksAhead waitLock) d
      | levels + 1 =>
        s.scanAhead cfg start trx waitLock false (lockDeadlockRecursive start levels)
          (s.locksAhead waitLock) d

/-- `lock_deadlock_occurs`, with a bound on the number of searches.  `none` means that the
bound was reached. -/
def deadlockSearches (trx : TrxRef) (i : LockId) : ℕ → ℕ → LockSys → Option (Bool × LockSys)
  | 0, _, _ => none
  | searches + 1, cost, s =>
    match s.find? i with
    | none => some (false, s)
    | some l =>
      match s.lockDeadlockRecursive cfg trx (cfg.maxDepth + 1) trx l ⟨[], cost⟩ with
      | (.notFound, _) => some (false, s)
      | (.victimIsOther waitLock, d) =>
        deadlockSearches trx i searches d.cost (s.lockCancelWaitingAndRelease waitLock)
      | _ => some (true, s)

/-- `lock_deadlock_occurs`: there are no more searches than waiting requests. -/
def lockDeadlockOccurs (i : LockId) (trx : TrxRef) : Option (Bool × LockSys) :=
  deadlockSearches cfg trx i (s.locks.countP Lock.wait + 1) 0 s

/-! ## Record locks -/

/-- `lock_rec_enqueue_waiting`. -/
def lockRecEnqueueWaiting (typeMode : TypeMode) (page : PageId) (heapNo nHeap : ℕ)
    (trx : TrxRef) : Option (DbErr × LockSys) :=
  let i := s.nextLock
  let s₁ := s.lockRecCreate { typeMode with wait := true } page heapNo nHeap trx
  match s₁.lockDeadlockOccurs cfg i trx with
  | none => none
  | some (true, s₂) =>
    some (.deadlock,
      { s₂.modifyLock i (fun l => l.resetWait.resetNthBit heapNo) fun l =>
          l.resetWait.resetNthBit_id heapNo with
        waitLock := update s₂.waitLock trx none })
  | some (false, s₂) =>
    -- The request may have been granted when a victim was cancelled.
    if s₂.waitLock trx = none then some (.successLockedRec, s₂)
    else some (.lockWait, { s₂ with lockWait := update s₂.lockWait trx true })

inductive LockRecReqStatus where
  | fail
  | success
  | successCreated

variable (impl : Bool) (mode : TypeMode) (page : PageId)

/-- `lock_rec_lock_fast`. -/
def lockRecLockFast (heapNo nHeap : ℕ) (trx : TrxRef) : LockRecReqStatus × LockSys :=
  match s.pageLocks page with
  | [] => (.successCreated, if impl then s else s.lockRecCreate mode page heapNo nHeap trx)
  | [l] =>
    if l.trx ≠ trx || l.typeMode ≠ mode || l.nBits ≤ heapNo then (.fail, s)
    else if !impl && !l.getNthBit heapNo then
      (.successCreated, s.modifyLock l.id (·.setNthBit heapNo) fun l => l.setNthBit_id heapNo)
    else (.success, s)
  | _ :: _ :: _ => (.fail, s)

/-- `lock_rec_lock_slow`. -/
def lockRecLockSlow (heapNo nHeap : ℕ) (trx : TrxRef) : Option (DbErr × LockSys) :=
  if s.lockRecHasExpl mode page heapNo trx then some (.success, s)
  else if s.lockRecOtherHasConflicting mode page heapNo trx then
    s.lockRecEnqueueWaiting cfg mode page heapNo nHeap trx
  else if !impl then
    some (.successLockedRec, s.lockRecAddToQueue mode page heapNo nHeap trx)
  else some (.success, s)

/-- `lock_rec_lock`. -/
def lockRecLock (mode : RecMode) (page : PageId) (heapNo nHeap : ℕ) (trx : TrxRef) :
    Option (DbErr × LockSys) :=
  match s.lockRecLockFast impl mode.typeMode page heapNo nHeap trx with
  | (.success, s') => some (.success, s')
  | (.successCreated, s') => some (.successLockedRec, s')
  | (.fail, _) => s.lockRecLockSlow cfg impl mode.typeMode page heapNo nHeap trx

/-- `lock_rec_insert_check_and_lock` without `BTR_NO_LOCKING_FLAG`; the record is the
successor of the place of the insert. -/
def lockRecInsertCheckAndLock (nextRecHeapNo nHeap : ℕ) (trx : TrxRef) : Option (DbErr × LockSys) :=
  if s.recLocks page nextRecHeapNo = [] then some (.success, s)
  else if s.lockRecOtherHasConflicting insertTypeMode page nextRecHeapNo trx then
    (s.lockRecEnqueueWaiting cfg insertTypeMode page nextRecHeapNo nHeap trx).map fun r =>
      (if r.1 = .successLockedRec then .success else r.1, r.2)
  else some (.success, s)

/-! ## Table locks -/

/-- `lock_table_create`. -/
def lockTableCreate (table : TableId) (typeMode : TypeMode) (trx : TrxRef) : LockSys :=
  let s' := s.addLock trx typeMode (.tabLock table)
  if typeMode.mode = .autoInc ∧ typeMode.wait = false then
    { s' with
      autoincTrx := update s.autoincTrx table (some trx)
      autoincLocks := update s.autoincLocks trx (s.nextLock :: s.autoincLocks trx) }
  else s'

variable (trx : TrxRef) (table : TableId) (mode : LockMode)

/-- `lock_table_has`. -/
def lockTableHas : Bool :=
  (s.tableLocks table).any fun l => l.trx = trx && l.typeMode.mode.strongerOrEq mode

/-- `lock_table_other_has_incompatible`, with the waiting requests. -/
def lockTableOtherHasIncompatible : Bool :=
  (s.tableLocks table).any fun l => l.trx ≠ trx && !l.typeMode.mode.compatible mode

/-- `lock_table_enqueue_waiting`. -/
def lockTableEnqueueWaiting (table : TableId) (trx : TrxRef) : Option (DbErr × LockSys) :=
  let i := s.nextLock
  let s₁ := s.lockTableCreate table ⟨mode, true, false, false, false⟩ trx
  match s₁.lockDeadlockOccurs cfg i trx with
  | none => none
  | some (true, s₂) =>
    let s₃ :=
      match s₂.find? i with
      | some l => s₂.lockTableRemoveLow l table
      | none => s₂
    some (.deadlock, { s₃ with waitLock := update s₃.waitLock trx none })
  | some (false, s₂) =>
    if s₂.waitLock trx = none then some (.success, s₂)
    else some (.lockWait, { s₂ with lockWait := update s₂.lockWait trx true })

/-- `lock_table` without `BTR_NO_LOCKING_FLAG`. -/
def lockTable (trx : TrxRef) : Option (DbErr × LockSys) :=
  if s.lockTableHas trx table mode then some (.success, s)
  else if s.lockTableOtherHasIncompatible trx table mode then
    s.lockTableEnqueueWaiting cfg mode table trx
  else some (.success, s.lockTableCreate table ⟨mode, false, false, false, false⟩ trx)

end LockSys

/-! ## Steps -/

inductive LockAct where
  | recLock (trx : TrxRef) (impl : Bool) (mode : RecMode) (page : PageId) (heapNo nHeap : ℕ)
  | insertCheck (trx : TrxRef) (page : PageId) (nextRecHeapNo nHeap : ℕ)
  | table (trx : TrxRef) (table : TableId) (mode : LockMode)
  | unlock (trx : TrxRef) (page : PageId) (heapNo : ℕ) (mode : LockMode)
  /-- A timeout or a kill. -/
  | cancel (trx : TrxRef)
  | release (trx : TrxRef)
  | releaseAutoinc (trx : TrxRef)
  | inherit (noGapLocks : TrxRef → Bool) (heirPage page : PageId)
      (heirHeapNo heirNHeap heapNo : ℕ)
  | move (receiver donator : PageId) (receiverHeapNo receiverNHeap donatorHeapNo : ℕ)

namespace LockSys

variable (cfg : LockConfig)

/-- A thread that waits for a lock makes no request and releases nothing.  `moves` says
between which kinds of records locks are moved: its arguments say whether the donator and
the receiver are the supremum of their pages. -/
def step (moves : Bool → Bool → Bool) (s : LockSys) : LockAct → Option LockSys
  | .recLock trx impl mode page heapNo nHeap =>
    if s.lockWait trx = false ∧ heapNo < nHeap then
      (s.lockRecLock cfg impl mode page heapNo nHeap trx).map Prod.snd
    else none
  | .insertCheck trx page nextRecHeapNo nHeap =>
    if s.lockWait trx = false ∧ nextRecHeapNo < nHeap then
      (s.lockRecInsertCheckAndLock cfg page nextRecHeapNo nHeap trx).map Prod.snd
    else none
  | .table trx table mode =>
    if s.lockWait trx = false then (s.lockTable cfg table mode trx).map Prod.snd else none
  | .unlock trx page heapNo mode =>
    if s.lockWait trx = false then some (s.lockRecUnlock trx page heapNo mode) else none
  | .cancel trx =>
    if s.lockWait trx then (s.waitLock? trx).map s.lockCancelWaitingAndRelease else none
  | .release trx => if s.lockWait trx = false then some (s.lockReleaseOffKernel trx) else none
  | .releaseAutoinc trx =>
    if s.lockWait trx = false then some (s.lockReleaseAutoincLocks trx) else none
  | .inherit noGapLocks heirPage page heirHeapNo heirNHeap heapNo =>
    if heirHeapNo < heirNHeap ∧ ¬ (heirPage = page ∧ heirHeapNo = heapNo) then
      some (s.lockRecInheritToGap noGapLocks heirPage page heirHeapNo heirNHeap heapNo)
    else none
  | .move receiver donator receiverHeapNo receiverNHeap donatorHeapNo =>
    if receiverHeapNo < receiverNHeap ∧ s.recLocks receiver receiverHeapNo = [] ∧
        moves (donatorHeapNo = heapNoSupremum) (receiverHeapNo = heapNoSupremum) then
      some (s.lockRecMove receiver donator receiverHeapNo receiverNHeap donatorHeapNo)
    else none

end LockSys

def lockSys (cfg : LockConfig) (moves : Bool → Bool → Bool) : Lib.System LockSys LockAct where
  init s := s = LockSys.empty
  step := LockSys.step cfg moves

end MySQL.Innobase
