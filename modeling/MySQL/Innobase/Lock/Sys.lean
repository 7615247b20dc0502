import MySQL.Innobase.Lock.Types

/-!
# The lock system

`lock_sys->rec_hash`, the lists of table locks and the lists of locks of each transaction
are kept in the order of creation, so one list of all locks in that order holds them all: a
queue is the part of it that concerns one page or one table.  The functions take a lock by
its identifier, as the source takes it by its address.
-/

namespace MySQL.Innobase

open List Function

structure LockSys where
  locks : List Lock
  nextLock : LockId
  /-- `trx->wait_lock`. -/
  waitLock : TrxRef → Option LockId
  /-- `trx->que_state == TRX_QUE_LOCK_WAIT`. -/
  lockWait : TrxRef → Bool
  /-- `trx->autoinc_locks`, the last one first and without the gaps. -/
  autoincLocks : TrxRef → List LockId
  /-- `table->autoinc_trx`. -/
  autoincTrx : TableId → Option TrxRef
  sorted : locks.Pairwise fun a b => a.id < b.id
  lt_next : ∀ l ∈ locks, l.id < nextLock

namespace LockSys

def empty : LockSys where
  locks := []
  nextLock := 0
  waitLock _ := none
  lockWait _ := false
  autoincLocks _ := []
  autoincTrx _ := none
  sorted := .nil
  lt_next _ h := absurd h not_mem_nil

variable (s : LockSys)

/-! ## The queues -/

def find? (i : LockId) : Option Lock := s.locks.find? fun l => l.id = i

def pageLocks (page : PageId) : List Lock := s.locks.filter fun l => l.onPage page

/-- The locks that `lock_rec_get_first` and `lock_rec_get_next` go through. -/
def recLocks (page : PageId) (heapNo : ℕ) : List Lock :=
  (s.pageLocks page).filter fun l => l.getNthBit heapNo

def tableLocks (table : TableId) : List Lock := s.locks.filter fun l => l.onTable table

def modifyLock (i : LockId) (f : Lock → Lock) (hf : ∀ l, (f l).id = l.id) : LockSys :=
  have hid (l : Lock) : (if l.id = i then f l else l).id = l.id := by
    split
    · exact hf l
    · rfl
  { s with
    locks := s.locks.map fun l => if l.id = i then f l else l
    sorted := pairwise_map.mpr (s.sorted.imp fun h => by simpa only [hid] using h)
    lt_next := List.forall_mem_map.mpr fun l hl => (hid l).symm ▸ s.lt_next l hl }

def removeLock (i : LockId) : LockSys :=
  { s with
    locks := s.locks.filter fun l => l.id ≠ i
    sorted := s.sorted.sublist filter_sublist
    lt_next := fun l hl => s.lt_next l (mem_of_mem_filter hl) }

variable (trx : TrxRef) (typeMode : TypeMode)

def addLock (member : LockMember) : LockSys :=
  { s with
    locks := s.locks ++ [⟨s.nextLock, trx, typeMode, member⟩]
    nextLock := s.nextLock + 1
    waitLock :=
      if typeMode.wait then update s.waitLock trx (some s.nextLock) else s.waitLock
    sorted := pairwise_append.mpr ⟨s.sorted, pairwise_singleton _ _,
      fun l hl _ hk => mem_singleton.mp hk ▸ s.lt_next l hl⟩
    lt_next := forall_mem_append.mpr
      ⟨fun l hl => (s.lt_next l hl).trans (Nat.lt_succ_self _),
        forall_mem_singleton.mpr (Nat.lt_succ_self _)⟩ }

/-! ## Record locks -/

variable (page : PageId) (heapNo nHeap : ℕ)

/-- `lock_rec_create`; `nHeap` is the number of records in the heap of the page. -/
def lockRecCreate (trx : TrxRef) : LockSys :=
  let nBytes := 1 + (nHeap + 64) / 8
  s.addLock trx (typeMode.forRecord heapNo) (.recLock page (nBytes * 8) {heapNo})

/-- `lock_rec_find_similar_on_page`. -/
def lockRecFindSimilarOnPage (heapNo : ℕ) (trx : TrxRef) : Option Lock :=
  (s.pageLocks page).find? fun l => l.trx = trx && l.typeMode = typeMode && heapNo < l.nBits

/-- `lock_rec_add_to_queue`. -/
def lockRecAddToQueue (trx : TrxRef) : LockSys :=
  let typeMode := typeMode.forRecord heapNo
  if (s.pageLocks page).any fun l => l.wait && l.getNthBit heapNo then
    s.lockRecCreate typeMode page heapNo nHeap trx
  else if typeMode.wait then s.lockRecCreate typeMode page heapNo nHeap trx
  else
    match s.lockRecFindSimilarOnPage typeMode page heapNo trx with
    | some l => s.modifyLock l.id (·.setNthBit heapNo) fun l => l.setNthBit_id heapNo
    | none => s.lockRecCreate typeMode page heapNo nHeap trx

/-- `lock_rec_has_expl`: the transaction has a granted lock that is strong enough. -/
def lockRecHasExpl (preciseMode : TypeMode) (page : PageId) (heapNo : ℕ) (trx : TrxRef) : Bool :=
  (s.recLocks page heapNo).any fun l =>
    l.trx = trx && l.typeMode.mode.strongerOrEq preciseMode.mode && !l.wait &&
    (!l.typeMode.recNotGap || preciseMode.recNotGap || heapNo = heapNoSupremum) &&
    (!l.typeMode.gap || preciseMode.gap || heapNo = heapNoSupremum) &&
    !l.typeMode.insertIntention

/-- `lock_rec_other_has_conflicting`. -/
def lockRecOtherHasConflicting (mode : TypeMode) (page : PageId) (heapNo : ℕ) (trx : TrxRef) :
    Bool :=
  (s.recLocks page heapNo).any fun l =>
    lockRecHasToWait trx mode l (heapNo = heapNoSupremum)

/-- `lock_rec_has_to_wait_in_queue`. -/
def lockRecHasToWaitInQueue (waitLock : Lock) (page : PageId) : Bool :=
  ((s.pageLocks page).takeWhile fun l => l.id ≠ waitLock.id).any fun l =>
    (waitLock.findSetBit.any l.getNthBit) && lockHasToWait waitLock l

/-- `lock_table_has_to_wait_in_queue`. -/
def lockTableHasToWaitInQueue (waitLock : Lock) (table : TableId) : Bool :=
  ((s.tableLocks table).takeWhile fun l => l.id ≠ waitLock.id).any (lockHasToWait waitLock)

def hasToWaitInQueue (waitLock : Lock) : Bool :=
  match waitLock.member with
  | .recLock page _ _ => s.lockRecHasToWaitInQueue waitLock page
  | .tabLock table => s.lockTableHasToWaitInQueue waitLock table

/-! ## Granting -/

/-- The back pointer and the state of the transaction, as `lock_reset_lock_and_trx_wait` and
`trx_end_lock_wait` leave them. -/
def endLockWait : LockSys :=
  { s with
    waitLock := update s.waitLock trx none
    lockWait := update s.lockWait trx false }

def rememberAutoinc (l : Lock) : LockSys :=
  match l.member with
  | .tabLock table =>
    if l.typeMode.mode = .autoInc ∧ s.autoincTrx table ≠ some l.trx then
      { s with
        autoincTrx := update s.autoincTrx table (some l.trx)
        autoincLocks := update s.autoincLocks l.trx (l.id :: s.autoincLocks l.trx) }
    else s
  | .recLock _ _ _ => s

/-- `lock_grant`. -/
def lockGrant (l : Lock) : LockSys :=
  ((s.modifyLock l.id Lock.resetWait fun _ => rfl).rememberAutoinc l).endLockWait l.trx

def grantIfPossible (i : LockId) : LockSys :=
  match s.find? i with
  | some l => if l.wait && !s.hasToWaitInQueue l then s.lockGrant l else s
  | none => s

def grantWaiters (ids : List LockId) : LockSys := ids.foldl grantIfPossible s

/-! ## Release -/

/-- `lock_rec_dequeue_from_page`. -/
def lockRecDequeueFromPage (inLock : Lock) (page : PageId) : LockSys :=
  let s' := s.removeLock inLock.id
  s'.grantWaiters ((s'.pageLocks page).map Lock.id)

/-- `lock_table_remove_low`. -/
def lockTableRemoveLow (l : Lock) (table : TableId) : LockSys :=
  let s' := s.removeLock l.id
  if l.typeMode.mode = .autoInc then
    { s' with
      autoincTrx :=
        if s.autoincTrx table = some l.trx then update s.autoincTrx table none
        else s.autoincTrx
      autoincLocks :=
        if l.wait then s.autoincLocks
        else update s.autoincLocks l.trx ((s.autoincLocks l.trx).erase l.id) }
  else s'

/-- `lock_table_dequeue`: only the requests behind the lock are looked at. -/
def lockTableDequeue (inLock : Lock) (table : TableId) : LockSys :=
  (s.lockTableRemoveLow inLock table).grantWaiters
    (((s.tableLocks table).filter fun l => inLock.id < l.id).map Lock.id)

def dequeue (l : Lock) : LockSys :=
  match l.member with
  | .recLock page _ _ => s.lockRecDequeueFromPage l page
  | .tabLock table => s.lockTableDequeue l table

/-- `lock_rec_unlock`. -/
def lockRecUnlock (heapNo : ℕ) (mode : LockMode) : LockSys :=
  match (s.recLocks page heapNo).find? fun l => l.trx = trx && l.typeMode.mode = mode with
  | some l =>
    (s.modifyLock l.id (·.resetNthBit heapNo) fun l => l.resetNthBit_id heapNo).grantWaiters
      ((s.recLocks page heapNo).map Lock.id)
  | none => s

/-- The loop of `lock_release_off_kernel` while it keeps the kernel mutex. -/
def releaseLocks (trx : TrxRef) : ℕ → LockSys → LockSys
  | 0, s => s
  | count + 1, s =>
    match (s.locks.filter fun l => l.trx = trx).getLast? with
    | some l => releaseLocks trx count (s.dequeue l)
    | none => s

/-- A section of `lock_release_off_kernel`, which gives the kernel mutex away after
`LOCK_RELEASE_KERNEL_INTERVAL` locks. -/
def lockReleaseOffKernel : LockSys := releaseLocks trx 1000 s

def dequeueId (i : LockId) : LockSys :=
  match s.find? i with
  | some l => s.dequeue l
  | none => s

/-- `lock_release_autoinc_locks`. -/
def lockReleaseAutoincLocks : LockSys := (s.autoincLocks trx).foldl dequeueId s

/-- `lock_cancel_waiting_and_release`. -/
def lockCancelWaitingAndRelease (l : Lock) : LockSys :=
  match l.member with
  | .recLock page _ _ => (s.lockRecDequeueFromPage l page).endLockWait l.trx
  | .tabLock table =>
    ((s.lockReleaseAutoincLocks l.trx).lockTableDequeue l table).endLockWait l.trx

/-! ## Inheriting and moving -/

/-- `lock_rec_inherit_to_gap`.  `noGapLocks` holds of the transactions that run at READ
COMMITTED or below, and of all of them if `srv_locks_unsafe_for_binlog` is set. -/
def lockRecInheritToGap (noGapLocks : TrxRef → Bool) (heirPage page : PageId)
    (heirHeapNo heirNHeap heapNo : ℕ) : LockSys :=
  (s.recLocks page heapNo).foldl (fun s l =>
    if !l.typeMode.insertIntention && !(noGapLocks l.trx && l.typeMode.mode = .x) then
      s.lockRecAddToQueue ⟨l.typeMode.mode, false, true, false, false⟩ heirPage heirHeapNo
        heirNHeap l.trx
    else s) s

/-- One turn of the loop of `lock_rec_move`. -/
def moveLock (receiver : PageId) (receiverHeapNo receiverNHeap donatorHeapNo : ℕ)
    (l : Lock) : LockSys :=
  let s₁ := s.modifyLock l.id (·.resetNthBit donatorHeapNo) fun l => l.resetNthBit_id donatorHeapNo
  let s₂ :=
    if l.wait then
      { s₁.modifyLock l.id Lock.resetWait fun _ => rfl with
        waitLock := update s₁.waitLock l.trx none }
    else s₁
  s₂.lockRecAddToQueue l.typeMode receiver receiverHeapNo receiverNHeap l.trx

/-- `lock_rec_move`. -/
def lockRecMove (receiver donator : PageId)
    (receiverHeapNo receiverNHeap donatorHeapNo : ℕ) : LockSys :=
  (s.recLocks donator donatorHeapNo).foldl
    (fun s l => s.moveLock receiver receiverHeapNo receiverNHeap donatorHeapNo l) s

end LockSys

end MySQL.Innobase
