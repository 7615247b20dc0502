import MySQL.Mdl.Types

/-!
# One metadata lock

`MDL_ticket`, `MDL_lock::Ticket_list` and `MDL_lock`: the two queues of a lock,
the test that a request can be granted, and the pass over the waiting queue
that a releaser makes.  The wait slots of the contexts (`MDL_wait`) are passed
in and out of the functions that write them.
-/

namespace MySQL.Mdl

abbrev ContextId := ℕ
abbrev TicketId := ℕ
abbrev LockId := ℕ

/-- `MDL_ticket`.  The identifier stands for the address of the object. -/
structure MdlTicket where
  id : TicketId
  ctx : ContextId
  type : MdlType
  deriving DecidableEq, Repr

/-! ## Ticket lists -/

/-- `MDL_lock::Ticket_list`: a list of tickets with the bitmap of their types. -/
structure TicketList where
  list : List MdlTicket
  bitmap : Bitmap
  has_bitmap : ∀ t, bitmap.Has t ↔ ∃ k ∈ list, k.type = t

namespace TicketList

def empty : TicketList where
  list := []
  bitmap := 0#8
  has_bitmap := by simp

def isEmpty (l : TicketList) : Bool := l.list.isEmpty

/-- `clear_bit_if_not_in_list`. -/
def clearBitIfNotInList (list : List MdlTicket) (bitmap : Bitmap) (t : MdlType) : Bitmap :=
  if list.any (fun k => k.type = t) then bitmap else bitmap &&& ~~~mdlBit t

theorem has_clearBitIfNotInList {l m : List MdlTicket} {b : Bitmap} {t : MdlType}
    (hb : ∀ u, b.Has u ↔ ∃ k ∈ l, k.type = u) (hsub : ∀ k ∈ m, k ∈ l)
    (hrest : ∀ k ∈ l, k.type ≠ t → k ∈ m) (u : MdlType) :
    (clearBitIfNotInList m b t).Has u ↔ ∃ k ∈ m, k.type = u := by
  have hother : u ≠ t → ((∃ k ∈ l, k.type = u) ↔ ∃ k ∈ m, k.type = u) := by
    intro hut
    constructor
    · rintro ⟨k, hk, rfl⟩
      exact ⟨k, hrest k hk hut, rfl⟩
    · rintro ⟨k, hk, rfl⟩
      exact ⟨k, hsub k hk, rfl⟩
  unfold clearBitIfNotInList
  split
  next hany =>
    obtain ⟨j, hj, hjt⟩ : ∃ k ∈ m, k.type = t := by simpa using hany
    by_cases hut : u = t
    · subst hut
      exact ⟨fun _ => ⟨j, hj, hjt⟩, fun _ => (hb _).mpr ⟨j, hsub j hj, hjt⟩⟩
    · exact (hb u).trans (hother hut)
  next hnone =>
    have hnot : ∀ k ∈ m, k.type ≠ t := by simpa using hnone
    rw [Bitmap.has_and, Bitmap.has_not]
    by_cases hut : u = t
    · subst hut
      simpa using hnot
    · rw [hb u, hother hut]
      simp [Ne.symm hut]

variable (l : TicketList) (k : MdlTicket)

def addTicket : TicketList where
  list := l.list ++ [k]
  bitmap := l.bitmap ||| mdlBit k.type
  has_bitmap := by
    intro t
    rw [Bitmap.has_or, l.has_bitmap t]
    simp [or_and_right, exists_or]

def removeTicket : TicketList where
  list := l.list.filter (fun j => j ≠ k)
  bitmap := clearBitIfNotInList (l.list.filter (fun j => j ≠ k)) l.bitmap k.type
  has_bitmap := by
    refine has_clearBitIfNotInList l.has_bitmap (fun j hj => (List.mem_filter.mp hj).1) ?_
    intro j hj hne
    refine List.mem_filter.mpr ⟨hj, ?_⟩
    have : j ≠ k := fun h => hne (congrArg MdlTicket.type h)
    simpa using this

@[simp] theorem list_empty : empty.list = [] := rfl

@[simp] theorem list_addTicket :
    (l.addTicket k).list = l.list ++ [k] := rfl

@[simp] theorem list_removeTicket :
    (l.removeTicket k).list = l.list.filter (fun j => j ≠ k) := rfl

theorem removeTicket_perm {l : TicketList} {k : MdlTicket} (hl : l.list.Nodup)
    (hk : k ∈ l.list) : l.list.Perm (k :: (l.removeTicket k).list) := by
  have herase : (l.removeTicket k).list = l.list.erase k := by
    rw [hl.erase_eq_filter k]
    exact List.filter_congr fun j _ => by by_cases hj : j = k <;> simp [hj]
  rw [herase]
  exact List.perm_cons_erase hk

@[simp] theorem isEmpty_iff : l.isEmpty = true ↔ l.list = [] := by
  simp [isEmpty]

theorem bitmap_and_eq_zero_iff (b : Bitmap) :
    l.bitmap &&& b = 0#8 ↔ ∀ k ∈ l.list, ¬ b.Has k.type := by
  rw [Bitmap.and_eq_zero_iff]
  constructor
  · intro h k hk
    exact h k.type ((l.has_bitmap _).mpr ⟨k, hk, rfl⟩)
  · intro h t ht
    obtain ⟨k, hk, rfl⟩ := (l.has_bitmap t).mp ht
    exact h k hk

end TicketList

/-! ## Locks -/

/-- `MDL_lock`.  The class of the object is `kind`; the reference counts and the
version are the machine integers of the source.  `gaveWay` is a history variable
that no function reads: the value of `skip_high_priority` in the last call of
`reschedule_waiters` on this object. -/
structure MdlLock where
  key : MdlKey
  kind : LockKind
  granted : TicketList
  waiting : TicketList
  hogLockCount : BitVec 64
  refUsage : BitVec 32
  refRelease : BitVec 32
  isDestroyed : Bool
  version : BitVec 64
  gaveWay : Bool

abbrev Slots := ContextId → WaitStatus

namespace MdlLock

/-- `MDL_lock::create`. -/
def create (key : MdlKey) : MdlLock where
  key := key
  kind := .ofNamespace key.mdlNamespace
  granted := .empty
  waiting := .empty
  hogLockCount := 0#64
  refUsage := 0#32
  refRelease := 0#32
  isDestroyed := false
  version := 0#64
  gaveWay := false

def isEmpty (l : MdlLock) : Bool := l.granted.isEmpty && l.waiting.isEmpty

/-- `m_granted` gets the ticket. -/
def grant (l : MdlLock) (k : MdlTicket) : MdlLock :=
  { l with granted := l.granted.addTicket k }

/-- `m_waiting` gets the ticket. -/
def enqueue (l : MdlLock) (k : MdlTicket) : MdlLock :=
  { l with waiting := l.waiting.addTicket k }

variable (l : MdlLock) (type : MdlType) (requestor : ContextId)

def canGrantLock (ignoreLockPriority : Bool) : Bool :=
  if ignoreLockPriority ||
      l.waiting.bitmap &&& incompatibleWaitingTypesBitmap l.kind type == 0#8 then
    if l.granted.bitmap &&& incompatibleGrantedTypesBitmap l.kind type == 0#8 then true
    else
      !l.granted.list.any fun k => k.ctx ≠ requestor && decide (Incompatible l.kind type k.type)
  else false

def Blocked : Prop :=
  ∃ k ∈ l.granted.list, k.ctx ≠ requestor ∧ Incompatible l.kind type k.type

def Outranked : Prop :=
  ∃ k ∈ l.waiting.list, (incompatibleWaitingTypesBitmap l.kind type).Has k.type

theorem canGrantLock_iff (c : ContextId) (ignore : Bool) :
    l.canGrantLock type c ignore = true ↔
      (ignore = true ∨ ¬ l.Outranked type) ∧ ¬ l.Blocked type c := by
  have hpriority : (ignore ||
      l.waiting.bitmap &&& incompatibleWaitingTypesBitmap l.kind type == 0#8) = true ↔
      ignore = true ∨ ¬ l.Outranked type := by
    rw [Bool.or_eq_true, beq_iff_eq, TicketList.bitmap_and_eq_zero_iff]
    simp [Outranked]
  have hshortcut : (l.granted.bitmap &&& incompatibleGrantedTypesBitmap l.kind type == 0#8) =
      true → ¬ l.Blocked type c := by
    rw [beq_iff_eq, TicketList.bitmap_and_eq_zero_iff]
    rintro h ⟨k, hk, -, hinc⟩
    exact h k hk hinc
  have hscan : (!l.granted.list.any
      fun k => k.ctx ≠ c && decide (Incompatible l.kind type k.type)) = true ↔
      ¬ l.Blocked type c := by
    simp [Blocked]
  unfold canGrantLock
  split
  next hp =>
    split
    next hg => simp [hpriority.mp hp, hshortcut hg]
    next => simp only [hscan, hpriority.mp hp, true_and]
  next hp => simp [mt hpriority.mpr hp]

/-! ## The pass over the waiting queue -/

/-- One of the types that `hog_lock_types_bitmap` names. -/
def isHog : Bool :=
  mdlBit type &&& hogLockTypesBitmap l.kind != 0#8

def hasWeakWaiter : Bool :=
  l.waiting.bitmap &&& ~~~hogLockTypesBitmap l.kind != 0#8

def grantWaiter (k : MdlTicket) : MdlLock :=
  { l with
    waiting := l.waiting.removeTicket k
    granted := l.granted.addTicket k
    hogLockCount := if l.isHog k.type then l.hogLockCount + 1 else l.hogLockCount }

/-- The body of the loop of `reschedule_waiters`. -/
def tryGrant (skipHighPriority : Bool) (p : MdlLock × Slots) (k : MdlTicket) : MdlLock × Slots :=
  if skipHighPriority && p.1.isHog k.type then p
  else if p.1.canGrantLock k.type k.ctx skipHighPriority then
    if p.2 k.ctx = .empty then (p.1.grantWaiter k, Function.update p.2 k.ctx .granted)
    -- The waiter was killed, timed out or chosen as a victim: it stays in the queue.
    else p
  else p

def givesWay (maxWriteLockCount : BitVec 64) (l : MdlLock) : Bool :=
  maxWriteLockCount ≤ l.hogLockCount && l.hasWeakWaiter

/-- The end of `reschedule_waiters`. -/
def resetHogCount : MdlLock :=
  if l.hasWeakWaiter then l else { l with hogLockCount := 0#64 }

def rescheduleWaiters (maxWriteLockCount : BitVec 64) (l : MdlLock) (w : Slots) : MdlLock × Slots :=
  let skip := l.givesWay maxWriteLockCount
  let p := l.waiting.list.foldl (tryGrant skip) (l, w)
  ({ p.1.resetHogCount with gaveWay := skip }, p.2)

end MdlLock

end MySQL.Mdl
