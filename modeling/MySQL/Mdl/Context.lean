import MySQL.Lib.System
import MySQL.Mdl.Map

/-!
# Contexts and the atomic sections of the lock manager

A context (`MDL_context`) is one connection.  It holds lists of tickets by duration,
a wait slot, and a place in the call that it is executing.  One step of the system is
one hold of `MDL_lock::m_rwlock` together with the work of the same thread on its own
context around it, or one write of a wait slot.
-/

namespace MySQL.Mdl

open Function

/-- `MDL_request`, without the ticket that a call returns in it. -/
structure MdlRequest where
  key : MdlKey
  type : MdlType
  duration : MdlDuration
  deriving DecidableEq, Repr

/-- A pointer to a ticket, with its `m_lock`. -/
structure TicketRef where
  ticket : TicketId
  lock : LockId
  deriving DecidableEq, Repr

/-- `MDL_savepoint`: the first tickets of the two lists. -/
structure MdlSavepoint where
  stmtTicket : Option TicketRef
  transTicket : Option TicketRef
  deriving DecidableEq, Repr

/-- Who called `acquire_lock`: the statement itself, or
`upgrade_shared_lock_to_exclusive` for the given ticket. -/
inductive Caller where
  | statement
  | upgrade (ticket : TicketRef) (savepoint : MdlSavepoint)
  deriving DecidableEq, Repr

/-- Where the thread of a context is between two steps. -/
inductive Place where
  | idle
  /-- In `acquire_lock`, with the ticket in a queue. -/
  | waiting (request : MdlRequest) (ticket : TicketRef) (caller : Caller)
  /-- In `upgrade_shared_lock_to_exclusive`, before the two tickets are merged. -/
  | merging (ticket : TicketRef) (savepoint : MdlSavepoint) (xlock : TicketRef)
  deriving DecidableEq, Repr

/-- Server variables. -/
structure Config where
  maxWriteLockCount : BitVec 64
  mdlLocksCacheSize : ℕ

structure State where
  map : MdlMap
  /-- `m_tickets`. -/
  tickets : ContextId → MdlDuration → List TicketRef
  place : ContextId → Place
  /-- `m_wait`. -/
  slots : Slots
  nextTicket : TicketId

namespace State

def init : State where
  map := .init
  tickets _ _ := []
  place _ := .idle
  slots _ := .empty
  nextTicket := 0

def lock (s : State) (i : LockId) : MdlLock := s.map.heap i

def setLock (s : State) (i : LockId) (l : MdlLock) : State :=
  { s with map := s.map.setLock i l }

variable (s : State) (c : ContextId)

def setPlace (p : Place) : State :=
  { s with place := update s.place c p }

def setTickets (d : MdlDuration) (refs : List TicketRef) : State :=
  { s with tickets := update s.tickets c (update (s.tickets c) d refs) }

def Owned (ref : TicketRef) : Prop :=
  ref ∈ s.tickets c .statement ∨ ref ∈ s.tickets c .transaction ∨ ref ∈ s.tickets c .explicit

instance (s : State) (c : ContextId) (ref : TicketRef) : Decidable (s.Owned c ref) :=
  inferInstanceAs (Decidable (_ ∨ _ ∨ _))

def ticket? (s : State) (ref : TicketRef) : Option MdlTicket :=
  (s.lock ref.lock).granted.list.find? fun k => k.id = ref.ticket

/-! ## Finding and granting -/

/-- The durations from the given one on, modulo `MDL_DURATION_END`. -/
def durationsFrom : MdlDuration → List MdlDuration
  | .statement => [.statement, .transaction, .explicit]
  | .transaction => [.transaction, .explicit, .statement]
  | .explicit => [.explicit, .statement, .transaction]

def serves (s : State) (req : MdlRequest) (ref : TicketRef) : Bool :=
  match s.ticket? ref with
  | some k =>
    (s.lock ref.lock).key = req.key &&
      hasStrongerOrEqualType (s.lock ref.lock).kind k.type req.type
  | none => false

variable (req : MdlRequest)

def findTicket : Option (TicketRef × MdlDuration) :=
  (durationsFrom req.duration).findSome? fun d =>
    ((s.tickets c d).find? (s.serves req)).map fun ref => (ref, d)

def grantNew (d : MdlDuration) (i : LockId) (type : MdlType) : State :=
  { s.setLock i ((s.lock i).grant ⟨s.nextTicket, c, type⟩) with
    nextTicket := s.nextTicket + 1 }.setTickets c d (⟨s.nextTicket, i⟩ :: s.tickets c d)

def enqueueNew (i : LockId) (caller : Caller) : State :=
  { s.setLock i ((s.lock i).enqueue ⟨s.nextTicket, c, req.type⟩) with
    nextTicket := s.nextTicket + 1
    slots := update s.slots c .empty }.setPlace c
      (.waiting req ⟨s.nextTicket, i⟩ caller)

/-- How `try_acquire_lock_impl` ends. -/
inductive Outcome where
  | outOfMemory (s : State)
  | acquired (ref : TicketRef) (s : State)
  /-- The lock that was not granted. -/
  | conflict (i : LockId) (s : State)

/-- The state in which `try_acquire_lock_impl` leaves the locks. -/
def Outcome.state : Outcome → State
  | .outOfMemory s => s
  | .acquired _ s => s
  | .conflict _ s => s

def tryAcquireLockImpl (oom : OutOfMemory) : Outcome :=
  match s.findTicket c req with
  | some (ref, found) =>
    if found ≠ req.duration || req.duration = .explicit then
      .acquired ⟨s.nextTicket, ref.lock⟩ (s.grantNew c req.duration ref.lock req.type)
    else .acquired ref s
  | none =>
    match s.map.findOrInsert req.key oom with
    | (none, m) => .outOfMemory { s with map := m }
    | (some i, m) =>
      if (m.heap i).canGrantLock req.type c false then
        .acquired ⟨s.nextTicket, i⟩ ({ s with map := m }.grantNew c req.duration i req.type)
      else .conflict i { s with map := m }

/-- The thread goes on after `acquire_lock` has returned a ticket. -/
def acquired (ref : TicketRef) : Caller → State
  | .statement => s.setPlace c .idle
  | .upgrade t savepoint => s.setPlace c (.merging t savepoint ref)

/-- `acquire_lock`, up to the wait. -/
def acquireLock (oom : OutOfMemory) (caller : Caller) : State :=
  match s.tryAcquireLockImpl c req oom with
  | .outOfMemory s' => s'
  | .acquired ref s' => s'.acquired c ref caller
  | .conflict i s' => s'.enqueueNew c req i caller

def tryAcquireLock (oom : OutOfMemory) : State :=
  (s.tryAcquireLockImpl c req oom).state

/-! ## Releasing -/

def rescheduleWaiters (cfg : Config) (s : State) (i : LockId) : State :=
  { s.setLock i ((s.lock i).rescheduleWaiters cfg.maxWriteLockCount s.slots).1 with
    slots := ((s.lock i).rescheduleWaiters cfg.maxWriteLockCount s.slots).2 }

/-- The end of `MDL_lock::remove_ticket`, once the ticket is out of its queue. -/
def ticketRemoved (cfg : Config) (s : State) (i : LockId) : State :=
  if (s.lock i).isEmpty then { s with map := s.map.removeLock cfg.mdlLocksCacheSize i }
  else s.rescheduleWaiters cfg i

/-- `m_granted.remove_ticket` and the removal from the context's list. -/
def dropGranted (d : MdlDuration) (ref : TicketRef) (i : LockId) (k : MdlTicket) : State :=
  (s.setLock i { s.lock i with granted := (s.lock i).granted.removeTicket k }).setTickets
    c d ((s.tickets c d).erase ref)

def retype (i : LockId) (k : MdlTicket) (type : MdlType) : State :=
  s.setLock i { s.lock i with
    granted := ((s.lock i).granted.removeTicket k).addTicket { k with type := type } }

def releaseLock (cfg : Config) (s : State) (c : ContextId) (d : MdlDuration) (ref : TicketRef) :
    Option State := do
  let k ← s.ticket? ref
  return (s.dropGranted c d ref ref.lock k).ticketRemoved cfg ref.lock

/-- The end of `acquire_lock` when the wait was not successful. -/
def abortWait (cfg : Config) (s : State) (c : ContextId) (ref : TicketRef) (type : MdlType) :
    State :=
  ((s.setLock ref.lock { s.lock ref.lock with
      waiting := (s.lock ref.lock).waiting.removeTicket ⟨ref.ticket, c, type⟩ }).ticketRemoved
    cfg ref.lock).setPlace c .idle

/-! ## Changing the type of a granted ticket -/

def mdlSavepoint : MdlSavepoint :=
  ⟨(s.tickets c .statement).head?, (s.tickets c .transaction).head?⟩

def hasLock (savepoint : MdlSavepoint) (ref : TicketRef) : Bool :=
  !((s.tickets c .statement).takeWhile (fun r => some r ≠ savepoint.stmtTicket)).contains ref &&
    !((s.tickets c .transaction).takeWhile (fun r => some r ≠ savepoint.transTicket)).contains ref

/-- `upgrade_shared_lock_to_exclusive`, up to the call of `acquire_lock`. -/
def upgradeSharedLockToExclusive (ref : TicketRef) (oom : OutOfMemory) : Option State := do
  let k ← s.ticket? ref
  if k.type = .exclusive then return s
  return s.acquireLock c ⟨(s.lock ref.lock).key, .exclusive, .transaction⟩ oom
    (.upgrade ref (s.mdlSavepoint c))

def mergeTickets (ref : TicketRef) (savepoint : MdlSavepoint) (xlock : TicketRef) :
    Option State := do
  let k ← s.ticket? ref
  if s.hasLock c savepoint xlock then
    return (s.retype ref.lock k .exclusive).setPlace c .idle
  let x ← s.ticket? xlock
  return ((s.dropGranted c .transaction xlock ref.lock x).retype ref.lock k
    .exclusive).setPlace c .idle

def downgradeExclusiveLock (cfg : Config) (s : State) (ref : TicketRef) (type : MdlType) :
    Option State := do
  let k ← s.ticket? ref
  if k.type ≠ .exclusive then return s
  return (s.retype ref.lock k type).rescheduleWaiters cfg ref.lock

/-! ## The wait slot -/

/-- `MDL_wait::set_status`: only an empty slot is written. -/
def setStatus (status : WaitStatus) : State :=
  if s.slots c = .empty then { s with slots := update s.slots c status } else s

/-- The thread finds its slot written and leaves `MDL_wait::timed_wait`. -/
def finishWait (cfg : Config) (s : State) (c : ContextId) : Option State :=
  match s.place c with
  | .waiting req ref caller =>
    match s.slots c with
    | .empty => none
    | .granted =>
      some ((s.setTickets c req.duration (ref :: s.tickets c req.duration)).acquired
        c ref caller)
    | _ => some (s.abortWait cfg c ref req.type)
  | _ => none

end State

/-- The steps of the connections. -/
inductive Act where
  | tryAcquireLock (c : ContextId) (req : MdlRequest) (oom : OutOfMemory)
  | acquireLock (c : ContextId) (req : MdlRequest) (oom : OutOfMemory)
  | cloneTicket (c : ContextId) (ref : TicketRef) (type : MdlType) (d : MdlDuration)
  | upgrade (c : ContextId) (ref : TicketRef) (oom : OutOfMemory)
  | merge (c : ContextId)
  | downgrade (c : ContextId) (ref : TicketRef) (type : MdlType)
  | releaseLock (c : ContextId) (d : MdlDuration) (ref : TicketRef)
  /-- A timeout, a kill, or the choice as a victim of a deadlock. -/
  | setStatus (c : ContextId) (status : WaitStatus)
  | finishWait (c : ContextId)
  deriving DecidableEq, Repr

open State in
def step (cfg : Config) (s : State) : Act → Option State
  | .tryAcquireLock c req oom =>
    if s.place c = .idle then some (s.tryAcquireLock c req oom) else none
  | .acquireLock c req oom =>
    if s.place c = .idle then some (s.acquireLock c req oom .statement) else none
  | .cloneTicket c ref type d =>
    match s.ticket? ref with
    | some k =>
      -- `clone()` is not supposed to be used to get a stronger lock.
      if s.place c = .idle ∧ s.Owned c ref ∧
          hasStrongerOrEqualType (s.lock ref.lock).kind k.type type then
        some (s.grantNew c d ref.lock type)
      else none
    | none => none
  | .upgrade c ref oom =>
    if s.place c = .idle ∧ s.Owned c ref then s.upgradeSharedLockToExclusive c ref oom
    else none
  | .merge c =>
    match s.place c with
    | .merging ref savepoint xlock => s.mergeTickets c ref savepoint xlock
    | _ => none
  | .downgrade c ref type =>
    if s.place c = .idle ∧ s.Owned c ref then s.downgradeExclusiveLock cfg ref type else none
  | .releaseLock c d ref =>
    if s.place c = .idle ∧ ref ∈ s.tickets c d then s.releaseLock cfg c d ref else none
  | .setStatus c status =>
    if status = .victim ∨ status = .timeout ∨ status = .killed then some (s.setStatus c status)
    else none
  | .finishWait c => s.finishWait cfg c

theorem step_cases {cfg : Config} {s s' : State} {a : Act} {P : State → Prop}
    (hs : step cfg s a = some s')
    (tryAcquireLock : ∀ c req oom, s.place c = .idle → P (s.tryAcquireLock c req oom))
    (acquireLock : ∀ c req oom, s.place c = .idle → P (s.acquireLock c req oom .statement))
    (cloneTicket : ∀ c ref type d k, s.place c = .idle → s.Owned c ref → s.ticket? ref = some k →
      hasStrongerOrEqualType (s.lock ref.lock).kind k.type type = true →
      P (s.grantNew c d ref.lock type)) (upgrade : ∀ c ref oom, s.place c = .idle → s.Owned c ref →
      s.upgradeSharedLockToExclusive c ref oom = some s' → P s')
    (merge : ∀ c ref savepoint xlock, s.place c = .merging ref savepoint xlock →
      s.mergeTickets c ref savepoint xlock = some s' → P s')
    (downgrade : ∀ c ref type, s.place c = .idle → s.Owned c ref →
      s.downgradeExclusiveLock cfg ref type = some s' → P s')
    (releaseLock : ∀ c d ref, s.place c = .idle → ref ∈ s.tickets c d →
      s.releaseLock cfg c d ref = some s' → P s')
    (setStatus : ∀ c status, status ≠ .empty → status ≠ .granted → P (s.setStatus c status))
    (finishWait : ∀ c, s.finishWait cfg c = some s' → P s') : P s' := by
  cases a with
  | tryAcquireLock c req oom =>
    obtain ⟨hc, hs⟩ := Option.ite_none_right_eq_some.mp hs
    exact Option.some.inj hs ▸ tryAcquireLock c req oom hc
  | acquireLock c req oom =>
    obtain ⟨hc, hs⟩ := Option.ite_none_right_eq_some.mp hs
    exact Option.some.inj hs ▸ acquireLock c req oom hc
  | cloneTicket c ref type d =>
    simp only [step] at hs
    split at hs
    next k hk =>
      obtain ⟨⟨hc, href, hstrong⟩, hs⟩ := Option.ite_none_right_eq_some.mp hs
      exact Option.some.inj hs ▸ cloneTicket c ref type d k hc href hk hstrong
    next => cases hs
  | upgrade c ref oom =>
    obtain ⟨⟨hc, href⟩, hs⟩ := Option.ite_none_right_eq_some.mp hs
    exact upgrade c ref oom hc href hs
  | merge c =>
    simp only [step] at hs
    split at hs
    next t savepoint x hp => exact merge c t savepoint x hp hs
    next => cases hs
  | downgrade c ref type =>
    obtain ⟨⟨hc, href⟩, hs⟩ := Option.ite_none_right_eq_some.mp hs
    exact downgrade c ref type hc href hs
  | releaseLock c d ref =>
    obtain ⟨⟨hc, href⟩, hs⟩ := Option.ite_none_right_eq_some.mp hs
    exact releaseLock c d ref hc href hs
  | setStatus c status =>
    obtain ⟨hstatus, hs⟩ := Option.ite_none_right_eq_some.mp hs
    refine Option.some.inj hs ▸ setStatus c status ?_ ?_
    · rcases hstatus with rfl | rfl | rfl <;> decide
    · rcases hstatus with rfl | rfl | rfl <;> decide
  | finishWait c => exact finishWait c hs

def mdl (cfg : Config) : Lib.System State Act where
  init s := s = State.init
  step := step cfg

end MySQL.Mdl
