import MySQL.Lib.System
import MySQL.Mdl.Map

/-!
# Threads in the lock map

`find_or_insert` drops `MDL_map::m_mutex` before it takes `MDL_lock::m_rwlock`, so other
threads come between its two sections.  Here every section is a step of its own, and so is
the call of `MDL_lock::destroy` that a thread makes after it has left its last section.
What the users of the map do with a lock under its `m_rwlock` is left open: they write any
queues, but a thread that was given the lock leaves a ticket in it, and only a thread with
a ticket in a lock comes back to it.
-/

namespace MySQL.Mdl

namespace Protocol

abbrev ThreadId := ℕ

/-- Where a thread is between two steps. -/
inductive Place where
  | idle
  /-- Before the first section of `find_or_insert`, also on a retry. -/
  | searching (key : MdlKey)
  /-- In `move_from_hash_to_lock_mutex`, without a mutex; the version was read before. -/
  | found (key : MdlKey) (lock : LockId) (version : BitVec 64)
  /-- About to call `MDL_lock::destroy`, and then to retry the search if there is a key. -/
  | destroying (lock : LockId) (retry : Option MdlKey)
  deriving DecidableEq, Repr

structure State where
  map : MdlMap
  place : ThreadId → Place

namespace State

def init : State where
  map := .init
  place _ := .idle

def lock (s : State) (i : LockId) : MdlLock := s.map.heap i

def setPlace (s : State) (t : ThreadId) (p : Place) : State :=
  { s with place := Function.update s.place t p }

/-- What a user of the lock does under `m_rwlock`. -/
def setQueues (m : MdlMap) (i : LockId) (granted waiting : TicketList) : MdlMap :=
  m.setLock i { m.heap i with granted := granted, waiting := waiting }

/-- The section under `m_mutex`. -/
def lookup (s : State) (t : ThreadId) (key : MdlKey) (oom : OutOfMemory) : State :=
  match s.map.lookup key oom with
  | (none, m) => { s with map := m }.setPlace t .idle
  | (some i, m) =>
    { s with map := m.takeReference i }.setPlace t (.found key i (m.heap i).version)

/-- The section under `m_rwlock`; a caller that gets the lock writes the queues. -/
def move (s : State) (t : ThreadId) (key : MdlKey) (i : LockId) (version : BitVec 64)
    (granted waiting : TicketList) : State :=
  match s.map.dropReference i version with
  | (.locked, m) => { s with map := setQueues m i granted waiting }.setPlace t .idle
  | (.retry, m) => { s with map := m }.setPlace t (.searching key)
  | (.destroyAndRetry, m) => { s with map := m }.setPlace t (.destroying i (some key))

/-- A later section on the lock; when it takes out the last ticket it calls `remove`. -/
def use (cacheSize : ℕ) (s : State) (t : ThreadId) (i : LockId) (granted waiting : TicketList) :
    State :=
  let m := setQueues s.map i granted waiting
  if (m.heap i).isEmpty then
    match m.remove cacheSize i with
    | (true, m) => { s with map := m }.setPlace t (.destroying i none)
    | (false, m) => { s with map := m }
  else { s with map := m }

/-- `MDL_lock::destroy`. -/
def destroy (s : State) (t : ThreadId) (i : LockId) : Option MdlKey → State
  | some key => { s with map := s.map.destroy i }.setPlace t (.searching key)
  | none => { s with map := s.map.destroy i }.setPlace t .idle

end State

inductive Act where
  | findOrInsert (t : ThreadId) (key : MdlKey)
  | lookup (t : ThreadId) (oom : OutOfMemory)
  | move (t : ThreadId) (granted waiting : TicketList)
  | lockPreallocated (t : ThreadId) (key : MdlKey) (granted waiting : TicketList)
  | use (t : ThreadId) (i : LockId) (granted waiting : TicketList)
  | destroy (t : ThreadId)

def Act.thread : Act → ThreadId
  | .findOrInsert t _ => t
  | .lookup t _ => t
  | .move t _ _ => t
  | .lockPreallocated t _ _ _ => t
  | .use t _ _ _ => t
  | .destroy t => t

def HasTicket (l : MdlLock) (t : ThreadId) : Prop := ∃ k ∈ l.tickets, k.ctx = t

instance (l : MdlLock) (t : ThreadId) : Decidable (HasTicket l t) :=
  inferInstanceAs (Decidable (∃ k ∈ l.tickets, k.ctx = t))

def step (cacheSize : ℕ) (s : State) : Act → Option State
  | .findOrInsert t key =>
    if s.place t = .idle ∧ MdlMap.preallocated? key = none then
      some (s.setPlace t (.searching key))
    else none
  | .lookup t oom =>
    match s.place t with
    | .searching key => some (s.lookup t key oom)
    | _ => none
  | .move t granted waiting =>
    match s.place t with
    | .found key i version =>
      if granted.list ++ waiting.list ≠ [] then
        some (s.move t key i version granted waiting)
      else none
    | _ => none
  | .lockPreallocated t key granted waiting =>
    match MdlMap.preallocated? key with
    | some i =>
      -- These keys have no names: the source asserts that their length is 3.
      if s.place t = .idle ∧ key.dbName = "" ∧ key.name = "" ∧
          granted.list ++ waiting.list ≠ [] then
        some { s with map := State.setQueues s.map i granted waiting }
      else none
    | none => none
  | .use t i granted waiting =>
    if s.place t = .idle ∧ HasTicket (s.lock i) t then
      some (s.use cacheSize t i granted waiting)
    else none
  | .destroy t =>
    match s.place t with
    | .destroying i retry => some (s.destroy t i retry)
    | _ => none

def lockMap (cacheSize : ℕ) : Lib.System State Act where
  init s := s = State.init
  step := step cacheSize

end Protocol

end MySQL.Mdl
