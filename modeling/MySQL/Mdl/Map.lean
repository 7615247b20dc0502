import MySQL.Mdl.Reschedule

/-!
# The map of metadata locks

`MDL_map`: the hash of the locks in use, the cache of unused lock objects and the
two preallocated locks.  Each function below is the body of one section that the
source runs under `MDL_map::m_mutex`, under `MDL_lock::m_rwlock`, or under both.
Objects are named by identifiers into a heap and are never taken out of it, so
that a use after `MDL_lock::destroy` can be stated.
-/

namespace MySQL.Mdl

open List

/-- Which allocation fails in a call of `find_or_insert`. -/
structure OutOfMemory where
  create : Bool
  insert : Bool
  deriving DecidableEq, Repr

/-- `MDL_map`, with the lock objects themselves. -/
structure MdlMap where
  heap : LockId → MdlLock
  nextLock : LockId
  /-- `m_locks`. -/
  locks : List LockId
  unusedLocksCache : List LockId
  /-- How often `MDL_lock::destroy` was called for the object. -/
  destroyCount : LockId → ℕ

namespace MdlMap

/-- `m_global_lock`. -/
def globalLock : LockId := 0

/-- `m_commit_lock`. -/
def commitLock : LockId := 1

def globalLockKey : MdlKey := ⟨.global, "", ""⟩
def commitLockKey : MdlKey := ⟨.commit, "", ""⟩

/-- `MDL_map::init`. -/
def init : MdlMap where
  heap i := .create (if i = globalLock then globalLockKey else commitLockKey)
  nextLock := 2
  locks := []
  unusedLocksCache := []
  destroyCount _ := 0

def preallocated? (key : MdlKey) : Option LockId :=
  match key.mdlNamespace with
  | .global => some globalLock
  | .commit => some commitLock
  | _ => none

variable (m : MdlMap) (i : LockId)

def setLock (l : MdlLock) : MdlMap :=
  { m with heap := Function.update m.heap i l }

/-- `MDL_lock::destroy`. -/
def destroy : MdlMap :=
  { m with destroyCount := Function.update m.destroyCount i (m.destroyCount i + 1) }

/-- `my_hash_search_using_hash_value`. -/
def search (key : MdlKey) : Option LockId :=
  m.locks.find? fun i => (m.heap i).key = key

/-- `MDL_object_lock::reset`. -/
def reset (key : MdlKey) : MdlMap :=
  m.setLock i { m.heap i with key := key }

variable (key : MdlKey) (oom : OutOfMemory)

/-- The branch of `find_or_insert` that takes an object from the cache. -/
def reuse (i : LockId) (rest : List LockId) : Option LockId × MdlMap :=
  -- The object may still be referenced: after a failure it goes back to the cache.
  if oom.insert then (none, m.reset i key)
  else (some i, { m.reset i key with unusedLocksCache := rest, locks := i :: m.locks })

/-- The branch of `find_or_insert` that makes a new object. -/
def insertNew : Option LockId × MdlMap :=
  let i := m.nextLock
  let m' := { m.setLock i (.create key) with nextLock := i + 1 }
  if oom.create then (none, m)
  else if oom.insert then (none, m'.destroy i)
  else (some i, { m' with locks := i :: m.locks })

/-- The section of `find_or_insert` under `m_mutex`, up to the call of
`move_from_hash_to_lock_mutex`. -/
def lookup : Option LockId × MdlMap :=
  match m.search key with
  | some i => (some i, m)
  | none =>
    match m.unusedLocksCache with
    | i :: rest =>
      if key.mdlNamespace ≠ .schema then m.reuse key oom i rest else m.insertNew key oom
    | [] => m.insertNew key oom

/-- The part of `move_from_hash_to_lock_mutex` under `m_mutex`.  The version that it
reads is the one of the object now. -/
def takeReference (i : LockId) : MdlMap :=
  m.setLock i { m.heap i with refUsage := (m.heap i).refUsage + 1 }

/-- How `move_from_hash_to_lock_mutex` ends. -/
inductive MoveResult where
  | locked
  | retry
  | destroyAndRetry
  deriving DecidableEq, Repr

/-- The part of `move_from_hash_to_lock_mutex` under `MDL_lock::m_rwlock`. -/
def dropReference (i : LockId) (version : BitVec 64) : MoveResult × MdlMap :=
  let l := { m.heap i with refRelease := (m.heap i).refRelease + 1 }
  (if l.version = version then .locked
    else if l.isDestroyed && l.refUsage == l.refRelease then .destroyAndRetry
    else .retry, m.setLock i l)

/-- `MDL_map::remove`; the flag says that the caller has to destroy the object. -/
def remove (mdlLocksCacheSize : ℕ) (m : MdlMap) (i : LockId) : Bool × MdlMap :=
  let l := m.heap i
  if (preallocated? l.key).isSome then (false, m)
  else if l.key.mdlNamespace ≠ .schema && m.unusedLocksCache.length < mdlLocksCacheSize then
    (false,
      { m.setLock i { l with version := l.version + 1 } with
        locks := m.locks.erase i
        unusedLocksCache := i :: m.unusedLocksCache })
  else
    (l.refUsage == l.refRelease,
      { m.setLock i { l with version := l.version + 1, isDestroyed := true } with
        locks := m.locks.erase i })

/-- `find_or_insert` when no other thread comes between its two sections: the version has
not changed, so there is no retry. -/
def findOrInsert : Option LockId × MdlMap :=
  match preallocated? key with
  | some i => (some i, m)
  | none =>
    match m.lookup key oom with
    | (none, m') => (none, m')
    | (some i, m') => (some i, ((m'.takeReference i).dropReference i (m'.heap i).version).2)

/-- `remove` with the destruction of the object that may follow it. -/
def removeLock (mdlLocksCacheSize : ℕ) (m : MdlMap) (i : LockId) : MdlMap :=
  match m.remove mdlLocksCacheSize i with
  | (true, m') => m'.destroy i
  | (false, m') => m'

/-! ## What stays true of the map -/

/-- The structure of the map, apart from the reference counts. -/
structure Sound (m : MdlMap) : Prop where
  locks_nodup : m.locks.Nodup
  unused_nodup : m.unusedLocksCache.Nodup
  disjoint : ∀ i ∈ m.locks, i ∉ m.unusedLocksCache
  key_inj : ∀ i ∈ m.locks, ∀ j ∈ m.locks, (m.heap i).key = (m.heap j).key → i = j
  lt_next : ∀ i, i ∈ m.locks ∨ i ∈ m.unusedLocksCache → 2 ≤ i ∧ i < m.nextLock
  two_le_next : 2 ≤ m.nextLock
  alive : ∀ i, i ∈ m.locks ∨ i ∈ m.unusedLocksCache → (m.heap i).isDestroyed = false
  locks_key : ∀ i ∈ m.locks, preallocated? (m.heap i).key = none
  locks_kind : ∀ i ∈ m.locks, (m.heap i).kind = .ofNamespace (m.heap i).key.mdlNamespace
  unused_kind : ∀ i ∈ m.unusedLocksCache, (m.heap i).kind = .object
  global_key : (m.heap globalLock).key = globalLockKey
  commit_key : (m.heap commitLock).key = commitLockKey
  preallocated_alive : ∀ i < 2, (m.heap i).isDestroyed = false
  preallocated_kind : ∀ i < 2, (m.heap i).kind = .ofNamespace (m.heap i).key.mdlNamespace
  /-- Only locks that can be found have tickets. -/
  nonempty : ∀ i, (m.heap i).isEmpty = false → i ∈ m.locks ∨ i < 2

/-- The lock that `find_or_insert` has to return for the key. -/
def Holds (m : MdlMap) (i : LockId) (key : MdlKey) : Prop :=
  match preallocated? key with
  | some j => i = j
  | none => i ∈ m.locks ∧ (m.heap i).key = key

/-- The tickets are left alone, and so is what the owner of a ticket can see. -/
structure Frame (m m' : MdlMap) : Prop where
  granted : ∀ i, (m'.heap i).granted.list = (m.heap i).granted.list
  waiting : ∀ i, (m'.heap i).waiting.list = (m.heap i).waiting.list
  key : ∀ i, (m.heap i).isEmpty = false → (m'.heap i).key = (m.heap i).key
  kind : ∀ i, (m.heap i).isEmpty = false → (m'.heap i).kind = (m.heap i).kind
  gaveWay : ∀ i, (m.heap i).isEmpty = false → (m'.heap i).gaveWay = (m.heap i).gaveWay

variable {m m' : MdlMap} {l : MdlLock} {i : LockId} {key : MdlKey} {oom : OutOfMemory}

theorem isEmpty_iff : l.isEmpty = true ↔ l.granted.list = [] ∧ l.waiting.list = [] := by
  simp [MdlLock.isEmpty]

theorem isEmpty_eq_false {k : MdlTicket} (hk : k ∈ l.tickets) : l.isEmpty = false := by
  rw [← Bool.not_eq_true, isEmpty_iff]
  rintro ⟨hg, hw⟩
  rw [MdlLock.tickets, hg, hw] at hk
  cases hk

theorem isEmpty_congr {l' : MdlLock} (hg : l'.granted.list = l.granted.list)
    (hw : l'.waiting.list = l.waiting.list) : l'.isEmpty = l.isEmpty := by
  rw [Bool.eq_iff_iff, isEmpty_iff, isEmpty_iff, hg, hw]

namespace Frame

theorem refl (m : MdlMap) : Frame m m :=
  ⟨fun _ => rfl, fun _ => rfl, fun _ _ => rfl, fun _ _ => rfl, fun _ _ => rfl⟩

theorem isEmpty (h : Frame m m') (i : LockId) : (m'.heap i).isEmpty = (m.heap i).isEmpty :=
  isEmpty_congr (h.granted i) (h.waiting i)

theorem trans {m'' : MdlMap} (h : Frame m m') (h' : Frame m' m'') : Frame m m'' where
  granted i := (h'.granted i).trans (h.granted i)
  waiting i := (h'.waiting i).trans (h.waiting i)
  key i hi := (h'.key i (by rwa [h.isEmpty])).trans (h.key i hi)
  kind i hi := (h'.kind i (by rwa [h.isEmpty])).trans (h.kind i hi)
  gaveWay i hi := (h'.gaveWay i (by rwa [h.isEmpty])).trans (h.gaveWay i hi)

theorem of_heap_eq {m'' : MdlMap} (h : Frame m m') (heq : m''.heap = m'.heap) : Frame m m'' where
  granted i := by rw [heq, h.granted]
  waiting i := by rw [heq, h.waiting]
  key i hi := by rw [heq, h.key i hi]
  kind i hi := by rw [heq, h.kind i hi]
  gaveWay i hi := by rw [heq, h.gaveWay i hi]

end Frame

section

variable (m : MdlMap) (i : LockId) (l : MdlLock)

@[simp] theorem locks_setLock :
    (m.setLock i l).locks = m.locks := rfl

@[simp] theorem unusedLocksCache_setLock :
    (m.setLock i l).unusedLocksCache = m.unusedLocksCache := rfl

@[simp] theorem heap_setLock_self : (m.setLock i l).heap i = l := by
  simp [setLock]

end

theorem heap_setLock_of_ne {j : LockId} (h : j ≠ i) (m : MdlMap) (l : MdlLock) :
    (m.setLock i l).heap j = m.heap j := by
  simp [setLock, h]

theorem setLock_induction {P : LockId → MdlLock → Prop} (hi : P i l) (hother : ∀ j, P j (m.heap j))
    (j : LockId) : P j ((m.setLock i l).heap j) := by
  by_cases hj : j = i
  · subst hj
    simpa using hi
  · rw [heap_setLock_of_ne hj]
    exact hother j

/-- A field that a change of one lock leaves as it is, is the same for all locks. -/
theorem setLock_same {β : Type*} (f : MdlLock → β) (hi : f l = f (m.heap i)) :
    ∀ j, f ((m.setLock i l).heap j) = f (m.heap j) :=
  setLock_induction (P := fun j l => f l = f (m.heap j)) hi fun _ => rfl

theorem setLock_frame (hg : l.granted.list = (m.heap i).granted.list)
    (hw : l.waiting.list = (m.heap i).waiting.list) (hrest : (m.heap i).isEmpty = false →
      l.key = (m.heap i).key ∧ l.kind = (m.heap i).kind ∧ l.gaveWay = (m.heap i).gaveWay) :
    Frame m (m.setLock i l) where
  granted := setLock_same (·.granted.list) hg
  waiting := setLock_same (·.waiting.list) hw
  key := setLock_induction (P := fun j l => (m.heap j).isEmpty = false → l.key = (m.heap j).key)
    (fun h => (hrest h).1) fun _ _ => rfl
  kind := setLock_induction
    (P := fun j l => (m.heap j).isEmpty = false → l.kind = (m.heap j).kind)
    (fun h => (hrest h).2.1) fun _ _ => rfl
  gaveWay := setLock_induction
    (P := fun j l => (m.heap j).isEmpty = false → l.gaveWay = (m.heap j).gaveWay)
    (fun h => (hrest h).2.2) fun _ _ => rfl

namespace Sound

theorem setLock (h : Sound m) (hkey : l.key = (m.heap i).key) (hkind : l.kind = (m.heap i).kind)
    (hmark : l.isDestroyed = (m.heap i).isDestroyed)
    (hne : l.isEmpty = false → i ∈ m.locks ∨ i < 2) : Sound (m.setLock i l) := by
  have hkeys := setLock_same MdlLock.key hkey
  have hkinds := setLock_same MdlLock.kind hkind
  have hmarks := setLock_same MdlLock.isDestroyed hmark
  exact
    { h with
      key_inj := by simpa [hkeys] using h.key_inj
      alive := by simpa [hmarks] using h.alive
      locks_key := by simpa [hkeys] using h.locks_key
      locks_kind := by simpa [hkeys, hkinds] using h.locks_kind
      unused_kind := by simpa [hkinds] using h.unused_kind
      global_key := by simpa only [hkeys] using h.global_key
      commit_key := by simpa only [hkeys] using h.commit_key
      preallocated_alive := by simpa only [hmarks] using h.preallocated_alive
      preallocated_kind := by simpa only [hkeys, hkinds] using h.preallocated_kind
      nonempty := setLock_induction
        (P := fun j l => l.isEmpty = false → j ∈ m.locks ∨ j < 2) hne h.nonempty }

theorem init : Sound MdlMap.init where
  locks_nodup := .nil
  unused_nodup := .nil
  disjoint := by simp [MdlMap.init]
  key_inj := by simp [MdlMap.init]
  lt_next := by simp [MdlMap.init]
  two_le_next := le_rfl
  alive := by simp [MdlMap.init]
  locks_key := by simp [MdlMap.init]
  locks_kind := by simp [MdlMap.init]
  unused_kind := by simp [MdlMap.init]
  global_key := rfl
  commit_key := rfl
  preallocated_alive _ _ := rfl
  preallocated_kind _ _ := rfl
  nonempty := by simp [MdlMap.init, MdlLock.create, MdlLock.isEmpty, TicketList.isEmpty]

theorem destroy (h : Sound m) (i : LockId) : Sound (m.destroy i) :=
  ⟨h.1, h.2, h.3, h.4, h.5, h.6, h.7, h.8, h.9, h.10, h.11, h.12, h.13, h.14, h.15⟩

theorem isEmpty_of_unused (h : Sound m) (hi : i ∈ m.unusedLocksCache) :
    (m.heap i).isEmpty = true := by
  by_contra hne
  rcases h.nonempty i (by simpa using hne) with hl | hlt
  · exact h.disjoint i hl hi
  · exact absurd (h.lt_next i (.inr hi)).1 hlt.not_ge

theorem isEmpty_of_next_le (h : Sound m) (hi : m.nextLock ≤ i) : (m.heap i).isEmpty = true := by
  by_contra hne
  rcases h.nonempty i (by simpa using hne) with hl | hlt
  · exact absurd hi (h.lt_next i (.inl hl)).2.not_ge
  · exact absurd (h.two_le_next.trans hi) hlt.not_ge

theorem search_eq_none (hs : m.search key = none) : ∀ i ∈ m.locks, (m.heap i).key ≠ key := by
  simpa [search] using hs

theorem search_eq_some (hs : m.search key = some i) : i ∈ m.locks ∧ (m.heap i).key = key := by
  refine ⟨List.mem_of_find?_eq_some hs, ?_⟩
  simpa using List.find?_some hs

section

variable (h : Sound m)

include h

theorem setLock_of_notMem (hi : i ∉ m.locks) (hge : 2 ≤ i) (hempty : l.isEmpty = true)
    (hunused : i ∈ m.unusedLocksCache → l.kind = .object ∧ l.isDestroyed = false) :
    Sound (m.setLock i l) := by
  have hlocks : ∀ j ∈ m.locks, (m.setLock i l).heap j = m.heap j := fun j hj =>
    heap_setLock_of_ne (by rintro rfl; exact hi hj) m l
  have hsmall : ∀ j < 2, (m.setLock i l).heap j = m.heap j := fun j hj =>
    heap_setLock_of_ne (by rintro rfl; exact absurd hge hj.not_ge) m l
  have hunusedOf : ∀ {P : MdlLock → Prop}, (i ∈ m.unusedLocksCache → P l) →
      (∀ j ∈ m.unusedLocksCache, P (m.heap j)) →
      ∀ j ∈ m.unusedLocksCache, P ((m.setLock i l).heap j) := fun {P} hl hall =>
    setLock_induction (P := fun j l => j ∈ m.unusedLocksCache → P l) hl hall
  exact
    { h with
      key_inj := by
        intro j hj k hk
        rw [hlocks j hj, hlocks k hk]
        exact h.key_inj j hj k hk
      alive := by
        rintro j (hj | hj)
        · rw [hlocks j hj]
          exact h.alive j (.inl hj)
        · exact hunusedOf (P := fun l => l.isDestroyed = false) (fun hi => (hunused hi).2)
            (fun j hj => h.alive j (.inr hj)) j hj
      locks_key := by
        intro j hj
        rw [hlocks j hj]
        exact h.locks_key j hj
      locks_kind := by
        intro j hj
        rw [hlocks j hj]
        exact h.locks_kind j hj
      unused_kind := hunusedOf (P := fun l => l.kind = .object) (fun hi => (hunused hi).1)
        h.unused_kind
      global_key := by rw [hsmall _ (by decide), h.global_key]
      commit_key := by rw [hsmall _ (by decide), h.commit_key]
      preallocated_alive := by
        intro j hj
        rw [hsmall j hj]
        exact h.preallocated_alive j hj
      preallocated_kind := by
        intro j hj
        rw [hsmall j hj]
        exact h.preallocated_kind j hj
      nonempty := setLock_induction
        (P := fun j l => l.isEmpty = false → j ∈ m.locks ∨ j < 2)
        (fun hne => by simp [hempty] at hne) h.nonempty }

theorem cons_locks (hi : i ∉ m.locks) (hu : i ∉ m.unusedLocksCache)
    (hnew : ∀ j ∈ m.locks, (m.heap j).key ≠ (m.heap i).key) (hge : 2 ≤ i) (hlt : i < m.nextLock)
    (halive : (m.heap i).isDestroyed = false) (hkey : preallocated? (m.heap i).key = none)
    (hkind : (m.heap i).kind = .ofNamespace (m.heap i).key.mdlNamespace) :
    Sound { m with locks := i :: m.locks } where
  __ := h
  locks_nodup := nodup_cons.mpr ⟨hi, h.locks_nodup⟩
  disjoint := forall_mem_cons.mpr ⟨hu, h.disjoint⟩
  key_inj := by
    simp only [mem_cons]
    rintro j (rfl | hj) k (rfl | hk) heq
    · rfl
    · exact absurd heq.symm (hnew k hk)
    · exact absurd heq (hnew j hj)
    · exact h.key_inj j hj k hk heq
  lt_next := by
    rintro j (hj | hj)
    · rcases mem_cons.mp hj with rfl | hj
      · exact ⟨hge, hlt⟩
      · exact h.lt_next j (.inl hj)
    · exact h.lt_next j (.inr hj)
  alive := by
    rintro j (hj | hj)
    · rcases mem_cons.mp hj with rfl | hj
      · exact halive
      · exact h.alive j (.inl hj)
    · exact h.alive j (.inr hj)
  locks_key := forall_mem_cons.mpr ⟨hkey, h.locks_key⟩
  locks_kind := forall_mem_cons.mpr ⟨hkind, h.locks_kind⟩
  nonempty := by
    intro j hj
    rcases h.nonempty j hj with hj | hj
    · exact .inl (mem_cons_of_mem i hj)
    · exact .inr hj

theorem reset (hi : i ∉ m.locks) (hge : 2 ≤ i) (hempty : (m.heap i).isEmpty = true) (key : MdlKey) :
    Sound (m.reset i key) :=
  h.setLock_of_notMem hi hge hempty fun hu => ⟨h.unused_kind i hu, h.alive i (.inr hu)⟩

theorem tail_unused {rest : List LockId} (hu : m.unusedLocksCache = i :: rest) :
    Sound { m with unusedLocksCache := rest } where
  __ := h
  unused_nodup := (nodup_cons.mp (hu ▸ h.unused_nodup)).2
  disjoint j hj hr := h.disjoint j hj (hu ▸ mem_cons_of_mem i hr)
  lt_next j hj := h.lt_next j (hj.imp_right fun hr => hu ▸ mem_cons_of_mem i hr)
  alive j hj := h.alive j (hj.imp_right fun hr => hu ▸ mem_cons_of_mem i hr)
  unused_kind j hj := h.unused_kind j (hu ▸ mem_cons_of_mem i hj)

theorem erase_locks (hempty : (m.heap i).isEmpty = true) :
    Sound { m with locks := m.locks.erase i } := by
  have hsub : ∀ j ∈ m.locks.erase i, j ∈ m.locks := fun j hj => mem_of_mem_erase hj
  exact
    { h with
      locks_nodup := h.locks_nodup.erase i
      disjoint := fun j hj => h.disjoint j (hsub j hj)
      key_inj := fun j hj k hk => h.key_inj j (hsub j hj) k (hsub k hk)
      lt_next := fun j hj => h.lt_next j (hj.imp_left (hsub j))
      alive := fun j hj => h.alive j (hj.imp_left (hsub j))
      locks_key := fun j hj => h.locks_key j (hsub j hj)
      locks_kind := fun j hj => h.locks_kind j (hsub j hj)
      nonempty := by
        intro j hj
        have hji : j ≠ i := by rintro rfl; simp [hempty] at hj
        exact (h.nonempty j hj).imp_left (List.mem_erase_of_ne hji).mpr }

theorem cons_unused (hl : i ∉ m.locks) (hu : i ∉ m.unusedLocksCache) (hge : 2 ≤ i)
    (hlt : i < m.nextLock) (halive : (m.heap i).isDestroyed = false)
    (hkind : (m.heap i).kind = .object) :
    Sound { m with unusedLocksCache := i :: m.unusedLocksCache } :=
  { h with
    unused_nodup := nodup_cons.mpr ⟨hu, h.unused_nodup⟩
    disjoint := fun j hj => by
      rw [mem_cons, not_or]
      exact ⟨by rintro rfl; exact hl hj, h.disjoint j hj⟩
    lt_next := by
      simp only [mem_cons]
      rintro j (hj | rfl | hj)
      · exact h.lt_next j (.inl hj)
      · exact ⟨hge, hlt⟩
      · exact h.lt_next j (.inr hj)
    alive := by
      simp only [mem_cons]
      rintro j (hj | rfl | hj)
      · exact h.alive j (.inl hj)
      · exact halive
      · exact h.alive j (.inr hj)
    unused_kind := forall_mem_cons.mpr ⟨hkind, h.unused_kind⟩ }

theorem alloc (key : MdlKey) :
    Sound { m.setLock m.nextLock (.create key) with nextLock := m.nextLock + 1 } := by
  have hlt : ∀ j, j ∈ m.locks ∨ j ∈ m.unusedLocksCache → j ≠ m.nextLock := fun j hj =>
    (h.lt_next j hj).2.ne
  have hset : Sound (m.setLock m.nextLock (.create key)) :=
    h.setLock_of_notMem (fun hi => hlt _ (.inl hi) rfl) h.two_le_next rfl
      fun hi => absurd rfl (hlt _ (.inr hi))
  exact
    { hset with
      lt_next := fun j hj =>
        ⟨(hset.lt_next j hj).1, (hset.lt_next j hj).2.trans (Nat.lt_succ_self _)⟩
      two_le_next := hset.two_le_next.trans (Nat.le_succ _) }

end

end Sound

/-! ## The sections -/

/-- The possible outcomes of `lookup`. -/
inductive Looked (m : MdlMap) (key : MdlKey) : Option LockId × MdlMap → Prop where
  | found (i : LockId) (hi : i ∈ m.locks) (hkey : (m.heap i).key = key) :
      Looked m key (some i, m)
  | reused (i : LockId) (rest : List LockId) (hu : m.unusedLocksCache = i :: rest)
      (hnew : ∀ j ∈ m.locks, (m.heap j).key ≠ key) (hns : key.mdlNamespace ≠ .schema) :
      Looked m key
        (some i, { m.reset i key with unusedLocksCache := rest, locks := i :: m.locks })
  | reuseFailed (i : LockId) (hu : i ∈ m.unusedLocksCache) : Looked m key (none, m.reset i key)
  | created (hnew : ∀ j ∈ m.locks, (m.heap j).key ≠ key) :
      Looked m key (some m.nextLock,
        { m.setLock m.nextLock (.create key) with
          nextLock := m.nextLock + 1, locks := m.nextLock :: m.locks })
  | createFailed : Looked m key (none, m)
  | insertFailed :
      Looked m key (none,
        { m.setLock m.nextLock (.create key) with nextLock := m.nextLock + 1 }.destroy
          m.nextLock)

theorem insertNew_looked (hnew : ∀ j ∈ m.locks, (m.heap j).key ≠ key) (oom : OutOfMemory) :
    Looked m key (m.insertNew key oom) := by
  unfold insertNew
  split
  · exact .createFailed
  · split
    · exact .insertFailed
    · exact .created hnew

theorem lookup_looked (m : MdlMap) (key : MdlKey) (oom : OutOfMemory) :
    Looked m key (m.lookup key oom) := by
  unfold lookup
  split
  next i hs =>
    obtain ⟨hi, hkey⟩ := Sound.search_eq_some hs
    exact .found i hi hkey
  next hs =>
    have hnew := Sound.search_eq_none hs
    split
    next i rest hu =>
      split
      next hns =>
        unfold reuse
        split
        · exact .reuseFailed i (by simp [hu])
        · exact .reused i rest hu hnew hns
      next => exact insertNew_looked hnew oom
    next => exact insertNew_looked hnew oom

theorem ofNamespace_eq_object (hkey : preallocated? key = none)
    (hns : key.mdlNamespace ≠ .schema) : LockKind.ofNamespace key.mdlNamespace = .object := by
  unfold preallocated? at hkey
  cases hk : key.mdlNamespace <;> simp_all [LockKind.ofNamespace]

theorem reset_frame (hempty : (m.heap i).isEmpty = true) (key : MdlKey) : Frame m (m.reset i key) :=
  setLock_frame rfl rfl fun hne => by simp [hempty] at hne

theorem alloc_frame (h : Sound m) (key : MdlKey) :
    Frame m (m.setLock m.nextLock (.create key)) := by
  have hempty := h.isEmpty_of_next_le le_rfl
  obtain ⟨hg, hw⟩ := isEmpty_iff.mp hempty
  exact setLock_frame hg.symm hw.symm fun hne => by simp [hempty] at hne

theorem Looked.spec {p : Option LockId × MdlMap} (hp : Looked m key p) (h : Sound m)
    (hkey : preallocated? key = none) :
    Sound p.2 ∧ Frame m p.2 ∧ ∀ i, p.1 = some i → i ∈ p.2.locks ∧ (p.2.heap i).key = key := by
  cases hp with
  | found i hi hik => exact ⟨h, .refl m, by rintro _ ⟨⟩; exact ⟨hi, hik⟩⟩
  | reused i rest hu hnew hns =>
    have hmem : i ∈ m.unusedLocksCache := by simp [hu]
    have hi : i ∉ m.locks := fun hl => h.disjoint i hl hmem
    have hge := (h.lt_next i (.inr hmem)).1
    have hempty := h.isEmpty_of_unused hmem
    refine ⟨?_, ?_, ?_⟩
    · have hreset := (h.tail_unused hu).reset hi hge hempty key
      have hrest : i ∉ rest := (nodup_cons.mp (hu ▸ h.unused_nodup)).1
      refine hreset.cons_locks hi hrest ?_ hge (h.lt_next i (.inr hmem)).2 ?_ ?_ ?_
      · intro j hj
        have hji : j ≠ i := by rintro rfl; exact hi hj
        simpa [MdlMap.reset, heap_setLock_of_ne hji] using hnew j hj
      · simpa [MdlMap.reset] using h.alive i (.inr hmem)
      · simpa [MdlMap.reset] using hkey
      · simpa [MdlMap.reset, ofNamespace_eq_object hkey hns] using h.unused_kind i hmem
    · exact (reset_frame hempty key).of_heap_eq rfl
    · rintro _ ⟨⟩
      exact ⟨mem_cons_self, by simp [MdlMap.reset]⟩
  | reuseFailed i hu =>
    have hempty := h.isEmpty_of_unused hu
    exact ⟨h.reset (fun hl => h.disjoint i hl hu) (h.lt_next i (.inr hu)).1 hempty key,
      reset_frame hempty key, by simp⟩
  | created hnew =>
    have hi : ∀ j, j ∈ m.locks ∨ j ∈ m.unusedLocksCache → j ≠ m.nextLock := fun j hj =>
      (h.lt_next j hj).2.ne
    have hframe := alloc_frame h key
    refine ⟨?_, hframe.of_heap_eq rfl, ?_⟩
    · refine (h.alloc key).cons_locks (fun hl => hi _ (.inl hl) rfl)
        (fun hu => hi _ (.inr hu) rfl) ?_ h.two_le_next (Nat.lt_succ_self _) ?_ ?_ ?_
      · intro j hj
        simpa [heap_setLock_of_ne (hi j (.inl hj)), MdlLock.create] using hnew j hj
      · simp [MdlLock.create]
      · simpa [MdlLock.create] using hkey
      · simp [MdlLock.create]
    · rintro _ ⟨⟩
      exact ⟨mem_cons_self, by simp [MdlLock.create]⟩
  | createFailed => exact ⟨h, .refl m, by simp⟩
  | insertFailed =>
    have hframe := alloc_frame h key
    exact ⟨(h.alloc key).destroy _, hframe.of_heap_eq rfl, by simp⟩

theorem counters_spec (h : Sound m) (hg : l.granted = (m.heap i).granted)
    (hw : l.waiting = (m.heap i).waiting) (hkey : l.key = (m.heap i).key)
    (hkind : l.kind = (m.heap i).kind) (hmark : l.isDestroyed = (m.heap i).isDestroyed)
    (hway : l.gaveWay = (m.heap i).gaveWay) : Sound (m.setLock i l) ∧ Frame m (m.setLock i l) := by
  have hempty : l.isEmpty = (m.heap i).isEmpty := isEmpty_congr (by rw [hg]) (by rw [hw])
  exact ⟨h.setLock hkey hkind hmark fun hne => h.nonempty i (by rwa [← hempty]),
    setLock_frame (by rw [hg]) (by rw [hw]) fun _ => ⟨hkey, hkind, hway⟩⟩

theorem takeReference_spec (h : Sound m) (i : LockId) :
    Sound (m.takeReference i) ∧ Frame m (m.takeReference i) :=
  counters_spec h rfl rfl rfl rfl rfl rfl

theorem dropReference_spec (h : Sound m) (i : LockId) (version : BitVec 64) :
    Sound (m.dropReference i version).2 ∧ Frame m (m.dropReference i version).2 :=
  counters_spec h rfl rfl rfl rfl rfl rfl

/-- The possible outcomes of `remove`. -/
inductive Removed (m : MdlMap) (i : LockId) : Bool × MdlMap → Prop where
  | preallocated (hpre : preallocated? (m.heap i).key ≠ none) : Removed m i (false, m)
  | cached (hpre : preallocated? (m.heap i).key = none)
      (hns : (m.heap i).key.mdlNamespace ≠ .schema) :
      Removed m i (false,
        { m.setLock i { m.heap i with version := (m.heap i).version + 1 } with
          locks := m.locks.erase i
          unusedLocksCache := i :: m.unusedLocksCache })
  | marked (hpre : preallocated? (m.heap i).key = none) :
      Removed m i ((m.heap i).refUsage == (m.heap i).refRelease,
        { m.setLock i
            { m.heap i with version := (m.heap i).version + 1, isDestroyed := true } with
          locks := m.locks.erase i })

theorem remove_removed (cacheSize : ℕ) (m : MdlMap) (i : LockId) :
    Removed m i (m.remove cacheSize i) := by
  unfold remove
  dsimp only
  split
  next hpre =>
    exact .preallocated (by rw [← Option.isSome_iff_ne_none]; exact hpre)
  next hpre =>
    have hpre' : preallocated? (m.heap i).key = none := by simpa using hpre
    split
    next hns => exact .cached hpre' (by simpa using (Bool.and_eq_true_iff.mp hns).1)
    next => exact .marked hpre'

theorem Sound.preallocated?_key (h : Sound m) (hi : i < 2) :
    preallocated? (m.heap i).key = some i := by
  obtain rfl | rfl : i = globalLock ∨ i = commitLock := Nat.le_one_iff_eq_zero_or_eq_one.mp
    (Nat.lt_succ_iff.mp hi)
  · rw [h.global_key]
    rfl
  · rw [h.commit_key]
    rfl

theorem Removed.spec {p : Bool × MdlMap} (hp : Removed m i p) (h : Sound m)
    (hempty : (m.heap i).isEmpty = true) (hi : i ∈ m.locks ∨ i < 2) : Sound p.2 ∧ Frame m p.2 := by
  have herased : i ∉ m.locks.erase i := h.locks_nodup.not_mem_erase
  cases hp with
  | preallocated hpre => exact ⟨h, .refl m⟩
  | cached hpre hns =>
    have hl : i ∈ m.locks := hi.resolve_right fun hlt => by
      simp [h.preallocated?_key hlt] at hpre
    obtain ⟨hge, hlt⟩ := h.lt_next i (.inl hl)
    have hbump := counters_spec
      (l := { m.heap i with version := (m.heap i).version + 1 }) h rfl rfl rfl rfl rfl rfl
    refine ⟨?_, hbump.2.of_heap_eq rfl⟩
    refine (hbump.1.erase_locks (by rw [hbump.2.isEmpty]; exact hempty)).cons_unused herased
      (h.disjoint i hl) hge hlt ?_ ?_
    · simpa using h.alive i (.inl hl)
    · simpa [h.locks_kind i hl] using ofNamespace_eq_object hpre hns
  | marked hpre =>
    have hl : i ∈ m.locks := hi.resolve_right fun hlt => by
      simp [h.preallocated?_key hlt] at hpre
    have hframe : Frame m (m.setLock i
        { m.heap i with version := (m.heap i).version + 1, isDestroyed := true }) :=
      setLock_frame rfl rfl fun _ => ⟨rfl, rfl, rfl⟩
    refine ⟨?_, hframe.of_heap_eq rfl⟩
    exact (h.erase_locks hempty).setLock_of_notMem herased (h.lt_next i (.inl hl)).1 hempty
      fun hu => absurd hu (h.disjoint i hl)

theorem findOrInsert_spec (h : Sound m) (key : MdlKey) (oom : OutOfMemory) :
    Sound (m.findOrInsert key oom).2 ∧ Frame m (m.findOrInsert key oom).2 ∧
      ∀ i, (m.findOrInsert key oom).1 = some i → (m.findOrInsert key oom).2.Holds i key := by
  unfold findOrInsert Holds
  split
  next j hpre =>
    refine ⟨h, .refl m, ?_⟩
    rintro i ⟨⟩
    rfl
  next hpre =>
    obtain ⟨hsound, hframe, hres⟩ := (lookup_looked m key oom).spec h hpre
    split
    next m' heq =>
      rw [heq] at hsound hframe
      exact ⟨hsound, hframe, by simp⟩
    next j m' heq =>
      rw [heq] at hsound hframe hres
      obtain ⟨hs₁, hf₁⟩ := takeReference_spec hsound j
      obtain ⟨hs₂, hf₂⟩ := dropReference_spec hs₁ j (m'.heap j).version
      refine ⟨hs₂, hframe.trans (hf₁.trans hf₂), ?_⟩
      rintro i ⟨⟩
      obtain ⟨hj, hkey⟩ := hres j rfl
      exact ⟨hj, by simpa [takeReference, dropReference] using hkey⟩

theorem removeLock_spec (cacheSize : ℕ) (h : Sound m) (hempty : (m.heap i).isEmpty = true)
    (hi : i ∈ m.locks ∨ i < 2) :
    Sound (m.removeLock cacheSize i) ∧ Frame m (m.removeLock cacheSize i) := by
  obtain ⟨hsound, hframe⟩ := (remove_removed cacheSize m i).spec h hempty hi
  unfold removeLock
  split
  next m' heq =>
    rw [heq] at hsound hframe
    exact ⟨hsound.destroy i, hframe.of_heap_eq rfl⟩
  next m' heq =>
    rw [heq] at hsound hframe
    exact ⟨hsound, hframe⟩

theorem Holds.unique (h : Sound m) {j : LockId} (hi : m.Holds i key) (hj : m.Holds j key) :
    i = j := by
  unfold Holds at hi hj
  cases hpre : preallocated? key with
  | some k =>
    simp only [hpre] at hi hj
    rw [hi, hj]
  | none =>
    simp only [hpre] at hi hj
    exact h.key_inj i hi.1 j hj.1 (hi.2.trans hj.2.symm)

theorem Holds.findable (hi : m.Holds i key) : i ∈ m.locks ∨ i < 2 := by
  unfold Holds at hi
  split at hi
  next j hpre =>
    subst hi
    unfold preallocated? at hpre
    split at hpre
    · cases hpre
      exact .inr (by decide)
    · cases hpre
      exact .inr (by decide)
    · cases hpre
  next => exact .inl hi.1

theorem Sound.holds_of_nonempty (h : Sound m) (hi : (m.heap i).isEmpty = false) :
    m.Holds i (m.heap i).key := by
  unfold Holds
  rcases h.nonempty i hi with hl | hlt
  · simp [h.locks_key i hl, hl]
  · simp [h.preallocated?_key hlt]

end MdlMap

end MySQL.Mdl
