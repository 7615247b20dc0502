import Mathlib

/-!
# Record and table locks

A record lock is one structure for many records of a page, with one bit for each heap
number.  A lock stands in one *queue* for each of its bits, and a table lock stands in the
queue of its table; whether a request has to wait for another lock is decided queue by
queue.
-/

namespace MySQL.Innobase

abbrev LockId := ℕ

/-- A `trx_t`. -/
abbrev TrxRef := ℕ

abbrev TableId := ℕ

structure PageId where
  space : ℕ
  pageNo : ℕ
  deriving DecidableEq, Repr

/-- `PAGE_HEAP_NO_SUPREMUM`. -/
def heapNoSupremum : ℕ := 1

inductive LockMode where
  | is
  | ix
  | s
  | x
  | autoInc
  deriving DecidableEq, Repr

namespace LockMode

/-- `lock_mode_compatible`. -/
def compatible : LockMode → LockMode → Bool
  | .is, .is | .ix, .ix | .s, .s => true
  | .ix, .is | .is, .ix => true
  | .is, .autoInc | .autoInc, .is => true
  | .s, .is | .is, .s => true
  | .autoInc, .ix | .ix, .autoInc => true
  | _, _ => false

/-- `lock_mode_stronger_or_eq`. -/
def strongerOrEq : LockMode → LockMode → Bool
  | .is, .is => true
  | .ix, .is | .ix, .ix => true
  | .s, .is | .s, .s => true
  | .autoInc, .autoInc => true
  | .x, _ => true
  | _, _ => false

theorem compatible_comm (m n : LockMode) : m.compatible n = n.compatible m := by
  cases m <;> cases n <;> rfl

end LockMode

/-- The flags of `lock->type_mode`, except the type itself. -/
structure TypeMode where
  mode : LockMode
  wait : Bool
  gap : Bool
  recNotGap : Bool
  insertIntention : Bool
  deriving DecidableEq, Repr

/-- `lock->un_member`. -/
inductive LockMember where
  | recLock (page : PageId) (nBits : ℕ) (bits : Finset ℕ)
  | tabLock (table : TableId)
  deriving DecidableEq

/-- `lock_t`.  The identifier is the place of the lock in the order of creation. -/
structure Lock where
  id : LockId
  trx : TrxRef
  typeMode : TypeMode
  member : LockMember
  deriving DecidableEq

namespace Lock

def wait (l : Lock) : Bool := l.typeMode.wait

def onPage (l : Lock) (page : PageId) : Bool :=
  match l.member with
  | .recLock page' _ _ => page' = page
  | .tabLock _ => false

def onTable (l : Lock) (table : TableId) : Bool :=
  match l.member with
  | .recLock _ _ _ => false
  | .tabLock table' => table' = table

/-- `lock_rec_get_n_bits`. -/
def nBits (l : Lock) : ℕ :=
  match l.member with
  | .recLock _ nBits _ => nBits
  | .tabLock _ => 0

variable (l : Lock) (i : ℕ)

/-- `lock_rec_get_nth_bit`. -/
def getNthBit : Bool :=
  match l.member with
  | .recLock _ nBits bits => i < nBits && i ∈ bits
  | .tabLock _ => false

/-- `lock_rec_set_nth_bit`. -/
def setNthBit : Lock :=
  match l.member with
  | .recLock page nBits bits => { l with member := .recLock page nBits (insert i bits) }
  | .tabLock _ => l

/-- `lock_rec_reset_nth_bit`. -/
def resetNthBit : Lock :=
  match l.member with
  | .recLock page nBits bits => { l with member := .recLock page nBits (bits.erase i) }
  | .tabLock _ => l

/-- `lock_rec_find_set_bit`. -/
def findSetBit : Option ℕ :=
  (List.range l.nBits).find? fun i => l.getNthBit i

/-- The flag part of `lock_reset_lock_and_trx_wait`. -/
def resetWait : Lock :=
  { l with typeMode := { l.typeMode with wait := false } }

theorem resetWait_id : l.resetWait.id = l.id := rfl

@[simp] theorem setNthBit_id : (l.setNthBit i).id = l.id := by
  unfold setNthBit
  split <;> rfl

@[simp] theorem resetNthBit_id : (l.resetNthBit i).id = l.id := by
  unfold resetNthBit
  split <;> rfl

end Lock

def TypeMode.forRecord (typeMode : TypeMode) (heapNo : ℕ) : TypeMode :=
  if heapNo = heapNoSupremum then { typeMode with gap := false, recNotGap := false }
  else typeMode

/-! ## Conflicts -/

/-- `lock_rec_has_to_wait`. -/
def lockRecHasToWait (trx : TrxRef) (typeMode : TypeMode) (lock2 : Lock)
    (lockIsOnSupremum : Bool) : Bool :=
  if trx ≠ lock2.trx && !typeMode.mode.compatible lock2.typeMode.mode then
    -- A request for a gap waits for nothing, unless it is one to insert.
    if (lockIsOnSupremum || typeMode.gap) && !typeMode.insertIntention then false
    else if !typeMode.insertIntention && lock2.typeMode.gap then false
    else if typeMode.gap && lock2.typeMode.recNotGap then false
    -- Nothing waits for an insert intention.
    else if lock2.typeMode.insertIntention then false
    else true
  else false

/-- `lock_has_to_wait`. -/
def lockHasToWait (lock1 lock2 : Lock) : Bool :=
  if lock1.trx ≠ lock2.trx && !lock1.typeMode.mode.compatible lock2.typeMode.mode then
    match lock1.member with
    | .recLock _ _ _ =>
      lockRecHasToWait lock1.trx lock1.typeMode lock2 (lock1.getNthBit heapNoSupremum)
    | .tabLock _ => true
  else false

/-- The locks that may conflict: those on one record, or on one table. -/
inductive Queue where
  | record (page : PageId) (heapNo : ℕ)
  | table (table : TableId)
  deriving DecidableEq

def Queue.hasToWait (q : Queue) (trx : TrxRef) (typeMode : TypeMode) (lock2 : Lock) : Bool :=
  match q with
  | .record _ heapNo => lockRecHasToWait trx typeMode lock2 (heapNo = heapNoSupremum)
  | .table _ => trx ≠ lock2.trx && !typeMode.mode.compatible lock2.typeMode.mode

namespace Lock

def On (l : Lock) : Queue → Prop
  | .record page heapNo => l.onPage page = true ∧ l.getNthBit heapNo = true
  | .table table => l.onTable table = true

instance (l : Lock) : (q : Queue) → Decidable (l.On q)
  | .record page heapNo =>
    inferInstanceAs (Decidable (l.onPage page = true ∧ l.getNthBit heapNo = true))
  | .table table => inferInstanceAs (Decidable (l.onTable table = true))

def Single (l : Lock) (q : Queue) : Prop := ∀ q', l.On q' ↔ q' = q

def Blocks (l a : Lock) : Prop :=
  ∃ q, l.On q ∧ a.On q ∧ q.hasToWait l.trx l.typeMode a = true

end Lock

/-! ## What conflicts depend on -/

def TypeMode.core (typeMode : TypeMode) : TypeMode := { typeMode with wait := false }

theorem TypeMode.core_eq_iff {m n : TypeMode} :
    m.core = n.core ↔ m.mode = n.mode ∧ m.gap = n.gap ∧ m.recNotGap = n.recNotGap ∧
      m.insertIntention = n.insertIntention := by
  simp [core]

variable (m : TypeMode) (heapNo : ℕ)

theorem TypeMode.core_forRecord : (m.forRecord heapNo).core = m.core.forRecord heapNo := by
  unfold forRecord core
  split <;> rfl

@[simp] theorem TypeMode.wait_forRecord : (m.forRecord heapNo).wait = m.wait := by
  unfold forRecord
  split <;> rfl

@[simp] theorem TypeMode.mode_forRecord : (m.forRecord heapNo).mode = m.mode := by
  unfold forRecord
  split <;> rfl

@[simp] theorem TypeMode.forRecord_forRecord :
    (m.forRecord heapNo).forRecord heapNo = m.forRecord heapNo := by
  unfold forRecord
  split <;> rfl

namespace Queue

variable {q : Queue} {trx : TrxRef} {m : TypeMode} {a b : Lock}

theorem hasToWait_core : q.hasToWait trx m.core a = q.hasToWait trx m a := by
  cases q <;> rfl

theorem hasToWait_congr (htrx : b.trx = a.trx) (hcore : b.typeMode.core = a.typeMode.core) :
    q.hasToWait trx m b = q.hasToWait trx m a := by
  obtain ⟨hmode, hgap, hrec, hins⟩ := TypeMode.core_eq_iff.mp hcore
  cases q <;> simp only [hasToWait, lockRecHasToWait, htrx, hmode, hgap, hrec, hins]

end Queue

namespace Lock

variable {l a : Lock} {q : Queue} {page : PageId} {i : ℕ}

theorem onPage_unique {page' : PageId} (h : l.onPage page = true) (h' : l.onPage page' = true) :
    page = page' := by
  cases hm : l.member with
  | recLock p nBits bits =>
    simp only [onPage, hm, decide_eq_true_eq] at h h'
    exact h.symm.trans h'
  | tabLock t => simp [onPage, hm] at h

section

variable (l : Lock) (i : ℕ)

@[simp] theorem setNthBit_trx : (l.setNthBit i).trx = l.trx := by
  unfold setNthBit
  split <;> rfl

@[simp] theorem setNthBit_typeMode : (l.setNthBit i).typeMode = l.typeMode := by
  unfold setNthBit
  split <;> rfl

@[simp] theorem resetNthBit_trx : (l.resetNthBit i).trx = l.trx := by
  unfold resetNthBit
  split <;> rfl

@[simp] theorem resetNthBit_typeMode : (l.resetNthBit i).typeMode = l.typeMode := by
  unfold resetNthBit
  split <;> rfl

@[simp] theorem resetWait_wait : l.resetWait.wait = false := rfl

@[simp] theorem resetWait_core : l.resetWait.typeMode.core = l.typeMode.core := rfl

end

@[simp] theorem on_resetWait : l.resetWait.On q ↔ l.On q := by
  cases q <;> rfl

theorem on_setNthBit (hpage : l.onPage page = true) (hi : i < l.nBits) :
    (l.setNthBit i).On q ↔ l.On q ∨ q = .record page i := by
  obtain ⟨id, trx, typeMode, member⟩ := l
  cases member with
  | tabLock table => simp [onPage] at hpage
  | recLock page' nBits bits =>
    have hpage' : page' = page := by simpa [onPage] using hpage
    subst hpage'
    replace hi : i < nBits := hi
    cases q with
    | record p h =>
      by_cases hp : page' = p <;> by_cases hh : h = i <;>
        simp [On, onPage, getNthBit, setNthBit, hp, hh, hi]
      exact fun h => absurd h.symm hp
    | table t => simp [On, onTable, setNthBit]

theorem on_resetNthBit : (l.resetNthBit i).On q ↔ l.On q ∧ ∀ page, q ≠ .record page i := by
  obtain ⟨id, trx, typeMode, member⟩ := l
  cases member with
  | tabLock table => cases q <;> simp [On, onPage, onTable, resetNthBit]
  | recLock page' nBits bits =>
    cases q with
    | record p h =>
      by_cases hh : h = i <;> simp [On, onPage, getNthBit, resetNthBit, hh]
    | table t => simp [On, onTable, resetNthBit]

/-! ## Requests in one queue -/

theorem single_recLock {id : LockId} {trx : TrxRef} {m : TypeMode} {nBits heapNo : ℕ}
    (h : heapNo < nBits) :
    Single ⟨id, trx, m, .recLock page nBits {heapNo}⟩ (.record page heapNo) := by
  intro q
  cases q with
  | record p h' =>
    by_cases hh : heapNo = h'
    · subst hh
      simp [On, onPage, getNthBit, h, eq_comm]
    · simp [On, onPage, getNthBit, Ne.symm hh]
  | table t => simp [On, onTable]

theorem single_tabLock {id : LockId} {trx : TrxRef} {m : TypeMode} {table : TableId} :
    Single ⟨id, trx, m, .tabLock table⟩ (.table table) := by
  intro q
  cases q with
  | record p h => simp [On, onPage]
  | table t => simp [On, onTable, eq_comm]

theorem Single.on (h : l.Single q) : l.On q := (h q).mpr rfl

theorem Single.blocks_iff (h : l.Single q) :
    l.Blocks a ↔ a.On q ∧ q.hasToWait l.trx l.typeMode a = true := by
  constructor
  · rintro ⟨q', hl, ha, hwait⟩
    obtain rfl := (h q').mp hl
    exact ⟨ha, hwait⟩
  · rintro ⟨ha, hwait⟩
    exact ⟨q, h.on, ha, hwait⟩

theorem Single.lockHasToWait_eq (h : l.Single q) :
    lockHasToWait l a = q.hasToWait l.trx l.typeMode a := by
  cases q with
  | table t =>
    have hon : l.onTable t = true := h.on
    unfold lockHasToWait
    split
    next hc =>
      split
      next hm => simp [onTable, hm] at hon
      next => exact hc.symm
    next hc => exact (Bool.eq_false_iff.mpr hc).symm
  | record p heapNo =>
    have hon : l.onPage p = true ∧ l.getNthBit heapNo = true := h.on
    have hbit : l.getNthBit heapNoSupremum = decide (heapNo = heapNoSupremum) := by
      have hsup := h (.record p heapNoSupremum)
      simp only [On, hon.1, true_and, Queue.record.injEq] at hsup
      rw [Bool.eq_iff_iff, hsup, decide_eq_true_iff]
      exact eq_comm
    unfold lockHasToWait
    split
    next =>
      split
      next => rw [hbit]; rfl
      next hm => simp [onPage, hm] at hon
    next hc => rw [Queue.hasToWait, lockRecHasToWait, if_neg hc]

theorem Single.findSetBit_eq {heapNo : ℕ} (h : l.Single (.record page heapNo)) :
    l.findSetBit = some heapNo := by
  obtain ⟨hpage, hbit⟩ : l.onPage page = true ∧ l.getNthBit heapNo = true := h.on
  have hlt : heapNo < l.nBits := by
    cases hm : l.member with
    | recLock p n bits =>
      simp only [getNthBit, hm, Bool.and_eq_true, decide_eq_true_eq] at hbit
      simpa [nBits, hm] using hbit.1
    | tabLock t => simp [getNthBit, hm] at hbit
  refine List.find?_range_eq_some.mpr ⟨hbit, List.mem_range.mpr hlt, fun j hj => ?_⟩
  have hout : ¬ l.On (.record page j) := fun hon => by
    have heq := (h _).mp hon
    simp only [Queue.record.injEq, true_and] at heq
    exact hj.ne heq
  simpa [On, hpage] using hout

end Lock

end MySQL.Innobase
