import MySQL.Lib.System
import MySQL.Lib.Threads
import MySQL.Sql.TcLog.Pages

/-!
# The roles of log pages

The pages of `TC_LOG_MMAP` with the threads in `log_xid`, `sync` and `unlog`.  A step is what a
thread does in one section of a mutex.  `LOCK_active` is kept while a thread waits for a page of the
pool; the mutexes of pages and of the pool are left out, since they only forbid some of the runs.

No page ever gets a `ptr`: `open` leaves it NULL, `recover` does not set it, and `set_if_smaller` of
`unlog` keeps it.  So the first `log_xid` that searches for a slot reads from NULL.
-/

namespace MySQL.Sql.TcLog

open Lib List Function

inductive PageState where
  | pool
  | error
  | dirty
  deriving DecidableEq

/-- Where a thread is: it waits in `overflow`, has logged its xid, waits for the page to be synced,
is going to sync it, has put it into the pool, or has the cookie for `unlog`. -/
inductive Place where
  | idle
  | overflow
  | logged (p : ℕ) (cookie : ℤ)
  | waiting (p : ℕ) (cookie : ℤ)
  | syncs (cookie : ℤ)
  | synced (err : Bool) (cookie : ℤ)
  | holds (cookie : ℤ)
  deriving DecidableEq

structure Log where
  active : Option ℕ
  syncing : Option ℕ
  pool : Option ℕ
  poolLast : ℕ
  next : ℕ → Option ℕ
  page : ℕ → Page
  waiters : ℕ → ℤ
  state : ℕ → PageState
  mem : ℤ → ℕ
  place : ℕ → Place
  activeLock : Option ℕ

inductive Step where
  | log (t xid : ℕ)
  | decide (t : ℕ)
  | wake (t : ℕ)
  | publish (t : ℕ) (err : Bool)
  | vacate (t : ℕ)
  | unlog (t : ℕ)

namespace Log

variable (n pageSize : ℕ) (s : Log)

/-- The loop of `get_active_from_pool` for the page with the most free slots. -/
def scan : ℕ → PtrSlot ℕ → PtrSlot ℕ × ℤ → PtrSlot ℕ × ℤ
  | 0, _, best => best
  | fuel + 1, p, best =>
    match loadPtr s.pool s.next p with
    | none => best
    | some a =>
      scan fuel (.after a)
        (if s.waiters a = 0 ∧ best.2 < (s.page a).free then (p, (s.page a).free) else best)

/-- The place of the pointer to the page that `get_active_from_pool` takes, if `a` is the first page
of the pool; `none` if it waits. -/
def bestSlot (a : ℕ) : Option (PtrSlot ℕ) :=
  if s.waiters a = 0 then some .start
  else
    let best := s.scan n (.after a) (.start, 0)
    if best.2 = 0 then none else some best.1

/-- The page becomes active and is unlinked, unless it is the last one. -/
def take (slot : PtrSlot ℕ) : Option (Log × ℕ) :=
  (loadPtr s.pool s.next slot).map fun a =>
    match s.next a with
    | some b =>
      let linked := storePtr s.pool s.next (some b) slot
      ({ s with active := some a, pool := linked.1, next := linked.2 }, a)
    | none => ({ s with active := some a, poolLast := a }, a)

def setPlace (t : ℕ) (place : Place) : Log := { s with place := update s.place t place }

/-- A xid is stored on the page; `none` if the search for a slot leaves the mapped file, which has
`n * pageSize` bytes, or begins at NULL. -/
def store (t xid p : ℕ) : Option Log :=
  (logXid s.mem xid (n * pageSize / 8) (s.page p)).map fun (mem, page, cookie) => setPlace
    { s with
      mem := mem
      page := update s.page p page
      state := update s.state p .dirty
      activeLock := none } t (.logged p cookie)

/-- The part of `log_xid` under `LOCK_active`.  The result is `none` if the thread waits, and
`some none` if the server crashes. -/
def logActive (t xid : ℕ) : Option (Option Log) :=
  match s.active with
  | some p => if (s.page p).free = 0 then none else some (s.store n pageSize t xid p)
  | none =>
    match s.pool with
    | none => some none
    | some a =>
      match s.bestSlot n a with
      | none => some (some (setPlace { s with activeLock := some t } t .overflow))
      | some slot => some ((s.take slot).bind fun (s, p) => s.store n pageSize t xid p)

/-- The end of `log_xid`: the thread takes the place of the syncing page. -/
def startSync (t p : ℕ) (cookie : ℤ) : Option (Option Log) :=
  if s.activeLock = none then
    some (some (setPlace { s with syncing := some p, active := none } t (.syncs cookie)))
  else none

/-- The cookie is returned unless there was an error. -/
def finish (t : ℕ) (err : Bool) (cookie : ℤ) : Log :=
  s.setPlace t (if err then .idle else .holds cookie)

/-- `unlog`; the pointer is `set_if_smaller`, and NULL is smaller than any. -/
def unlog (cookie : ℤ) : Log :=
  let p := (cookie / pageSize).toNat
  let page := s.page p
  { s with
    mem := update s.mem cookie 0
    page := update s.page p
      { page with free := page.free + 1, ptr := page.ptr.map fun x => min x cookie } }

/-- One section of a thread; `none` if it cannot go on, `some none` if the server crashes. -/
def step : Step → Option (Option Log)
  | .log t xid =>
    if s.place t = .idle ∧ s.activeLock = none ∨ s.place t = .overflow then
      s.logActive n pageSize t xid
    else none
  | .decide t =>
    match s.place t with
    | .logged p cookie =>
      if s.syncing = none then s.startSync t p cookie
      else if s.state p = .dirty then
        some (some (setPlace { s with waiters := update s.waiters p (s.waiters p + 1) } t
          (.waiting p cookie)))
      else some (some (s.finish t (s.state p = .error) cookie))
    | _ => none
  | .wake t =>
    match s.place t with
    | .waiting p cookie =>
      if s.state p = .dirty ∧ s.syncing ≠ none then none
      else
        let s := { s with waiters := update s.waiters p (s.waiters p - 1) }
        if s.state p = .dirty then s.startSync t p cookie
        else some (some (s.finish t (s.state p = .error) cookie))
    | _ => none
  | .publish t err =>
    match s.place t with
    | .syncs cookie => some (s.syncing.map fun p => setPlace
        { s with
          next := update (update s.next s.poolLast (some p)) p none
          poolLast := p
          state := update s.state p (if err then .error else .pool) } t (.synced err cookie))
    | _ => none
  | .vacate t =>
    match s.place t with
    -- the condition of the active page is signalled
    | .synced err cookie =>
      some (s.active.map fun _ => { s with syncing := none }.finish t err cookie)
    | _ => none
  | .unlog t =>
    match s.place t with
    | .holds cookie => some (some ((s.unlog pageSize cookie).setPlace t .idle))
    | _ => none

/-- The log that `open` makes of `n` pages, with an empty or a recovered file. -/
def opened (mem : ℤ → ℕ) : Log where
  active := some 0
  syncing := none
  pool := some 1
  poolLast := n - 1
  next i := if i + 1 < n then some (i + 1) else none
  page := openPage pageSize
  waiters _ := 0
  state _ := .pool
  mem := mem
  place _ := .idle
  activeLock := none

/-- The server with its log; it ends with a crash. -/
def system : System (Option Log) Step where
  init s := ∃ mem, s = some (opened n pageSize mem)
  step s a := s.bind fun s => s.step n pageSize a

/-- The pool is a list that ends at `pool_last`, and each page is active, syncing or in the pool. -/
def Exclusive : Prop :=
  ∃ L, Thread s.next s.pool L none ∧ L.getLast? = some s.poolLast ∧
    (s.active.toList ++ (s.syncing.toList ++ L)).Perm (List.range n)

variable {n pageSize} {mem : ℤ → ℕ}

theorem thread_opened (n : ℕ) {m k : ℕ} (hm : m + k = n) (hk : 0 < k) :
    Thread (fun i => if i + 1 < n then some (i + 1) else none) (some m) (List.range' m k) none := by
  induction k generalizing m with
  | zero => omega
  | succ k ih =>
    refine ⟨rfl, ?_⟩
    cases k with
    | zero => exact if_neg (by omega)
    | succ k =>
      dsimp only
      rw [if_pos (by omega)]
      exact ih (by omega) (by omega)

theorem exclusive_opened (hn : 3 ≤ n) : Exclusive n (opened n pageSize mem) := by
  refine ⟨List.range' 1 (n - 1), thread_opened n (by omega) (by omega), ?_, ?_⟩
  · rw [List.getLast?_range', if_neg (by omega)]
    exact congrArg some (by simp only [opened]; omega)
  · rw [range_eq_range', show n = n - 1 + 1 by omega]
    exact List.Perm.refl _

/-- A thread waits for a free slot on the first page, or crashes the server. -/
theorem step_opened (a : Step) :
    (opened n pageSize mem).step n pageSize a = none ∨
      (opened n pageSize mem).step n pageSize a = some none := by
  cases a with
  | log t xid =>
    rw [step, if_pos (Or.inl ⟨rfl, rfl⟩)]
    by_cases hfree : (openPage pageSize 0).free = 0
    · exact Or.inl (if_pos hfree)
    · right
      have hnone : (opened n pageSize mem).store n pageSize t xid 0 = none := by
        rw [store, opened, logXid_openPage]
        rfl
      rw [logActive]
      exact (if_neg hfree).trans (congrArg some hnone)
  | decide t => exact Or.inl rfl
  | wake t => exact Or.inl rfl
  | publish t err => exact Or.inl rfl
  | vacate t => exact Or.inl rfl
  | unlog t => exact Or.inl rfl

end Log

end MySQL.Sql.TcLog
