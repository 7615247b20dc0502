import MySQL.Lib.System
import MySQL.Innobase.ReadView

/-!
# The transaction system

The transactions, the open read views and the purge view, as they change in the sections
that run under the kernel mutex.  A transaction that writes goes through three sections to
commit: it gets its serialisation number, it becomes committed in memory, and it leaves the
list.  `lock_release_off_kernel` may give the mutex away between the change of state and the
closing of the view, so the closing is a step of its own.
-/

namespace MySQL.Innobase

open List

/-- `trx_sys_t` and the `view` of `purge_sys_t`. -/
structure TrxSys where
  maxTrxId : TrxId
  trxList : List Trx
  viewList : List (ViewId × ReadView)
  nextView : ViewId
  /-- `purge_sys->view`. -/
  purgeView : Option ViewId
  /-- The cursor views that MySQL holds. -/
  cursorViews : List ViewId
  /-- Every serialisation number that was given, with its transaction; it grows only. -/
  history : List (TrxId × ℕ)
  descending : trxList.Pairwise fun x y => y.id < x.id
  lt_max : ∀ x ∈ trxList, x.id < maxTrxId
  pos : ∀ x ∈ trxList, 0 < x.id
  max_pos : 0 < maxTrxId

namespace TrxSys

variable (s : TrxSys) (id : TrxId)

def modify (f : Trx → Trx) (hf : ∀ x, (f x).id = x.id) : TrxSys :=
  have hid (x : Trx) : (if x.id = id then f x else x).id = x.id := by
    split
    · exact hf x
    · rfl
  { s with
    trxList := s.trxList.map fun x => if x.id = id then f x else x
    descending := pairwise_map.mpr (s.descending.imp fun h => by simpa only [hid] using h)
    lt_max := List.forall_mem_map.mpr fun x hx => (hid x).symm ▸ s.lt_max x hx
    pos := List.forall_mem_map.mpr fun x hx => (hid x).symm ▸ s.pos x hx }

/-! ## Read views -/

variable (crTrxId : TrxId) (hcr : crTrxId ≠ 0 → crTrxId < s.maxTrxId)

/-- The view that `read_view_open_now` makes. -/
def readViewOpenNow : ReadView :=
  .ofCollected (fun x => x.id ≠ crTrxId ∧ x.Running) s.maxTrxId s.trxList crTrxId s.descending
    s.lt_max hcr

/-- The view that `read_cursor_view_create_for_mysql` makes: it hides its creator too. -/
def cursorView : ReadView :=
  .ofCollected (fun x => x.Running) s.maxTrxId s.trxList crTrxId s.descending s.lt_max hcr

def addFirst (v : ReadView) : TrxSys :=
  { s with viewList := (s.nextView, v) :: s.viewList, nextView := s.nextView + 1 }

def addLast (v : ReadView) : TrxSys :=
  { s with viewList := s.viewList ++ [(s.nextView, v)], nextView := s.nextView + 1 }

/-- `read_view_close`. -/
def readViewClose (i : ViewId) : TrxSys :=
  { s with viewList := s.viewList.filter fun v => v.1 ≠ i }

/-- The view that `read_view_oldest_copy_or_open_new` returns to purge. -/
def oldestCopy : ReadView :=
  match s.viewList.getLast? with
  | none => s.readViewOpenNow 0 fun h => absurd rfl h
  | some oldView => oldView.2.copyForPurge

/-- `read_view_oldest_copy_or_open_new`, as it is called by purge. -/
def readViewOldestCopyOrOpenNew : TrxSys :=
  match s.viewList.getLast? with
  | none => s.addFirst s.oldestCopy
  | some _ => s.addLast s.oldestCopy

def closePurgeView : TrxSys :=
  match s.purgeView with
  | some i => s.readViewClose i
  | none => s

/-! ## Sections under the kernel mutex -/

/-- `trx_start_low`. -/
def trxStartLow : TrxSys :=
  { s with
    maxTrxId := s.maxTrxId + 1
    trxList := ⟨s.maxTrxId, ⊤, .active, false, false, none, none⟩ :: s.trxList
    descending := pairwise_cons.mpr ⟨s.lt_max, s.descending⟩
    lt_max := forall_mem_cons.mpr
      ⟨Nat.lt_succ_self _, fun x hx => (s.lt_max x hx).trans (Nat.lt_succ_self _)⟩
    pos := forall_mem_cons.mpr ⟨s.max_pos, s.pos⟩
    max_pos := Nat.succ_pos _ }

/-- `trx_assign_read_view`. -/
def trxAssignReadView (x : Trx) (hx : x ∈ s.trxList) : TrxSys :=
  if x.readView.isSome then s
  else
    (s.addFirst (s.readViewOpenNow x.id fun _ => s.lt_max x hx)).modify x.id
      (fun x => { x with readView := some s.nextView, globalReadView := some s.nextView })
      fun _ => rfl

/-- `read_view_close_for_mysql`, and the closing in `trx_commit_off_kernel`. -/
def closeGlobalReadView (x : Trx) (i : ViewId) : TrxSys :=
  (s.readViewClose i).modify x.id
    (fun x => { x with readView := none, globalReadView := none }) fun _ => rfl

/-- `read_cursor_view_create_for_mysql`. -/
def readCursorViewCreate (x : Trx) (hx : x ∈ s.trxList) : TrxSys :=
  { s.addFirst (s.cursorView x.id fun _ => s.lt_max x hx) with
    cursorViews := s.nextView :: s.cursorViews }

/-- `read_cursor_view_close_for_mysql`. -/
def readCursorViewClose (i : ViewId) : TrxSys :=
  { (s.readViewClose i).modify id (fun x => { x with readView := x.globalReadView }) fun _ => rfl
    with cursorViews := s.cursorViews.erase i }

/-- `read_cursor_set_for_mysql`. -/
def readCursorSet (curview : Option ViewId) : TrxSys :=
  s.modify id
    (fun x => { x with readView := if curview.isSome then curview else x.globalReadView })
    fun _ => rfl

/-- The end of `trx_prepare_off_kernel`. -/
def trxPrepare : TrxSys :=
  s.modify id (fun x => { x with concState := .prepared }) fun _ => rfl

/-- `trx_serialisation_number_get`. -/
def trxSerialisationNumberGet : TrxSys :=
  let s' := s.modify id (fun x => { x with no := s.maxTrxId, inCommit := true }) fun _ => rfl
  { s' with
    maxTrxId := s.maxTrxId + 1
    history := (id, s.maxTrxId) :: s.history
    lt_max := fun x hx => (s'.lt_max x hx).trans (Nat.lt_succ_self _)
    max_pos := Nat.succ_pos _ }

/-- The change of state in `trx_commit_off_kernel`. -/
def trxCommit : TrxSys :=
  s.modify id (fun x => { x with concState := .committedInMemory, isRecovered := false })
    fun _ => rfl

/-- The end of `trx_commit_off_kernel`, and `trx_cleanup_at_db_startup`. -/
def trxFinish : TrxSys :=
  { s with
    trxList := s.trxList.filter fun x => x.id ≠ id
    descending := s.descending.sublist filter_sublist
    lt_max := fun x hx => s.lt_max x (mem_of_mem_filter hx)
    pos := fun x hx => s.pos x (mem_of_mem_filter hx) }

/-- The section of `trx_purge`, and the first view in `trx_purge_sys_create`. -/
def trxPurge : TrxSys :=
  { s.closePurgeView.readViewOldestCopyOrOpenNew with
    purgeView := some s.closePurgeView.nextView }

end TrxSys

/-! ## Steps -/

inductive TrxAct where
  | start
  | assignReadView (id : TrxId)
  | closeForMysql (id : TrxId)
  | cursorCreate (id : TrxId)
  | cursorClose (id : TrxId) (i : ViewId)
  | cursorSet (id : TrxId) (curview : Option ViewId)
  | prepare (id : TrxId)
  | serialise (id : TrxId)
  | commit (id : TrxId)
  | closeAtCommit (id : TrxId)
  | finish (id : TrxId)
  | purge

/-- The transaction belongs to a session that runs a statement in it: it was not recovered
from the undo logs, and its thread is not committing it. -/
def Trx.InStatement (x : Trx) : Prop :=
  x.concState = .active ∧ x.isRecovered = false ∧ x.inCommit = false

instance (x : Trx) : Decidable x.InStatement :=
  inferInstanceAs (Decidable (_ ∧ _ ∧ _))

namespace TrxSys

def withTrx (s : TrxSys) (id : TrxId) (p : Trx → Prop) [DecidablePred p]
    (f : (x : Trx) → x ∈ s.trxList → TrxSys) : Option TrxSys :=
  match h : s.trxList.find? fun x => x.id = id with
  | some x => if p x then some (f x (List.mem_of_find?_eq_some h)) else none
  | none => none

def step (s : TrxSys) : TrxAct → Option TrxSys
  | .start => some s.trxStartLow
  | .assignReadView id => s.withTrx id Trx.InStatement s.trxAssignReadView
  | .closeForMysql id =>
    s.withTrx id (fun x => x.globalReadView.isSome) fun x _ =>
      s.closeGlobalReadView x (x.globalReadView.getD 0)
  | .cursorCreate id => s.withTrx id Trx.InStatement s.readCursorViewCreate
  | .cursorClose id i => if i ∈ s.cursorViews then some (s.readCursorViewClose id i) else none
  | .cursorSet id curview =>
    if ∀ i ∈ curview, i ∈ s.cursorViews then some (s.readCursorSet id curview) else none
  | .prepare id => s.withTrx id Trx.InStatement fun _ _ => s.trxPrepare id
  | .serialise id =>
    s.withTrx id (fun x => x.Running ∧ x.inCommit = false) fun _ _ =>
      s.trxSerialisationNumberGet id
  | .commit id => s.withTrx id Trx.Running fun _ _ => s.trxCommit id
  | .closeAtCommit id =>
    s.withTrx id (fun x => x.concState = .committedInMemory ∧ x.globalReadView.isSome) fun x _ =>
      s.closeGlobalReadView x (x.globalReadView.getD 0)
  | .finish id =>
    s.withTrx id (fun x => x.concState = .committedInMemory ∧ x.globalReadView = none) fun _ _ =>
      s.trxFinish id
  | .purge => some s.trxPurge

/-- The system after `trx_lists_init_at_db_start`: the transactions are those of the undo
logs, and the history is that of the undo logs of committed transactions. -/
structure AtDbStart (s : TrxSys) : Prop where
  views : s.viewList = []
  purge : s.purgeView = none
  cursors : s.cursorViews = []
  recovered : ∀ x ∈ s.trxList, x.isRecovered = true ∧ x.inCommit = false ∧
    x.readView = none ∧ x.globalReadView = none
  /-- A running transaction has no number; the others get their id in place of one. -/
  no : ∀ x ∈ s.trxList, x.no = ⊤ ∧ x.concState = .active ∨ x.no = x.id
  history : ∀ h ∈ s.history, h.1 < s.maxTrxId ∧ ∀ x ∈ s.trxList, x.id = h.1 → ¬ x.Running

end TrxSys

def trxSys : Lib.System TrxSys TrxAct where
  init := TrxSys.AtDbStart
  step := TrxSys.step

end MySQL.Innobase
