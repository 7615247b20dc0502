import MySQL.Lib.System
import MySQL.Innobase.Page.Types

/-!
# Inserting and deleting records of a page

`page_cur_insert_rec_low` and `page_cur_delete_rec` as functions of the page, and the
sequences of inserts and deletes on a page that was created empty.
-/

namespace MySQL.Innobase

/-- Why a function on a page does not return a page: the record does not fit, or a loop over
the list of records or over the directory does not find what it looks for. -/
inductive PageErr where
  | noSpace
  | corrupted
  deriving DecidableEq, Repr

namespace Page

variable {α : Type*} (p : Page α)

/-! ## Insert -/

/-- Step 6 of `page_cur_insert_rec_low`: the information about the last insert. -/
def updateLastInsert (currentRec insertRec : RecPtr) : Page α :=
  let (direction, nDirection) :=
    if p.lastInsert = 0 then (PageDirection.noDirection, 0)
    else if p.lastInsert = currentRec ∧ p.direction ≠ .left then (.right, p.nDirection + 1)
    else if p.next insertRec = p.lastInsert ∧ p.direction ≠ .right then
      (.left, p.nDirection + 1)
    else (.noDirection, 0)
  { p with direction := direction, nDirection := nDirection, lastInsert := insertRec }

def linkRec (currentRec insertRec : RecPtr) (extraSize dataSize heapNo : ℕ) (content : α) :
    Page α :=
  let p' := p.setRec insertRec ⟨extraSize, dataSize, 0, heapNo, p.next currentRec, some content⟩
  { p'.setNext currentRec insertRec with nRecs := p.nRecs + 1 }

def updateOwner (insertRec : RecPtr) : Except PageErr (Page α) :=
  match p.findOwnerRec insertRec univPageSize with
  | none => .error .corrupted
  | some ownerRec =>
    let nOwned := p.nOwned ownerRec
    let p := p.setNOwned ownerRec (nOwned + 1)
    if nOwned = pageDirSlotMaxNOwned then
      match p.dirFindOwnerSlot ownerRec with
      | none => .error .corrupted
      | some slotNo => .ok (p.dirSplitSlot slotNo)
    else .ok p

/-- `page_cur_insert_rec_low`; the record is given by the sizes of its two parts and its
content. -/
def curInsertRecLow (currentRec : RecPtr) (extraSize dataSize : ℕ) (content : α) :
    Except PageErr (RecPtr × Page α) :=
  match p.memAlloc (extraSize + dataSize) with
  | none => .error .noSpace
  | some (insertBuf, heapNo, p) =>
    let insertRec := insertBuf + extraSize
    let p := p.linkRec currentRec insertRec extraSize dataSize heapNo content
    let p := p.updateLastInsert currentRec insertRec
    (p.updateOwner insertRec).map fun p => (insertRec, p)

/-! ## Delete -/

/-- The loop that looks for the record in front of `currentRec`, starting at the record of
the previous slot. -/
def findPrev (currentRec prevRec rec : RecPtr) : ℕ → Option RecPtr
  | 0 => none
  | fuel + 1 =>
    if currentRec = rec then some prevRec else findPrev currentRec rec (p.next rec) fuel

/-- Steps 3 to 6 of `page_cur_delete_rec`. -/
def unlinkRec (currentRec prevRec : RecPtr) (curSlotNo curNOwned : ℕ) : Page α :=
  let nextRec := p.next currentRec
  let p := { p with lastInsert := 0 }
  let p := p.setNext prevRec nextRec
  let p := if currentRec = p.slotGetRec curSlotNo then p.slotSetRec curSlotNo prevRec else p
  let p := p.slotSetNOwned curSlotNo (curNOwned - 1)
  p.memFree currentRec

/-- `page_cur_delete_rec`; the cursor is left at the next record. -/
def curDeleteRec (currentRec : RecPtr) : Except PageErr (RecPtr × Page α) :=
  match p.dirFindOwnerSlot currentRec with
  | none => .error .corrupted
  | some curSlotNo =>
    let curNOwned := p.slotGetNOwned curSlotNo
    match p.findPrev currentRec 0 (p.slotGetRec (curSlotNo - 1)) univPageSize with
    | none => .error .corrupted
    | some prevRec =>
      let p' := p.unlinkRec currentRec prevRec curSlotNo curNOwned
      .ok (p.next currentRec,
        if curNOwned ≤ pageDirSlotMinNOwned then p'.dirBalanceSlot curSlotNo else p')

end Page

/-! ## Steps -/

/-- Places are counted in the list of records: an insert behind the place `i`, where `0` is
the infimum, or a delete of the user record with the number `i`. -/
inductive PageAct (α : Type*) where
  | insert (i extraSize dataSize : ℕ) (content : α)
  | delete (i : ℕ)

namespace Page

variable {α : Type*}

def step (p : Page α) : PageAct α → Option (Page α)
  | .insert i extraSize dataSize content =>
    if i ≤ p.nRecs ∧ recNExtraBytes p.comp ≤ extraSize then
      match p.curInsertRecLow (p.nth i) extraSize dataSize content with
      | .ok (_, p) => some p
      | .error _ => none
    else none
  | .delete i =>
    if i < p.nRecs then
      match p.curDeleteRec (p.nth (i + 1)) with
      | .ok (_, p) => some p
      | .error _ => none
    else none

end Page

def PageAct.expected {α : Type*} (seq : List α) : PageAct α → List α
  | .insert i _ _ content => seq.insertIdx i content
  | .delete i => seq.eraseIdx i

def pageSys (α : Type*) (comp : Bool) : Lib.System (Page α) (PageAct α) where
  init p := p = Page.create comp
  step := Page.step

end MySQL.Innobase
