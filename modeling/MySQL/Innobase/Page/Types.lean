import Mathlib

/-!
# Index pages

An index page is a heap of records, a linked list of them in the order of the index, a list
of freed records, and a directory whose slots point to every 4th to 8th record of the list.
Records are addressed by the offset of their origin; in front of the origin are the header
of the record with `n_owned`, `heap_no` and the pointer to the next record.
-/

namespace MySQL.Innobase

/-- The offset of the origin of a record in its page.  The null pointer is `0`. -/
abbrev RecPtr := ℕ

/-- A record as it is on a page.  The infimum, the supremum and memory that was not yet used
have no content. -/
structure PageRec (α : Type*) where
  /-- `rec_offs_extra_size`. -/
  extraSize : ℕ
  /-- `rec_offs_data_size`. -/
  dataSize : ℕ
  nOwned : ℕ
  heapNo : ℕ
  next : RecPtr
  content : Option α

/-- `PAGE_DIRECTION`. -/
inductive PageDirection where
  | left
  | right
  | noDirection
  deriving DecidableEq, Repr

structure Page (α : Type*) where
  /-- `page_is_comp`. -/
  comp : Bool
  recs : RecPtr → PageRec α
  /-- The page directory, the slot of the infimum first. -/
  slots : List RecPtr
  heapTop : ℕ
  nHeap : ℕ
  free : RecPtr
  garbage : ℕ
  lastInsert : RecPtr
  direction : PageDirection
  nDirection : ℕ
  nRecs : ℕ

/-! ## Constants -/

def univPageSize : ℕ := 16384

/-- `PAGE_DATA`: behind the page header. -/
def pageData : ℕ := 94

/-- `PAGE_DIR`: the space behind the directory. -/
def pageDir : ℕ := 8

def pageDirSlotSize : ℕ := 2

def pageDirSlotMaxNOwned : ℕ := 8

def pageDirSlotMinNOwned : ℕ := 4

/-- `REC_N_NEW_EXTRA_BYTES` and `REC_N_OLD_EXTRA_BYTES`. -/
def recNExtraBytes (comp : Bool) : ℕ := if comp then 5 else 6

def pageInfimum (comp : Bool) : RecPtr :=
  if comp then pageData + recNExtraBytes true else pageData + 1 + recNExtraBytes false

def pageSupremum (comp : Bool) : RecPtr :=
  if comp then pageData + 2 * recNExtraBytes true + 8
  else pageData + 2 + 2 * recNExtraBytes false + 8

def pageSupremumEnd (comp : Bool) : ℕ := pageSupremum comp + if comp then 8 else 9

namespace Page

variable {α : Type*}

/-- `page_create_low`. -/
def create (comp : Bool) : Page α where
  comp := comp
  recs r :=
    if r = pageInfimum comp then
      ⟨pageInfimum comp - pageData, 8, 1, 0, pageSupremum comp, none⟩
    else if r = pageSupremum comp then
      ⟨pageInfimum comp - pageData, if comp then 8 else 9, 1, 1, 0, none⟩
    else ⟨0, 0, 0, 0, 0, none⟩
  slots := [pageInfimum comp, pageSupremum comp]
  heapTop := pageSupremumEnd comp
  nHeap := 2
  free := 0
  garbage := 0
  lastInsert := 0
  direction := .noDirection
  nDirection := 0
  nRecs := 0

variable (p : Page α)

abbrev infimum : RecPtr := pageInfimum p.comp

abbrev supremum : RecPtr := pageSupremum p.comp

/-- `page_rec_get_next`. -/
def next (r : RecPtr) : RecPtr := (p.recs r).next

/-- `rec_get_n_owned_old` and `rec_get_n_owned_new`. -/
def nOwned (r : RecPtr) : ℕ := (p.recs r).nOwned

/-- `rec_offs_size`. -/
def recSize (r : RecPtr) : ℕ := (p.recs r).extraSize + (p.recs r).dataSize

def setRec (r : RecPtr) (x : PageRec α) : Page α := { p with recs := Function.update p.recs r x }

/-- `page_rec_set_next`. -/
def setNext (r n : RecPtr) : Page α := p.setRec r { p.recs r with next := n }

def setNOwned (r : RecPtr) (n : ℕ) : Page α := p.setRec r { p.recs r with nOwned := n }

def nth (i : ℕ) : RecPtr := p.next^[i] p.infimum

/-! ## The directory -/

variable (slotNo : ℕ)

/-- `page_dir_slot_get_rec`. -/
def slotGetRec : RecPtr := p.slots.getD slotNo 0

/-- `page_dir_slot_get_n_owned`. -/
def slotGetNOwned : ℕ := p.nOwned (p.slotGetRec slotNo)

/-- `page_dir_slot_set_rec`. -/
def slotSetRec (r : RecPtr) : Page α := { p with slots := p.slots.set slotNo r }

/-- `page_dir_slot_set_n_owned`. -/
def slotSetNOwned (slotNo n : ℕ) : Page α := p.setNOwned (p.slotGetRec slotNo) n

/-- `page_rec_find_owner_rec`, which follows the list of records.  No list has more records
than the page has bytes; `none` means that the loop goes on. -/
def findOwnerRec (r : RecPtr) : ℕ → Option RecPtr
  | 0 => none
  | fuel + 1 => if p.nOwned r = 0 then findOwnerRec (p.next r) fuel else some r

/-- The second loop of `page_dir_find_owner_slot`, from the last slot back to the first.  If
no slot points to the record, the server stops with an error. -/
def findSlot (r : RecPtr) : ℕ → Option ℕ
  | 0 => none
  | n + 1 => if p.slotGetRec n = r then some n else findSlot r n

/-- `page_dir_find_owner_slot`. -/
def dirFindOwnerSlot (r : RecPtr) : Option ℕ :=
  (p.findOwnerRec r univPageSize).bind fun owner => p.findSlot owner p.slots.length

/-- `page_dir_delete_slot`. -/
def dirDeleteSlot : Page α :=
  let nOwned := p.slotGetNOwned slotNo
  let p := p.slotSetNOwned slotNo 0
  let p := p.slotSetNOwned (slotNo + 1) (nOwned + p.slotGetNOwned (slotNo + 1))
  { p with slots := p.slots.eraseIdx slotNo }

/-- `page_dir_add_slot`: the slots above `start` move up, and the new one still has the value
of the slot that was there. -/
def dirAddSlot (start : ℕ) : Page α :=
  { p with slots := p.slots.insertIdx (start + 1) (p.slotGetRec (start + 1)) }

/-- `page_dir_split_slot`. -/
def dirSplitSlot : Page α :=
  let nOwned := p.slotGetNOwned slotNo
  let r := p.next^[nOwned / 2] (p.slotGetRec (slotNo - 1))
  let p := p.dirAddSlot (slotNo - 1)
  let p := p.slotSetRec slotNo r
  let p := p.slotSetNOwned slotNo (nOwned / 2)
  p.slotSetNOwned (slotNo + 1) (nOwned - nOwned / 2)

/-- `page_dir_balance_slot`. -/
def dirBalanceSlot : Page α :=
  if slotNo = p.slots.length - 1 then p
  else
    let nOwned := p.slotGetNOwned slotNo
    let upNOwned := p.slotGetNOwned (slotNo + 1)
    if pageDirSlotMinNOwned < upNOwned then
      let oldRec := p.slotGetRec slotNo
      let newRec := p.next oldRec
      let p := p.setNOwned oldRec 0
      let p := p.setNOwned newRec (nOwned + 1)
      let p := p.slotSetRec slotNo newRec
      p.slotSetNOwned (slotNo + 1) (upNOwned - 1)
    else p.dirDeleteSlot slotNo

/-! ## Memory -/

/-- `page_dir_calc_reserved_space`. -/
def dirCalcReservedSpace (nRecs : ℕ) : ℕ :=
  (pageDirSlotSize * nRecs + pageDirSlotMinNOwned - 1) / pageDirSlotMinNOwned

/-- `page_get_max_insert_size`. -/
def getMaxInsertSize (nRecs : ℕ) : ℕ :=
  let occupied := p.heapTop - pageSupremumEnd p.comp + dirCalcReservedSpace (nRecs + p.nHeap - 2)
  let freeSpace := univPageSize - pageSupremumEnd p.comp - pageDir - 2 * pageDirSlotSize
  if freeSpace < occupied then 0 else freeSpace - occupied

/-- `page_mem_alloc_heap`: the start of the block and the heap number. -/
def memAllocHeap (need : ℕ) : Option (ℕ × ℕ × Page α) :=
  if need ≤ p.getMaxInsertSize 1 then
    some (p.heapTop, p.nHeap, { p with heapTop := p.heapTop + need, nHeap := p.nHeap + 1 })
  else none

/-- Step 2 of `page_cur_insert_rec_low`, with `page_mem_alloc_free`: only the head of the
list of freed records is looked at. -/
def memAlloc (need : ℕ) : Option (ℕ × ℕ × Page α) :=
  if p.free ≠ 0 ∧ need ≤ p.recSize p.free then
    some (p.free - (p.recs p.free).extraSize, (p.recs p.free).heapNo,
      { p with free := p.next p.free, garbage := p.garbage - need })
  else p.memAllocHeap need

/-- `page_mem_free`. -/
def memFree (r : RecPtr) : Page α :=
  { p.setNext r p.free with
    free := r
    garbage := p.garbage + p.recSize r
    nRecs := p.nRecs - 1 }

end Page

end MySQL.Innobase
