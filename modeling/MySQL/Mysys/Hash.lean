import MySQL.Lib.Chains
import MySQL.Lib.System

/-!
# Hash tables

`HASH` keeps its records in a dynamic array that grows by one slot with every record.  A slot
holds a record and the index of the next slot of its chain; the chain of a key begins at the slot
`my_hash_mask` of its hash value.  A slot whose own chain is empty may hold a record of another
chain.
-/

namespace MySQL.Mysys

open Lib Function

/-- `HASH_LINK`; `none` is `NO_RECORD`. -/
abbrev HashLink (ρ : Type*) := Cell ℕ ρ

/-- `HASH`.  The slots from `records` on hold what was left there. -/
structure Hash (ρ : Type*) where
  array : ℕ → HashLink ρ
  records : ℕ
  blength : ℕ

/-- `calc_hash`, and `hashcmp` as an equality of keys that is compatible with it. -/
structure KeyOps (κ : Type*) where
  calcHash : κ → ℕ
  same : κ → κ → Bool
  equivalence : Equivalence fun a b => same a b = true
  calcHash_eq : ∀ a b, same a b = true → calcHash a = calcHash b

/-- `hashnr & (n - 1)`; in `size_t`, `0 - 1` has all bits set. -/
def maskBits (hashnr n : ℕ) : ℕ := if n = 0 then hashnr else hashnr &&& (n - 1)

def myHashMask (hashnr buffmax maxlength : ℕ) : ℕ :=
  if maskBits hashnr buffmax < maxlength then maskBits hashnr buffmax
  else maskBits hashnr (buffmax >>> 1)

variable {ρ κ : Type*}

section Model

-- `key` is what `my_hash_key` finds in a record
variable [DecidableEq ρ] (ops : KeyOps κ) (key : ρ → κ)

def recHashnr (r : ρ) : ℕ := ops.calcHash (key r)

def myHashRecMask (pos : HashLink ρ) (buffmax maxlength : ℕ) : ℕ :=
  myHashMask (recHashnr ops key pos.data) buffmax maxlength

/-- A chain has no more links than there are records, so that `movelink` ends. -/
def movelink (array : ℕ → HashLink ρ) (records : ℕ) (find : Option ℕ) (nextLink : ℕ)
    (newlink : Option ℕ) : Option (ℕ → HashLink ρ) :=
  relink array find newlink (records + 1) nextLink

/-! ## Search -/

/-- The loop of `my_hash_first_from_hash_value`: the index of the record that is found.  The
outer `none` means that the loop goes on. -/
def firstLoop (h : Hash ρ) (k : κ) : ℕ → Bool → ℕ → Option (Option ℕ)
  | 0, _, _ => none
  | fuel + 1, flag, idx =>
    let pos := h.array idx
    if ops.same (key pos.data) k then some (some idx)
    else if flag ∧ myHashRecMask ops key pos h.blength h.records ≠ idx then some none
    else match pos.next with
      | none => some none
      | some idx => firstLoop h k fuel false idx

/-- `my_hash_first`. -/
def myHashFirst (h : Hash ρ) (k : κ) : Option (Option ℕ) :=
  if h.records ≠ 0 then
    firstLoop ops key h k (h.records + 1) true (myHashMask (ops.calcHash k) h.blength h.records)
  else some none

/-- The loop of `my_hash_next`. -/
def nextLoop (h : Hash ρ) (k : κ) : ℕ → Option ℕ → Option (Option ℕ)
  | _, none => some none
  | 0, some _ => none
  | fuel + 1, some idx =>
    if ops.same (key (h.array idx).data) k then some (some idx)
    else nextLoop h k fuel (h.array idx).next

/-- `my_hash_next`. -/
def myHashNext (h : Hash ρ) (k : κ) : Option ℕ → Option (Option ℕ)
  | none => some none
  | some idx => nextLoop ops key h k (h.records + 1) (h.array idx).next

/-! ## Insert -/

/-- The variables of the loop of `my_hash_insert` that splits a chain.  The four Booleans are the
bits of `flag`. -/
structure Split (ρ : Type*) where
  array : ℕ → HashLink ρ
  lowfind : Bool
  lowused : Bool
  highfind : Bool
  highused : Bool
  gpos : ℕ
  ptrToRec : ρ
  gpos2 : ℕ
  ptrToRec2 : ρ
  empty : ℕ

def Split.low (s : Split ρ) (pos : ℕ) : Split ρ :=
  if s.lowfind = false then
    if s.highfind then
      { s with
        lowfind := true, lowused := false, highfind := true, highused := false
        gpos := s.empty, ptrToRec := (s.array pos).data, empty := pos }
    else
      { s with
        lowfind := true, lowused := true, highfind := false, highused := false
        gpos := pos, ptrToRec := (s.array pos).data }
  else
    let s := if s.lowused = false then
        { s with
          array := update s.array s.gpos ⟨some pos, s.ptrToRec⟩
          lowfind := true, lowused := true, highused := false }
      else s
    { s with gpos := pos, ptrToRec := (s.array pos).data }

def Split.high (s : Split ρ) (pos : ℕ) : Split ρ :=
  if s.highfind = false then
    { s with
      lowused := false, highfind := true, highused := false
      gpos2 := s.empty, empty := pos, ptrToRec2 := (s.array pos).data }
  else
    let s := if s.highused = false then
        { s with
          array := update s.array s.gpos2 ⟨some pos, s.ptrToRec2⟩
          lowused := false, highfind := true, highused := true }
      else s
    { s with gpos2 := pos, ptrToRec2 := (s.array pos).data }

def Split.body (halfbuff : ℕ) (s : Split ρ) (pos : ℕ) : Split ρ :=
  if recHashnr ops key (s.array pos).data &&& halfbuff = 0 then s.low pos else s.high pos

def splitLoop (halfbuff : ℕ) : ℕ → Split ρ → Option ℕ → Option (Split ρ)
  | _, s, none => some s
  | 0, _, some _ => none
  | fuel + 1, s, some pos =>
    let s := s.body ops key halfbuff pos
    splitLoop halfbuff fuel s (s.array pos).next

def Split.finish (s : Split ρ) : Split ρ :=
  let s := if s.lowfind ∧ s.lowused = false then
      { s with array := update s.array s.gpos ⟨none, s.ptrToRec⟩ }
    else s
  if s.highfind ∧ s.highused = false then
    { s with array := update s.array s.gpos2 ⟨none, s.ptrToRec2⟩ }
  else s

/-- The first part of `my_hash_insert`: the array and the empty slot.  If the slot at the first
index is of another chain, the loop is left at once. -/
def split (h : Hash ρ) (record : ρ) : Option ((ℕ → HashLink ρ) × ℕ) :=
  let halfbuff := h.blength >>> 1
  let firstIndex := h.records - halfbuff
  if firstIndex ≠ h.records ∧
      myHashRecMask ops key (h.array firstIndex) h.blength h.records = firstIndex then
    let s : Split ρ :=
      ⟨h.array, false, false, false, false, 0, record, 0, record, h.records⟩
    (splitLoop ops key halfbuff (h.records + 1) s (some firstIndex)).map fun s =>
      (s.finish.array, s.finish.empty)
  else some (h.array, h.records)

variable (array : ℕ → HashLink ρ)

def placeFirst (blength records empty : ℕ) (record : ρ) : Option (ℕ → HashLink ρ) :=
  let idx := myHashMask (recHashnr ops key record) blength records
  if idx = empty then some (update array idx ⟨none, record⟩)
  else
    let pos := array idx
    let array := update array empty pos
    let gpos := myHashRecMask ops key pos blength records
    if idx = gpos then some (update array idx ⟨some empty, record⟩)
    else movelink (update array idx ⟨none, record⟩) records (some idx) gpos (some empty)

/-- `my_hash_insert`: whether it failed, and the table.  `alloc` says whether there is memory for
one more slot, `unique` is the flag `HASH_UNIQUE`. -/
def myHashInsert (unique alloc : Bool) (h : Hash ρ) (record : ρ) : Option (Bool × Hash ρ) :=
  (if unique then myHashFirst ops key h (key record) else some none).bind fun found =>
    if found.isSome ∨ alloc = false then some (true, h)
    else
      (split ops key h record).bind fun (array, empty) =>
        (placeFirst ops key array h.blength (h.records + 1) empty record).map fun array =>
          (false, ⟨array, h.records + 1,
            if h.records + 1 = h.blength then h.blength + h.blength else h.blength⟩)

/-! ## Delete -/

/-- The search of a record by its address: the slots of the record and of the one in front of
it.  The outer `none` means that the loop goes on. -/
def findRecord (array : ℕ → HashLink ρ) (record : ρ) :
    ℕ → Option ℕ → ℕ → Option (Option (Option ℕ × ℕ))
  | 0, _, _ => none
  | fuel + 1, previous, pos =>
    if (array pos).data = record then some (some (previous, pos))
    else match (array pos).next with
      | none => some none
      | some next => findRecord array record fuel (some pos) next

/-- The record at `pos` is taken out of its chain: the array and the slot that is empty now. -/
def unlinkRecord (previous : Option ℕ) (pos : ℕ) : (ℕ → HashLink ρ) × ℕ :=
  match previous with
  | some gpos => (update array gpos ⟨(array pos).next, (array gpos).data⟩, pos)
  | none =>
    match (array pos).next with
    | some empty => (update array pos (array empty), empty)
    | none => (array, pos)

/-- The last part of `my_hash_delete`: the record of the last slot is moved to the empty one.
`oldBlength` is `blength` before the record was taken out, `records` their number afterwards. -/
def moveLast (oldBlength blength records empty : ℕ) : Option (ℕ → HashLink ρ) :=
  let lastpos := array records
  if empty = records then some array
  else
    let lastposHashnr := recHashnr ops key lastpos.data
    let pos := myHashMask lastposHashnr blength records
    if pos = empty then some (update array empty lastpos)
    else
      let posHashnr := recHashnr ops key (array pos).data
      let pos3 := myHashMask posHashnr blength records
      if pos ≠ pos3 then
        movelink (update (update array empty (array pos)) pos lastpos) records
          (some pos) pos3 (some empty)
      else
        let pos2 := myHashMask lastposHashnr oldBlength (records + 1)
        if pos2 = myHashMask posHashnr oldBlength (records + 1) ∧ pos2 ≠ records then
          movelink (update array empty lastpos) records (some records) pos (some empty)
        else
          let idx := if pos2 = myHashMask posHashnr oldBlength (records + 1) then some pos
            else none
          (movelink (update array empty lastpos) records idx empty (array pos).next).map
            fun array => update array pos ⟨some empty, (array pos).data⟩

/-- `my_hash_delete`: whether it failed, and the table. -/
def myHashDelete (h : Hash ρ) (record : ρ) : Option (Bool × Hash ρ) :=
  if h.records = 0 then some (true, h)
  else
    let pos := myHashMask (recHashnr ops key record) h.blength h.records
    (findRecord h.array record (h.records + 1) none pos).bind fun
      | none => some (true, h)
      | some (gpos, pos) =>
        let records := h.records - 1
        let blength := if records < h.blength >>> 1 then h.blength >>> 1 else h.blength
        let (array, empty) := unlinkRecord h.array gpos pos
        (moveLast ops key array h.blength blength records empty).map fun array =>
          (false, ⟨array, records, blength⟩)

/-! ## Update -/

/-- The test of `my_hash_update` for another record with the new key: whether there is one. -/
def otherRecord (h : Hash ρ) (record : ρ) (k : κ) : ℕ → Option ℕ → Option Bool
  | _, none => some false
  | 0, some _ => none
  | fuel + 1, some idx =>
    if (h.array idx).data ≠ record then some true
    else (myHashNext ops key h k (some idx)).bind (otherRecord h record k fuel)

/-- The last part of `my_hash_update`: the record with the link `orgLink`, that was in the slot
`idx`, is written to a place in its new chain. -/
def placeSecond (blength records idx empty newIndex : ℕ) (orgLink : HashLink ρ) :
    Option (ℕ → HashLink ρ) :=
  if newIndex = empty then
    let array := if empty ≠ idx then update array empty orgLink else array
    some (update array empty ⟨none, (array empty).data⟩)
  else
    let pos := array newIndex
    let newPosIndex := myHashRecMask ops key pos blength records
    if newIndex ≠ newPosIndex then
      (movelink (update array empty pos) records (some newIndex) newPosIndex
        (some empty)).map fun array => update array newIndex ⟨none, orgLink.data⟩
    else
      let array := update array empty ⟨pos.next, orgLink.data⟩
      some (update array newIndex ⟨some empty, (array newIndex).data⟩)

/-- `my_hash_update`: whether it failed, and the table.  The record has its new key already. -/
def myHashUpdate (unique : Bool) (h : Hash ρ) (record : ρ) (oldKey : κ) : Option (Bool × Hash ρ) :=
  (if unique then
    (myHashFirst ops key h (key record)).bind
      (otherRecord ops key h record (key record) (h.records + 1))
  else some false).bind fun other =>
    if other then some (true, h)
    else
      let idx := myHashMask (ops.calcHash oldKey) h.blength h.records
      let newIndex := myHashMask (recHashnr ops key record) h.blength h.records
      if idx = newIndex then some (false, h)
      else
        (findRecord h.array record (h.records + 1) none idx).bind fun
          | none => some (true, h)
          | some (previous, pos) =>
            let orgLink := h.array pos
            let (array, empty) := unlinkRecord h.array previous pos
            (placeSecond ops key array h.blength h.records pos empty newIndex orgLink).map
              fun array => (false, ⟨array, h.records, h.blength⟩)

/-! ## Check -/

/-- The inner loop of `my_hash_check` for the chain that starts at `i`: the number of records
found so far, and whether there is an error. -/
def checkChain (h : Hash ρ) (i : ℕ) : ℕ → ℕ × Bool → Option ℕ → ℕ × Bool
  | _, fe, none => fe
  | 0, fe, some _ => fe
  | fuel + 1, (found, error), some idx =>
    if found < h.records + 1 then
      let error := error || decide (h.records ≤ idx)
      let pos := h.array idx
      if myHashRecMask ops key pos h.blength h.records ≠ i then
        checkChain h i fuel (found, true) pos.next
      else checkChain h i fuel (found + 1, error) pos.next
    else (found, error)

/-- The outer loop, over the slots below `n`. -/
def checkSlots (h : Hash ρ) : ℕ → ℕ × Bool
  | 0 => (0, false)
  | i + 1 =>
    let (found, error) := checkSlots h i
    if myHashRecMask ops key (h.array i) h.blength h.records = i then
      checkChain ops key h i (h.records + 1) (found + 1, error) (h.array i).next
    else (found, error)

/-- `my_hash_check`: `true` is an error. -/
def myHashCheck (h : Hash ρ) : Bool :=
  let (found, error) := checkSlots ops key h h.records
  error || decide (found ≠ h.records)

end Model

/-! ## Steps -/

/-- The calls of a program that uses a table.  Before an update the program writes the new key
into the record. -/
inductive HashAct (ρ κ : Type*) where
  | insert (record : ρ) (alloc : Bool)
  | delete (record : ρ)
  | update (record : ρ) (newKey : κ)

/-- The table, the keys of the records, and the records that were inserted and not deleted. -/
structure HashState (ρ κ : Type*) where
  hash : Hash ρ
  key : ρ → κ
  content : Multiset ρ

namespace HashState

variable [DecidableEq ρ] (ops : KeyOps κ) (unique : Bool)

def call (s : HashState ρ κ) : HashAct ρ κ → Option (HashState ρ κ)
  | .insert record alloc =>
    (myHashInsert ops s.key unique alloc s.hash record).map fun (failed, hash) =>
      ⟨hash, s.key, if failed then s.content else record ::ₘ s.content⟩
  | .delete record =>
    (myHashDelete ops s.key s.hash record).map fun (_, hash) =>
      ⟨hash, s.key, s.content.erase record⟩
  | .update record newKey =>
    (myHashUpdate ops (update s.key record newKey) unique s.hash record
        (s.key record)).map fun (failed, hash) =>
      ⟨hash, if failed then s.key else update s.key record newKey, s.content⟩

end HashState

end MySQL.Mysys
