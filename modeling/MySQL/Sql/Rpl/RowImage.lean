import MySQL.Lib.Memory

/-!
# Row images

A row is written to the binary log as one NULL bit for each of the columns that are used, followed
by the packed values of those that are not NULL.  The reader walks through the columns of its own
table first and skips the other ones of the writer's table afterwards.
-/

namespace MySQL.Sql.Rpl

open Lib

/-- `MY_BITMAP`. -/
structure Bitmap where
  nBits : ℕ
  isSet : ℕ → Bool

/-- `bitmap_bits_set`. -/
def Bitmap.bitsSet (b : Bitmap) : ℕ := (List.range b.nBits).countP b.isSet

/-- The fields of a table: whether they can be NULL, where they are in the record, and how a value
is packed and unpacked.  Unpacking gives the number of bytes, too. -/
structure Table (V : Type*) where
  fields : ℕ
  maybeNull : ℕ → Bool
  offset : ℕ → ℕ
  reclength : ℕ
  pack : ℕ → V → List UInt8
  unpack : ℕ → (ℕ → UInt8) → V × ℕ
  empty : ℕ → V
  default : ℕ → V × Bool

/-- `table_def`: what is known of the writer's table. -/
structure TableDef where
  size : ℕ
  maybeNull : ℕ → Bool
  calcFieldSize : ℕ → (ℕ → UInt8) → ℕ

/-- A record: the values and the NULL bits of its columns. -/
structure Record (V : Type*) where
  value : ℕ → V
  null : ℕ → Bool

variable {V : Type*}

/-! ## Fields -/

def Table.isNull (t : Table V) (r : Record V) (i : ℕ) : Bool := t.maybeNull i && r.null i

namespace Record

def setValue (r : Record V) (i : ℕ) (v : V) : Record V :=
  { r with value := Function.update r.value i v }

def setBit (t : Table V) (r : Record V) (i : ℕ) (b : Bool) : Record V :=
  if t.maybeNull i then { r with null := Function.update r.null i b } else r

def setDefault (t : Table V) (r : Record V) (i : ℕ) : Record V :=
  (r.setValue i (t.default i).1).setBit t i (t.default i).2

end Record

/-! ## Writing -/

/-- The variables of the loop of `pack_row`. -/
structure Packer where
  mem : ℕ → UInt8
  packPtr : ℕ
  nullPtr : ℕ
  nullBits : BitVec 32
  nullMask : BitVec 32

namespace Packer

def put (t : Table V) (r : Record V) (s : Packer) (i : ℕ) : Packer :=
  if t.isNull r i then { s with nullBits := s.nullBits ||| s.nullMask }
  else
    { s with
      nullBits := s.nullBits &&& ~~~s.nullMask
      mem := write s.mem s.packPtr (t.pack i (r.value i))
      packPtr := s.packPtr + (t.pack i (r.value i)).length }

def advance (s : Packer) : Packer :=
  let mask : BitVec 32 := s.nullMask <<< (1 : ℕ)
  if mask &&& 0xFF = 0 then
    { s with
      nullMask := 1
      mem := write s.mem s.nullPtr [UInt8.ofBitVec (s.nullBits.setWidth 8)]
      nullPtr := s.nullPtr + 1
      nullBits := 0xFF }
  else { s with nullMask := mask }

/-- One turn of the loop of `pack_row`. -/
def step (t : Table V) (cols : Bitmap) (r : Record V) (s : Packer) (i : ℕ) : Packer :=
  if cols.isSet i then (s.put t r i).advance else s

end Packer

/-- `pack_row`: what is written at the pointer, and how long it is. -/
def packRow (t : Table V) (cols : Bitmap) (mem : ℕ → UInt8) (r : Record V) : (ℕ → UInt8) × ℕ :=
  let s := (List.range t.fields).foldl (Packer.step t cols r)
    ⟨mem, (cols.bitsSet + 7) / 8, 0, 0xFF, 1⟩
  let mem :=
    if (1 : BitVec 32) < s.nullMask &&& 0xFF then
      write s.mem s.nullPtr [UInt8.ofBitVec (s.nullBits.setWidth 8)]
    else s.mem
  (mem, s.packPtr)

/-! ## Reading -/

/-- The variables of the loops of `unpack_row`. -/
structure Unpacker (V : Type*) where
  row : Record V
  packPtr : ℕ
  nullPtr : ℕ
  nullBits : BitVec 32
  nullMask : BitVec 32

namespace Unpacker

def refill (mem : ℕ → UInt8) (s : Unpacker V) : Unpacker V :=
  if s.nullMask &&& 0xFF = 0 then
    { s with
      nullMask := 1
      nullBits := (mem s.nullPtr).toBitVec.setWidth 32
      nullPtr := s.nullPtr + 1 }
  else s

def isNull (s : Unpacker V) : Bool := s.nullBits &&& s.nullMask ≠ 0

def read (t : Table V) (mem : ℕ → UInt8) (s : Unpacker V) (i : ℕ) : Unpacker V :=
  if s.isNull then
    if t.maybeNull i then { s with row := (s.row.setValue i (t.empty i)).setBit t i true }
    else { s with row := s.row.setDefault t i }
  else
    let (v, n) := t.unpack i (shifted mem s.packPtr)
    { s with row := (s.row.setBit t i false).setValue i v, packPtr := s.packPtr + n }

def pass (d : TableDef) (mem : ℕ → UInt8) (s : Unpacker V) (i : ℕ) : Unpacker V :=
  if s.isNull && d.maybeNull i then s
  else { s with packPtr := s.packPtr + d.calcFieldSize i (shifted mem s.packPtr) }

def advance (s : Unpacker V) : Unpacker V := { s with nullMask := s.nullMask <<< (1 : ℕ) }

def step (t : Table V) (cols : Bitmap) (mem : ℕ → UInt8) (s : Unpacker V) (i : ℕ) : Unpacker V :=
  if cols.isSet i then ((s.refill mem).read t mem i).advance else s

def skip (d : TableDef) (cols : Bitmap) (mem : ℕ → UInt8) (s : Unpacker V) (i : ℕ) : Unpacker V :=
  if cols.isSet i then ((s.refill mem).pass d mem i).advance else s

end Unpacker

/-- The results of `unpack_row`. -/
structure Unpacked (V : Type*) where
  row : Record V
  rowEnd : ℕ
  masterReclength : ℕ

/-- `unpack_row`, for a table without conversions; it fails if the table is not known. -/
def unpackRow (tabledef : Option TableDef) (t : Table V) (colcnt : ℕ) (mem : ℕ → UInt8)
    (cols : Bitmap) (row : Record V) : Option (Unpacked V) :=
  tabledef.map fun d =>
    let s : Unpacker V := ⟨row, (cols.bitsSet + 7) / 8, 1, (mem 0).toBitVec.setWidth 32, 1⟩
    let last := min colcnt t.fields
    let s := (List.range last).foldl (Unpacker.step t cols mem) s
    let s := (List.range' last (min d.size cols.nBits - last)).foldl
      (Unpacker.skip d cols mem) s
    ⟨s.row, s.packPtr, if last < t.fields then t.offset last else t.reclength⟩

end MySQL.Sql.Rpl
