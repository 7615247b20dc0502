import MySQL.Lib.Memory

/-!
# Packed rows

A row of a table with dynamic rows begins with one bit for each column that can be shortened.
Behind the bits are the columns: those with spaces at one end without them, those with zeros not at
all, and strings and BLOBs as long as they are.  The same layout is known to three functions: one
that packs a row, one that unpacks it, and one that checks a packed row.
-/

namespace MySQL.Myisam

open Lib

/-! ## Columns -/

/-- The types of `en_fieldtype` that columns of dynamic rows have. -/
inductive FieldType
  | normal
  | skipEndspace
  | skipPrespace
  | skipZero
  | blob
  | varchar
  deriving DecidableEq

/-- `MI_COLUMNDEF`. -/
structure ColumnDef where
  type : FieldType
  length : ℕ

/-- The part of a record that belongs to a column.  A BLOB has a length and a pointer. -/
structure Cell where
  bytes : List UInt8
  ptr : ℕ

/-- `portable_sizeof_char_ptr`. -/
def sizeofCharPtr : ℕ := 8

/-- The columns of a table, and whether its rows have checksums. -/
structure Share where
  columns : List ColumnDef
  calcChecksum : Bool

def FieldType.hasBit : FieldType → Bool
  | .blob | .skipZero | .skipEndspace | .skipPrespace => true
  | .normal | .varchar => false

/-- What `mi_create` counts for a column. -/
def ColumnDef.minLength (c : ColumnDef) : ℕ :=
  match c.type with
  | .normal => c.length
  | .skipEndspace | .skipPrespace | .varchar => 1
  | .skipZero | .blob => 0

def Share.packBits (s : Share) : ℕ := (s.columns.countP (·.type.hasBit) + 7) / 8

def Share.minPackLength (s : Share) : ℕ :=
  (s.columns.map ColumnDef.minLength).sum + (if s.calcChecksum then 1 else 0) + s.packBits

def Share.reclength (s : Share) : ℕ := (s.columns.map ColumnDef.length).sum

/-! ## Lengths -/

/-- `uint2korr` and the like: a number with the low byte first. -/
def korr : List UInt8 → ℕ
  | [] => 0
  | b :: bs => b.toNat + 256 * korr bs

/-- `_mi_calc_blob_length`. -/
def calcBlobLength (n : ℕ) (pos : List UInt8) : ℕ :=
  if 1 ≤ n ∧ n ≤ 4 then korr (pos.take n) else 0

/-- `HA_VARCHAR_PACKLENGTH`. -/
def varcharPackLength (fieldLength : ℕ) : ℕ := if fieldLength < 256 then 1 else 2

/-- `store_key_length_inc`. -/
def storeKeyLength (n : ℕ) : List UInt8 :=
  if n < 255 then [.ofNat n] else [255, .ofNat (n / 256), .ofNat n]

/-- `get_key_length`: the length, and how many bytes it has. -/
def getKeyLength (mem : ℕ → UInt8) (p : ℕ) : ℕ × ℕ :=
  if mem p ≠ 255 then ((mem p).toNat, 1)
  else (256 * (mem (p + 1)).toNat + (mem (p + 2)).toNat, 3)

def isSpace (b : UInt8) : Bool := b == 32

def spaceLength (length newLength : ℕ) : List UInt8 :=
  if length > 255 ∧ newLength > 127 then [.ofNat (newLength % 128 + 128), .ofNat (newLength / 128)]
  else [.ofNat newLength]

def strips (length newLength : ℕ) : Bool :=
  newLength + 1 + (if length > 255 ∧ newLength > 127 then 1 else 0) < length

def ColumnDef.stripped (c : ColumnDef) (bytes : List UInt8) : List UInt8 :=
  if c.type = .skipEndspace then bytes.rdropWhile isSpace else bytes.dropWhile isSpace

/-- The lengths of the BLOBs of a record, as `_mi_calc_total_blob_length` notes them. -/
def blobLengths (row : List (ColumnDef × Cell)) : List ℕ :=
  row.filterMap fun (c, cell) =>
    if c.type = .blob then some (calcBlobLength (c.length - sizeofCharPtr) cell.bytes) else none

/-! ## Packing -/

/-- What is written for a column, and its bit if it has one.  Columns are compared with the bytes at
`zero_string`. -/
def packColumn (zeroString blobData : ℕ → UInt8) (c : ColumnDef) (cell : Cell) (blobLength : ℕ) :
    Option Bool × List UInt8 :=
  match c.type with
  | .normal => (none, cell.bytes)
  | .blob =>
    if blobLength = 0 then (some true, [])
    else (some false, cell.bytes ++ slice blobData cell.ptr blobLength)
  | .skipZero =>
    if cell.bytes = slice zeroString 0 c.length then (some true, []) else (some false, cell.bytes)
  | .skipEndspace | .skipPrespace =>
    let bytes := c.stripped cell.bytes
    if strips c.length bytes.length then (some true, spaceLength c.length bytes.length ++ bytes)
    else (some false, cell.bytes)
  | .varchar =>
    if varcharPackLength (c.length - 1) = 1 then
      (none, cell.bytes.take 1 ++ (cell.bytes.drop 1).take (korr (cell.bytes.take 1)))
    else
      let length := korr (cell.bytes.take 2)
      (none, storeKeyLength length ++ (cell.bytes.drop 2).take length)

/-- The variables of `_mi_rec_pack`. -/
structure Packer where
  mem : ℕ → UInt8
  dst : ℕ
  packpos : ℕ
  flag : BitVec 32
  bit : BitVec 32
  blobs : List ℕ

namespace Packer

def nextBit (s : Packer) : Packer :=
  let bit : BitVec 32 := s.bit <<< (1 : ℕ)
  if bit ≥ 256 then
    { s with
      mem := write s.mem s.packpos [UInt8.ofBitVec (s.flag.setWidth 8)]
      packpos := s.packpos + 1
      bit := 1
      flag := 0 }
  else { s with bit := bit }

def step (zeroString blobData : ℕ → UInt8) (s : Packer) (c : ColumnDef × Cell) : Packer :=
  let (flagged, bytes) := packColumn zeroString blobData c.1 c.2 (s.blobs.headD 0)
  let s : Packer :=
    { s with
      mem := write s.mem s.dst bytes
      dst := s.dst + bytes.length
      blobs := if c.1.type = .blob then s.blobs.tail else s.blobs }
  match flagged with
  | none => s
  | some true => { s with flag := s.flag ||| s.bit }.nextBit
  | some false => s.nextBit

end Packer

/-- `_mi_rec_pack`: the packed row, and its length. -/
def recPack (share : Share) (checksum : UInt8) (zeroString blobData : ℕ → UInt8) (blobs : List ℕ)
    (mem : ℕ → UInt8) (record : List Cell) : (ℕ → UInt8) × ℕ :=
  let s := (share.columns.zip record).foldl (Packer.step zeroString blobData)
    ⟨mem, share.packBits, 0, 0, 1, blobs⟩
  let mem :=
    if s.bit ≠ 1 then write s.mem s.packpos [UInt8.ofBitVec (s.flag.setWidth 8)] else s.mem
  let (mem, dst) :=
    if share.calcChecksum then (write mem s.dst [checksum], s.dst + 1) else (mem, s.dst)
  (mem, dst % 4294967296)

/-! ## Unpacking -/

/-- The difference of two numbers of type `uint`. -/
def uintSub (a b : ℕ) : ℕ := (((a : ℤ) - b) % 4294967296).toNat

/-- The difference of two pointers as a `uint`. -/
def uintDiff (p q : ℕ) : ℕ := (((p : ℤ) - q) % 4294967296).toNat

/-- The difference of two pointers as a `ulong`. -/
def ulongDiff (p q : ℕ) : ℕ := (((p : ℤ) - q) % 18446744073709551616).toNat

def getSpaceLength (mem : ℕ → UInt8) (length src srcEnd : ℕ) : Option (ℕ × ℕ) :=
  if length > 255 ∧ 128 ≤ (mem src).toNat then
    if src + 1 ≥ srcEnd then none
    else some ((mem src).toNat % 128 + (mem (src + 1)).toNat * 128, 2)
  else if src = srcEnd then none
  else some ((mem src).toNat, 1)

/-- What unpacking a column gives: its part of the record, where the next column is, and the length
that the other columns have at least. -/
abbrev UnpackedColumn := Cell × ℕ × ℕ

variable (mem : ℕ → UInt8) (srcEnd : ℕ) (c : ColumnDef)

variable (cell : Cell) (src minPackLength : ℕ)

def unpackNormal : Option UnpackedColumn :=
  if minPackLength > uintDiff srcEnd src then none
  else some (⟨slice mem src c.length, cell.ptr⟩, src + c.length, minPackLength - c.length)

def unpackVarchar : Option UnpackedColumn :=
  let packLength := varcharPackLength (uintSub c.length 1)
  let (length, n) := if packLength = 1 then ((mem src).toNat, 1) else getKeyLength mem src
  let lengthBytes : List UInt8 :=
    if packLength = 1 then [mem src] else [.ofNat length, .ofNat (length / 256)]
  if length > uintSub c.length packLength then none
  else if src + n + length > srcEnd then none
  else
    some (⟨lengthBytes ++ slice mem (src + n) length ++ cell.bytes.drop (packLength + length),
      cell.ptr⟩, src + n + length, minPackLength - 1)

def unpackStripped : Option UnpackedColumn := do
  let (length, n) ← getSpaceLength mem c.length src srcEnd
  let minPackLength := minPackLength - 1
  if length ≥ c.length ∨ minPackLength + length > uintDiff srcEnd (src + n) then none
  else
    let bytes := slice mem (src + n) length
    let spaces := List.replicate (c.length - length) 32
    some (⟨if c.type = .skipEndspace then bytes ++ spaces else spaces ++ bytes, cell.ptr⟩,
      src + n + length, minPackLength)

def unpackBlob : Option UnpackedColumn :=
  let sizeLength := c.length - sizeofCharPtr
  let blobLength := calcBlobLength sizeLength (slice mem src sizeLength)
  let srcLeft := ulongDiff srcEnd src
  if srcLeft < sizeLength ∨ srcLeft - sizeLength < blobLength ∨
      srcLeft - sizeLength - blobLength < minPackLength then none
  else
    some (⟨slice mem src sizeLength, src + sizeLength⟩, src + sizeLength + blobLength,
      minPackLength)

def unpackWhole : Option UnpackedColumn :=
  let minPackLength := if c.type = .skipZero then minPackLength else minPackLength - 1
  if minPackLength + c.length > uintDiff srcEnd src then none
  else some (⟨slice mem src c.length, cell.ptr⟩, src + c.length, minPackLength)

def unpackColumn (flagged : Bool) (src minPackLength : ℕ) : Option UnpackedColumn :=
  match c.type with
  | .normal => unpackNormal mem srcEnd c cell src minPackLength
  | .varchar => unpackVarchar mem srcEnd c cell src minPackLength
  | .blob =>
    if flagged then
      some (⟨List.replicate (c.length - sizeofCharPtr) 0, 0⟩, src, minPackLength)
    else unpackBlob mem srcEnd c src minPackLength
  | .skipZero =>
    if flagged then some (⟨List.replicate c.length 0, cell.ptr⟩, src, minPackLength)
    else unpackWhole mem srcEnd c cell src minPackLength
  | .skipEndspace | .skipPrespace =>
    if flagged then unpackStripped mem srcEnd c cell src minPackLength
    else unpackWhole mem srcEnd c cell src minPackLength

/-- The variables for the bits of a packed row. -/
structure BitReader where
  packpos : ℕ
  flag : BitVec 32
  bit : BitVec 32

namespace BitReader

def init (mem : ℕ → UInt8) : BitReader := ⟨0, (mem 0).toBitVec.setWidth 32, 1⟩

def isSet (r : BitReader) : Bool := r.flag &&& r.bit ≠ 0

def next (mem : ℕ → UInt8) (r : BitReader) : BitReader :=
  let bit : BitVec 32 := r.bit <<< (1 : ℕ)
  if bit ≥ 256 then ⟨r.packpos + 1, (mem (r.packpos + 1)).toBitVec.setWidth 32, 1⟩
  else { r with bit := bit }

def atEnd (r : BitReader) : Bool := r.bit = 1 ∨ r.flag &&& ~~~(r.bit - 1) = 0

end BitReader

/-- The variables of `_mi_rec_unpack`. -/
structure Unpacker where
  bits : BitReader
  src : ℕ
  dst : ℕ
  minPackLength : ℕ
  record : List Cell

def Unpacker.step (s : Unpacker) (c : ColumnDef × Cell) :
    Option Unpacker := do
  let (cell, src, minPackLength) ←
    unpackColumn mem srcEnd c.1 c.2 s.bits.isSet s.src s.minPackLength
  some ⟨if c.1.type.hasBit then s.bits.next mem else s.bits, src, s.dst + c.1.length, minPackLength,
    s.record ++ [cell]⟩

/-- `_mi_rec_unpack`: the record, which has other bytes behind the strings. -/
def recUnpack (share : Share) (mem : ℕ → UInt8) (foundLength : ℕ) (target : List Cell) :
    Option (List Cell) := do
  if foundLength < share.minPackLength then none
  else
    let s ← (share.columns.zip target).foldlM (Unpacker.step mem foundLength)
      ⟨.init mem, share.packBits, 0, share.minPackLength - share.packBits, []⟩
    let src := if share.calcChecksum then s.src + 1 else s.src
    if s.dst = share.reclength ∧ src = foundLength ∧ s.bits.atEnd then some s.record else none

/-! ## Checking -/

/-- A column is checked that has a length `newLength` without its spaces. -/
def checkSpaces (length newLength : ℕ) (flagged : Bool) (dst : ℕ) : Option ℕ :=
  if strips length newLength then
    if !flagged then none
    else if length > 255 ∧ newLength > 127 then
      if mem dst ≠ .ofNat (newLength % 128 + 128) ∨ mem (dst + 1) ≠ .ofNat (newLength / 128) then
        none
      else some (dst + 2 + newLength)
    else if mem dst ≠ .ofNat newLength then none
    else some (dst + 1 + newLength)
  else some (dst + length)

def checkColumn (zeroString mem : ℕ → UInt8) (c : ColumnDef) (cell : Cell) (flagged : Bool)
    (dst : ℕ) : Option ℕ :=
  match c.type with
  | .normal => some (dst + c.length)
  | .blob =>
    let blobLength := calcBlobLength (c.length - sizeofCharPtr) cell.bytes
    if blobLength = 0 ∧ !flagged then none
    else if blobLength ≠ 0 then some (dst + (c.length - sizeofCharPtr) + blobLength)
    else some dst
  | .skipZero =>
    if cell.bytes = slice zeroString 0 c.length then if !flagged then none else some dst
    else some (dst + c.length)
  | .skipEndspace | .skipPrespace =>
    checkSpaces mem c.length (c.stripped cell.bytes).length flagged dst
  | .varchar =>
    if varcharPackLength (c.length - 1) = 1 then some (dst + 1 + korr (cell.bytes.take 1))
    else
      let length := korr (cell.bytes.take 2)
      some (dst + (if length ≥ 255 then 3 else 1) + length)

/-- The variables of `_mi_rec_check`. -/
structure Checker where
  bits : BitReader
  dst : ℕ

def Checker.step (zeroString mem : ℕ → UInt8) (s : Checker) (c : ColumnDef × Cell) :
    Option Checker := do
  let dst ← checkColumn zeroString mem c.1 c.2 s.bits.isSet s.dst
  some ⟨if c.1.type.hasBit then s.bits.next mem else s.bits, dst⟩

/-- `_mi_rec_check`: whether the packed row is right. -/
def recCheck (share : Share) (checksum : UInt8) (zeroString : ℕ → UInt8) (record : List Cell)
    (mem : ℕ → UInt8) (packedLength : ℕ) (withChecksum : Bool) : Bool :=
  match (share.columns.zip record).foldlM (Checker.step zeroString mem)
    ⟨.init mem, share.packBits⟩ with
  | none => false
  | some s =>
    packedLength = s.dst % 4294967296 + (if share.calcChecksum then 1 else 0) ∧ s.bits.atEnd ∧
      ¬ (withChecksum ∧ checksum ≠ mem s.dst)

end MySQL.Myisam
