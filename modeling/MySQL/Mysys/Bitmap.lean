import Mathlib

/-!
# Bitmaps

The bits stand in the bytes of a memory, in the order of their values in a byte.  The array of a
bitmap has whole words.
-/

namespace MySQL.Mysys

open Function

def memset (mem : ℕ → UInt8) (p : ℕ) (c : UInt8) (n : ℕ) : ℕ → UInt8 :=
  fun q => if p ≤ q ∧ q < p + n then c else mem q

/-- `MY_BITMAP`: the address of the bits and their number, an `uint`. -/
structure MyBitmap where
  bitmap : ℕ
  nBits : ℕ
  nBits_lt : nBits < 4294967296

namespace MyBitmap

variable {map : MyBitmap} {mem : ℕ → UInt8} {prefixSize : ℕ}

def noBytesInMap (map : MyBitmap) : ℕ := (map.nBits + 7) % 4294967296 / 8

/-- The number `d` of bytes that are cleared. -/
def clearedBytes (map : MyBitmap) (prefixSize : ℕ) : ℕ :=
  (map.noBytesInMap + 4294967296 - prefixSize / 8) % 4294967296

section

variable (map : MyBitmap) (prefixSize : ℕ) (mem : ℕ → UInt8)

def bitmapSetPrefix : ℕ → UInt8 :=
  let prefixSize := if prefixSize > map.nBits then map.nBits else prefixSize
  let prefixBytes := prefixSize / 8
  let mem := if prefixBytes ≠ 0 then memset mem map.bitmap 0xff prefixBytes else mem
  let m := map.bitmap + prefixBytes
  let prefixBits := prefixSize % 8
  let (mem, m) := if prefixBits ≠ 0 then (update mem m (UInt8.ofNat (2 ^ prefixBits - 1)), m + 1)
    else (mem, m)
  let d := map.clearedBytes prefixSize
  if d ≠ 0 then memset mem m 0 d else mem

/-- `bitmap_is_set`. -/
def bitmapIsSet (bit : ℕ) : Bool :=
  (mem (map.bitmap + bit / 8)).toNat.testBit (bit % 8)

/-- The first bits are set and the others are not, and no byte that is not of the words of the
bitmap has changed. -/
def IsPrefixSet (mem mem' : ℕ → UInt8) : Prop :=
  (∀ bit < map.nBits, map.bitmapIsSet mem' bit = decide (bit < prefixSize)) ∧
    ∀ q, q < map.bitmap ∨ map.bitmap + (map.nBits + 31) / 32 * 4 ≤ q → mem' q = mem q

theorem ite_memset (p : ℕ) (c : UInt8) (n : ℕ) :
    (if n ≠ 0 then memset mem p c n else mem) = memset mem p c n := by
  split_ifs with hn
  · rfl
  · funext q
    exact (if_neg (by omega)).symm

end

theorem bitmapSetPrefix_apply (hle : prefixSize ≤ map.nBits) (q : ℕ) :
    map.bitmapSetPrefix prefixSize mem q =
      if q < map.bitmap ∨ map.bitmap + ((prefixSize + 7) / 8 + map.clearedBytes prefixSize) ≤ q then
        mem q
      else if q < map.bitmap + prefixSize / 8 then 0xff
      else if q < map.bitmap + (prefixSize + 7) / 8 then UInt8.ofNat (2 ^ (prefixSize % 8) - 1)
      else 0 := by
  simp only [bitmapSetPrefix, if_neg (not_lt.mpr hle), ite_memset]
  by_cases hpart : prefixSize % 8 = 0
  · simp only [hpart, ne_eq, not_true, if_false, memset]
    split_ifs <;> first | rfl | omega
  · simp only [hpart, ne_eq, not_false_eq_true, if_true, memset, update_apply]
    split_ifs <;> first | rfl | omega

theorem testBit_ff (i : ℕ) : (0xff : UInt8).toNat.testBit i = decide (i < 8) :=
  Nat.testBit_two_pow_sub_one 8 i

theorem isPrefixSet_of_le (hle : prefixSize ≤ map.nBits) (hbits : map.nBits + 7 < 4294967296)
    (hroom : prefixSize % 8 = 0 ∨ (map.nBits + 7) / 8 % 4 ≠ 0) (mem : ℕ → UInt8) :
    map.IsPrefixSet prefixSize mem (map.bitmapSetPrefix prefixSize mem) := by
  have hcleared : map.clearedBytes prefixSize = (map.nBits + 7) / 8 - prefixSize / 8 := by
    simp only [clearedBytes, noBytesInMap]
    omega
  refine ⟨fun bit hbit => ?_, fun q hq => ?_⟩
  · rw [bitmapIsSet, bitmapSetPrefix_apply hle, hcleared, if_neg (by omega)]
    split_ifs with hfull hpart
    · rw [testBit_ff]
      simp
      omega
    · have hsmall : 2 ^ (prefixSize % 8) ≤ 2 ^ 8 := Nat.pow_le_pow_right (by decide) (by omega)
      rw [UInt8.toNat_ofNat', Nat.mod_eq_of_lt (by omega), Nat.testBit_two_pow_sub_one]
      simp
      omega
    · simp
      omega
  · rw [bitmapSetPrefix_apply hle, hcleared, if_pos (by omega)]

/-- `bitmap_set_prefix` is right for all contents of the memory just if the number of bytes does
not wrap, and no part of a byte is set while the bytes fill the last word. -/
theorem bitmapSetPrefix_iff (hpos : 0 < map.nBits) (hle : prefixSize ≤ map.nBits) :
    (∀ mem, map.IsPrefixSet prefixSize mem (map.bitmapSetPrefix prefixSize mem)) ↔
      map.nBits + 7 < 4294967296 ∧ (prefixSize % 8 = 0 ∨ (map.nBits + 7) / 8 % 4 ≠ 0) := by
  refine ⟨fun hall => ?_, fun ⟨hbits, hroom⟩ => isPrefixSet_of_le hle hbits hroom⟩
  obtain ⟨hset, hframe⟩ := hall fun _ => 0xff
  have hlt := map.nBits_lt
  have hcleared : map.clearedBytes prefixSize =
    ((map.nBits + 7) % 4294967296 / 8 + 4294967296 - prefixSize / 8) % 4294967296 := rfl
  -- the byte behind the words is not cleared
  have hend := hframe (map.bitmap + (map.nBits + 31) / 32 * 4) (.inr le_rfl)
  rw [bitmapSetPrefix_apply hle] at hend
  by_contra hbad
  by_cases hnone : map.clearedBytes prefixSize = 0
  · have hlast := hset (map.nBits - 1) (by omega)
    rw [bitmapIsSet, bitmapSetPrefix_apply hle, if_pos (by omega), testBit_ff] at hlast
    simp at hlast
    omega
  · rw [if_neg (by omega), if_neg (by omega), if_neg (by omega)] at hend
    exact absurd (show (0 : UInt8) = 0xff from hend) (by decide)

theorem bitmapSetPrefix_iff_ten :
    (∀ mem, IsPrefixSet ⟨0, 10, by decide⟩ 3 mem (bitmapSetPrefix ⟨0, 10, by decide⟩ 3 mem)) ↔
      10 + 7 < 4294967296 ∧ (3 % 8 = 0 ∨ (10 + 7) / 8 % 4 ≠ 0) :=
  bitmapSetPrefix_iff (by decide) (by decide)

/-- The byte behind a bitmap of one word is cleared. -/
theorem bitmapSetPrefix_behind :
    bitmapSetPrefix ⟨0, 32, by decide⟩ 1 (fun _ => 0xff) 4 = 0 := by
  decide

end MyBitmap

end MySQL.Mysys
