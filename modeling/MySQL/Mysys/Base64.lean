import Mathlib

/-!
# Base64

Three bytes are four characters, with a new line after 76 of them.  The decoder passes over spaces
wherever they are, and stops at the first padding character.
-/

namespace MySQL.Mysys

open List

/-! ## Encoding and decoding -/

/-- `base64_table`: the letters `A` to `Z` and `a` to `z`, the digits, and `+` and `/`. -/
def base64Table : List UInt8 :=
  (List.range' 65 26 ++ List.range' 97 26 ++ List.range' 48 10 ++ [43, 47]).map UInt8.ofNat

/-- An `int` that may have overflowed. -/
def wrapInt (z : ℤ) : ℤ := z.bmod 4294967296

def base64NeededEncodedLength (lengthOfData : ℤ) : ℤ :=
  let nbBase64Chars := wrapInt ((wrapInt (lengthOfData + 2)).tdiv 3 * 4)
  wrapInt (wrapInt (nbBase64Chars + (wrapInt (nbBase64Chars - 1)).tdiv 76) + 1)

/-- The quotient of integers has no part that `ceil` could round up. -/
def base64NeededDecodedLength (lengthOfEncodedData : ℤ) : ℤ :=
  (wrapInt (lengthOfEncodedData * 3)).tdiv 4

def base64Pad : UInt8 := 61

def base64Char (c : BitVec 32) (shift : ℕ) : UInt8 :=
  base64Table.getD ((c >>> shift) &&& 0x3f#32).toNat 0

def byteWord (b : UInt8) : BitVec 32 := b.toBitVec.setWidth 32

def base64Quantum (s : UInt8) (rest : List UInt8) : List UInt8 :=
  let c := byteWord s <<< 8
  let c := (c + byteWord (rest.getD 0 0)) <<< 8
  let c := c + byteWord (rest.getD 1 0)
  [base64Char c 18, base64Char c 12, if rest.length < 1 then base64Pad else base64Char c 6,
    if rest.length < 2 then base64Pad else base64Char c 0]

/-- The loop of `base64_encode`, with the length of the line. -/
def base64EncodeLoop (len : ℕ) : List UInt8 → List UInt8
  | [] => []
  | s :: rest =>
    (if len = 76 then [10] else []) ++ base64Quantum s rest ++
      base64EncodeLoop ((if len = 76 then 0 else len) + 4) (rest.drop 2)
termination_by src => src.length
decreasing_by
  rw [length_drop, length_cons]
  omega

/-- `base64_encode`: everything that is written, with the terminator. -/
def base64Encode (src : List UInt8) : List UInt8 := base64EncodeLoop 0 src ++ [0]

/-- The place of a character in the table, which has its terminator at the end.  The difference with
a null pointer is taken for all others. -/
def base64Pos (tableAddr : BitVec 32) (c : UInt8) : BitVec 32 :=
  if c ∈ base64Table ++ [0] then BitVec.ofNat 32 ((base64Table ++ [0]).idxOf c) else -tableAddr

/-- `my_isspace` for `my_charset_latin1`. -/
def isSpaceLatin1 (c : UInt8) : Bool := (9 ≤ c ∧ c ≤ 13) ∨ c = 32 ∨ c = 160

/-- `b[0]`, `b[1]` and `b[2]`. -/
def base64Bytes (c : BitVec 32) : List UInt8 :=
  [16, 8, 0].map fun shift => UInt8.ofBitVec (((c >>> shift) &&& 0xff#32).setWidth 8)

/-- `SKIP_SPACE`, and the character behind the spaces. -/
def skipSpace (src : List UInt8) : Option (UInt8 × List UInt8) :=
  match src.dropWhile isSpaceLatin1 with
  | [] => none
  | c :: src => some (c, src)

/-- One round of the loop of `base64_decode`: what is written, and what is still to be read if there
was no padding.  The loop ends where `SKIP_SPACE` finds the end. -/
def base64DecodeQuantum (tableAddr : BitVec 32) (src : List UInt8) :
    Option (List UInt8 × Option (List UInt8)) := do
  let (c0, src) ← skipSpace src
  let c := base64Pos tableAddr c0 <<< 6
  let (c1, src) ← skipSpace src
  let c := (c + base64Pos tableAddr c1) <<< 6
  let (c2, src) ← skipSpace src
  if c2 = base64Pad then some ((base64Bytes (c <<< 6)).take 1, none)
  else
    let c := (c + base64Pos tableAddr c2) <<< 6
    let (c3, src) ← skipSpace src
    if c3 = base64Pad then some ((base64Bytes c).take 2, none)
    else some (base64Bytes (c + base64Pos tableAddr c3), some src)

theorem skipSpace_length {src rest : List UInt8} {c : UInt8} (h : skipSpace src = some (c, rest)) :
    rest.length + 1 ≤ src.length := by
  have hle := (dropWhile_sublist (l := src) isSpaceLatin1).length_le
  unfold skipSpace at h
  split at h
  · simp at h
  · next heq =>
    rw [heq] at hle
    obtain ⟨rfl, rfl⟩ := Prod.mk.inj (Option.some.inj h)
    exact hle

theorem base64DecodeQuantum_length {tableAddr : BitVec 32} {src out : List UInt8}
    {rest : Option (List UInt8)} (h : base64DecodeQuantum tableAddr src = some (out, rest)) :
    (∃ src', rest = some src' ∧ src'.length + 4 ≤ src.length ∧ out.length = 3) ∨
      (rest = none ∧ out.length + 2 ≤ src.length ∧ 1 ≤ out.length ∧ out.length ≤ 2) := by
  simp only [base64DecodeQuantum, Option.bind_eq_bind, Option.bind_eq_some_iff] at h
  obtain ⟨⟨c0, src1⟩, h0, ⟨c1, src2⟩, h1, ⟨c2, src3⟩, h2, h⟩ := h
  dsimp only at h1 h2 h
  have hl0 := skipSpace_length h0
  have hl1 := skipSpace_length h1
  have hl2 := skipSpace_length h2
  split at h
  · obtain ⟨rfl, rfl⟩ := Prod.mk.inj (Option.some.inj h)
    exact .inr ⟨rfl, by simp [base64Bytes]; omega⟩
  · simp only [Option.bind_eq_some_iff] at h
    obtain ⟨⟨c3, src4⟩, h3, h⟩ := h
    have hl3 := skipSpace_length h3
    split at h
    · obtain ⟨rfl, rfl⟩ := Prod.mk.inj (Option.some.inj h)
      exact .inr ⟨rfl, by simp [base64Bytes]; omega⟩
    · obtain ⟨rfl, rfl⟩ := Prod.mk.inj (Option.some.inj h)
      exact .inl ⟨src4, rfl, by omega, rfl⟩

/-- The loop of `base64_decode`: what is written. -/
def base64DecodeLoop (tableAddr : BitVec 32) (src : List UInt8) : List UInt8 :=
  match _hround : base64DecodeQuantum tableAddr src with
  | none => []
  | some (out, none) => out
  | some (out, some rest) => out ++ base64DecodeLoop tableAddr rest
termination_by src.length
decreasing_by
  obtain ⟨src', heq, hle, -⟩ | ⟨hnone, -⟩ := base64DecodeQuantum_length _hround
  · obtain rfl := Option.some.inj heq
    omega
  · simp at hnone

/-- `base64_decode`: what is written, and the returned length.  It never ends before the end of the
text, so it never returns an error. -/
def base64Decode (tableAddr : BitVec 32) (src : List UInt8) : List UInt8 × ℤ :=
  (base64DecodeLoop tableAddr src, wrapInt (base64DecodeLoop tableAddr src).length)

section Decoding

variable {tableAddr : BitVec 32} {src out rest : List UInt8}

theorem base64DecodeLoop_of_none (h : base64DecodeQuantum tableAddr src = none) :
    base64DecodeLoop tableAddr src = [] := by
  rw [base64DecodeLoop]
  split <;> simp_all

theorem base64DecodeLoop_of_last (h : base64DecodeQuantum tableAddr src = some (out, none)) :
    base64DecodeLoop tableAddr src = out := by
  rw [base64DecodeLoop]
  split <;> simp_all

theorem base64DecodeLoop_of_more (h : base64DecodeQuantum tableAddr src = some (out, some rest)) :
    base64DecodeLoop tableAddr src = out ++ base64DecodeLoop tableAddr rest := by
  rw [base64DecodeLoop]
  split <;> simp_all

theorem length_base64DecodeLoop (tableAddr : BitVec 32) (src : List UInt8) :
    4 * (base64DecodeLoop tableAddr src).length ≤ 3 * src.length := by
  induction src using base64DecodeLoop.induct tableAddr with
  | case1 src hround =>
    rw [base64DecodeLoop_of_none hround]
    exact Nat.zero_le _
  | case2 src out hround =>
    rw [base64DecodeLoop_of_last hround]
    obtain ⟨rest, hrest, -⟩ | ⟨-, hle, hlow, hhigh⟩ := base64DecodeQuantum_length hround
    · simp at hrest
    · omega
  | case3 src out rest hround ih =>
    rw [base64DecodeLoop_of_more hround, length_append]
    obtain ⟨rest', hrest, hle, hout⟩ | ⟨hrest, -⟩ := base64DecodeQuantum_length hround
    · obtain rfl := Option.some.inj hrest
      omega
    · simp at hrest

end Decoding

/-! ## Characters -/

theorem base64Table_spec : ∀ n < 64,
    base64Table.getD n 0 ∈ base64Table ++ [0] ∧
      (base64Table ++ [0]).idxOf (base64Table.getD n 0) = n ∧
      isSpaceLatin1 (base64Table.getD n 0) = false ∧ base64Table.getD n 0 ≠ base64Pad := by
  decide +kernel

section Characters

variable {c : BitVec 32} {shift : ℕ} {tableAddr : BitVec 32} {t : List UInt8} {b : UInt8}

theorem toNat_sextet (c : BitVec 32) (shift : ℕ) :
    ((c >>> shift) &&& 0x3f#32).toNat = (c.toNat >>> shift) % 64 := by
  exact Nat.and_two_pow_sub_one_eq_mod _ 6

theorem sextet_lt (c : BitVec 32) (shift : ℕ) : ((c >>> shift) &&& 0x3f#32).toNat < 64 := by
  rw [toNat_sextet]
  exact Nat.mod_lt _ (by decide)

theorem base64Pos_base64Char : base64Pos tableAddr (base64Char c shift) =
    (c >>> shift) &&& 0x3f#32 := by
  obtain ⟨hmem, hidx, -⟩ := base64Table_spec _ (sextet_lt c shift)
  unfold base64Char
  rw [base64Pos, if_pos hmem, hidx, BitVec.ofNat_toNat, BitVec.setWidth_eq]

theorem base64Char_ne_pad : base64Char c shift ≠ base64Pad :=
  (base64Table_spec _ (sextet_lt c shift)).2.2.2

theorem skipSpace_of_not (h : isSpaceLatin1 b = false) : skipSpace (b :: t) = some (b, t) := by
  rw [skipSpace, dropWhile_cons_of_neg (by simp [h])]

theorem skipSpace_base64Char : skipSpace (base64Char c shift :: t) = some (base64Char c shift, t) :=
  skipSpace_of_not (base64Table_spec _ (sextet_lt c shift)).2.2.1

theorem skipSpace_base64Pad : skipSpace (base64Pad :: t) = some (base64Pad, t) :=
  skipSpace_of_not (by decide)

theorem skipSpace_newline : skipSpace (10 :: t) = skipSpace t := by
  rw [skipSpace, dropWhile_cons_of_pos (by decide), skipSpace]

end Characters

/-! ## The round trip -/

def base64Word (s b c : UInt8) : BitVec 32 :=
  (byteWord s <<< 8 + byteWord b) <<< 8 + byteWord c

theorem toNat_byteWord (b : UInt8) : (byteWord b).toNat = b.toNat := by
  have hlt := b.toNat_lt
  rw [byteWord, BitVec.toNat_setWidth, UInt8.toNat_toBitVec]
  omega

theorem toNat_base64Word (s b c : UInt8) :
    (base64Word s b c).toNat = 65536 * s.toNat + 256 * b.toNat + c.toNat := by
  have hs := s.toNat_lt
  have hb := b.toNat_lt
  have hc := c.toNat_lt
  simp only [base64Word, BitVec.toNat_add, BitVec.toNat_shiftLeft, toNat_byteWord, Nat.shiftLeft_eq]
  omega

theorem sextets_eq {w : BitVec 32} (h : w.toNat < 16777216) :
    (((w >>> 18 &&& 0x3f#32) <<< 6 + (w >>> 12 &&& 0x3f#32)) <<< 6 + (w >>> 6 &&& 0x3f#32)) <<< 6 +
      (w >>> 0 &&& 0x3f#32) = w := by
  apply BitVec.eq_of_toNat_eq
  simp only [BitVec.toNat_add, BitVec.toNat_shiftLeft, toNat_sextet, Nat.shiftLeft_eq,
    Nat.shiftRight_eq_div_pow]
  omega

theorem sextet_eq_zero {w : BitVec 32} (shift : ℕ) (h : w.toNat / 2 ^ shift % 64 = 0) :
    w >>> shift &&& 0x3f#32 = 0#32 := by
  apply BitVec.eq_of_toNat_eq
  rw [toNat_sextet, Nat.shiftRight_eq_div_pow, h]
  rfl

theorem sextets_three {w : BitVec 32} (h : w.toNat < 16777216) (hlow : w.toNat % 64 = 0) :
    (((w >>> 18 &&& 0x3f#32) <<< 6 + (w >>> 12 &&& 0x3f#32)) <<< 6 +
      (w >>> 6 &&& 0x3f#32)) <<< 6 = w := by
  have heq := sextets_eq h
  rwa [sextet_eq_zero 0 (by omega), BitVec.add_zero] at heq

theorem sextets_two {w : BitVec 32} (h : w.toNat < 16777216) (hlow : w.toNat % 4096 = 0) :
    ((w >>> 18 &&& 0x3f#32) <<< 6 + (w >>> 12 &&& 0x3f#32)) <<< 6 <<< 6 = w := by
  have heq := sextets_three h (by omega)
  rwa [sextet_eq_zero 6 (by omega), BitVec.add_zero] at heq

theorem toNat_base64Byte (w : BitVec 32) (shift : ℕ) :
    (UInt8.ofBitVec (((w >>> shift) &&& 0xff#32).setWidth 8)).toNat =
      (w.toNat >>> shift) % 256 := by
  have hmask : (w >>> shift &&& 0xff#32).toNat = (w.toNat >>> shift) % 256 := by
    exact Nat.and_two_pow_sub_one_eq_mod _ 8
  rw [UInt8.toNat_ofBitVec, BitVec.toNat_setWidth]
  omega

theorem base64Bytes_base64Word (s b c : UInt8) : base64Bytes (base64Word s b c) = [s, b, c] := by
  have hs := s.toNat_lt
  have hb := b.toNat_lt
  have hc := c.toNat_lt
  have hword := toNat_base64Word s b c
  simp only [base64Bytes, map_cons, map_nil, List.cons.injEq, and_true,
    ← UInt8.toNat_inj, toNat_base64Byte, hword, Nat.shiftRight_eq_div_pow]
  omega

section Quantum

variable {w : BitVec 32} (hlt : w.toNat < 16777216) (tableAddr : BitVec 32) (t : List UInt8)

include hlt

theorem base64DecodeQuantum_four : base64DecodeQuantum tableAddr
    (base64Char w 18 :: base64Char w 12 :: base64Char w 6 :: base64Char w 0 :: t) =
      some (base64Bytes w, some t) := by
  simp only [base64DecodeQuantum, skipSpace_base64Char, Option.bind_eq_bind, Option.bind_some,
    base64Pos_base64Char, if_neg base64Char_ne_pad, sextets_eq hlt]

theorem base64DecodeQuantum_three (hlow : w.toNat % 64 = 0) : base64DecodeQuantum tableAddr
    (base64Char w 18 :: base64Char w 12 :: base64Char w 6 :: base64Pad :: t) =
      some ((base64Bytes w).take 2, none) := by
  simp only [base64DecodeQuantum, skipSpace_base64Char, skipSpace_base64Pad, Option.bind_eq_bind,
    Option.bind_some, base64Pos_base64Char, if_neg base64Char_ne_pad, if_true,
    sextets_three hlt hlow]

theorem base64DecodeQuantum_two (hlow : w.toNat % 4096 = 0) : base64DecodeQuantum tableAddr
    (base64Char w 18 :: base64Char w 12 :: base64Pad :: t) =
      some ((base64Bytes w).take 1, none) := by
  simp only [base64DecodeQuantum, skipSpace_base64Char, skipSpace_base64Pad, Option.bind_eq_bind,
    Option.bind_some, base64Pos_base64Char, if_true, sextets_two hlt hlow]

end Quantum

theorem toNat_base64Word_lt (s b c : UInt8) : (base64Word s b c).toNat < 16777216 := by
  have hs := s.toNat_lt
  have hb := b.toNat_lt
  have hc := c.toNat_lt
  rw [toNat_base64Word]
  omega

theorem base64DecodeQuantum_base64Quantum (tableAddr : BitVec 32) (s : UInt8)
    (rest t : List UInt8) :
    base64DecodeQuantum tableAddr (base64Quantum s rest ++ t) =
      some ((s :: rest).take 3, if rest.length < 2 then none else some t) := by
  match rest with
  | [] =>
    have hquantum : base64Quantum s [] = [base64Char (base64Word s 0 0) 18,
        base64Char (base64Word s 0 0) 12, base64Pad, base64Pad] := rfl
    have hlow : (base64Word s 0 0).toNat % 4096 = 0 := by
      rw [toNat_base64Word, UInt8.toNat_zero]
      omega
    refine (base64DecodeQuantum_two (toNat_base64Word_lt s 0 0) tableAddr _ hlow).trans ?_
    rw [base64Bytes_base64Word]
    rfl
  | [b] =>
    have hquantum : base64Quantum s [b] = [base64Char (base64Word s b 0) 18,
        base64Char (base64Word s b 0) 12, base64Char (base64Word s b 0) 6, base64Pad] := rfl
    have hlow : (base64Word s b 0).toNat % 64 = 0 := by
      rw [toNat_base64Word, UInt8.toNat_zero]
      omega
    refine (base64DecodeQuantum_three (toNat_base64Word_lt s b 0) tableAddr _ hlow).trans ?_
    rw [base64Bytes_base64Word]
    rfl
  | b :: c :: r =>
    have hquantum : base64Quantum s (b :: c :: r) = [base64Char (base64Word s b c) 18,
        base64Char (base64Word s b c) 12, base64Char (base64Word s b c) 6,
        base64Char (base64Word s b c) 0] := by
      simp [base64Quantum, base64Word]
    refine (base64DecodeQuantum_four (toNat_base64Word_lt s b c) tableAddr _).trans ?_
    rw [base64Bytes_base64Word]
    rfl

theorem base64DecodeLoop_base64EncodeLoop (tableAddr : BitVec 32) (len : ℕ) (src : List UInt8) :
    base64DecodeLoop tableAddr (base64EncodeLoop len src) = src := by
  induction len, src using base64EncodeLoop.induct with
  | case1 len =>
    rw [base64EncodeLoop]
    exact base64DecodeLoop_of_none rfl
  | case2 len s rest ih =>
    have hround : base64DecodeQuantum tableAddr (base64EncodeLoop len (s :: rest)) =
        some ((s :: rest).take 3, if rest.length < 2 then none
          else some (base64EncodeLoop ((if len = 76 then 0 else len) + 4) (rest.drop 2))) := by
      rw [base64EncodeLoop, append_assoc, ← base64DecodeQuantum_base64Quantum tableAddr]
      split
      · rw [base64DecodeQuantum, singleton_append, skipSpace_newline, base64DecodeQuantum]
      · rfl
    by_cases hshort : rest.length < 2
    · rw [if_pos hshort] at hround
      rw [base64DecodeLoop_of_last hround, take_of_length_le (by simp; omega)]
    · rw [if_neg hshort] at hround
      rw [dite_eq_ite] at ih
      rw [base64DecodeLoop_of_more hround, ih]
      exact take_append_drop 3 (s :: rest)

/-! ## Lengths -/

theorem length_base64Quantum (s : UInt8) (rest : List UInt8) :
    (base64Quantum s rest).length = 4 := rfl

theorem length_base64EncodeLoop {len k : ℕ} (src : List UInt8) (hlen : len = 4 * k) (hk : k ≤ 19) :
    (base64EncodeLoop len src).length =
      4 * ((src.length + 2) / 3) + if src = [] then 0 else (k + (src.length + 2) / 3 - 1) / 19 := by
  induction len, src using base64EncodeLoop.induct generalizing k with
  | case1 len => rw [base64EncodeLoop, if_pos rfl, length_nil]
  | case2 len s rest ih =>
    rw [base64EncodeLoop, if_neg (cons_ne_nil _ _), length_append, length_append,
      length_base64Quantum, length_cons]
    rw [dite_eq_ite] at ih
    have hdrop : rest.drop 2 = [] ↔ rest.length ≤ 2 := drop_eq_nil_iff
    by_cases hfull : len = 76
    · simp only [hfull, if_true] at ih ⊢
      rw [ih (k := 1) rfl (by decide), length_drop, length_singleton]
      simp only [hdrop]
      split_ifs <;> omega
    · simp only [hfull, if_false] at ih ⊢
      rw [ih (k := k + 1) (by omega) (by omega), length_drop, length_nil]
      simp only [hdrop]
      split_ifs <;> omega

theorem wrapInt_eq {z : ℤ} (hlow : -2147483648 ≤ z) (hhigh : z ≤ 2147483647) : wrapInt z = z := by
  rw [wrapInt, Int.bmod_eq_of_le (by omega) (by omega)]

theorem length_base64Encode (src : List UInt8) :
    (base64Encode src).length =
      4 * ((src.length + 2) / 3) + (4 * ((src.length + 2) / 3) - 1) / 76 + 1 := by
  rw [base64Encode, length_append, length_base64EncodeLoop src rfl (Nat.zero_le 19)]
  split_ifs with hnil
  · rw [hnil]
    rfl
  · simp only [length_singleton]
    omega

theorem base64NeededEncodedLength_eq {src : List UInt8}
    (h : (base64Encode src).length ≤ 2147483647) :
    base64NeededEncodedLength src.length = (base64Encode src).length := by
  rw [length_base64Encode] at h ⊢
  generalize src.length = n at *
  have hdata : wrapInt ((n : ℤ) + 2) = n + 2 := wrapInt_eq (by omega) (by omega)
  have hchars : wrapInt (((n : ℤ) + 2).tdiv 3 * 4) = (4 * ((n + 2) / 3) : ℕ) := by
    rw [Int.tdiv_eq_ediv_of_nonneg (by omega), wrapInt_eq (by omega) (by omega)]
    omega
  simp only [base64NeededEncodedLength, hdata, hchars]
  generalize 4 * ((n + 2) / 3) = k at h ⊢
  have hlines : ((k : ℤ) - 1).tdiv 76 = ((k - 1) / 76 : ℕ) := by
    rcases Nat.eq_zero_or_pos k with rfl | hpos
    · rfl
    · rw [Int.tdiv_eq_ediv_of_nonneg (by omega)]
      omega
  rw [wrapInt_eq (z := (k : ℤ) - 1) (by omega) (by omega), hlines,
    wrapInt_eq (z := (k : ℤ) + _) (by omega) (by omega), wrapInt_eq (by omega) (by omega)]
  rfl

theorem base64NeededDecodedLength_eq {n : ℕ} (h : n * 3 ≤ 2147483647) :
    base64NeededDecodedLength n = (n * 3 / 4 : ℕ) := by
  rw [base64NeededDecodedLength, wrapInt_eq (by omega) (by omega),
    Int.tdiv_eq_ediv_of_nonneg (by omega)]
  omega

/-- What is encoded has the length that is asked for and is decoded again, and the decoder never
writes more than the length that is asked for. -/
theorem base64Decode_base64Encode (tableAddr : BitVec 32) :
    (∀ src : List UInt8, (base64Encode src).length ≤ 2147483647 →
        (base64Encode src).length = base64NeededEncodedLength src.length ∧
          base64Decode tableAddr (base64Encode src).dropLast = (src, (src.length : ℤ))) ∧
      ∀ text : List UInt8, text.length * 3 ≤ 2147483647 →
        (base64Decode tableAddr text).1.length ≤ base64NeededDecodedLength text.length := by
  refine ⟨fun src h => ⟨(base64NeededEncodedLength_eq h).symm, ?_⟩, fun text h => ?_⟩
  · have hlength := length_base64Encode src
    have hdrop : (base64Encode src).dropLast = base64EncodeLoop 0 src := dropLast_concat
    rw [hdrop, base64Decode, base64DecodeLoop_base64EncodeLoop, wrapInt_eq (by omega) (by omega)]
  · have hle := length_base64DecodeLoop tableAddr text
    rw [base64NeededDecodedLength_eq h]
    simp only [base64Decode]
    omega

theorem base64Decode_base64Encode_two_bytes :
    base64Decode 0 (base64Encode [77, 97]).dropLast = ([77, 97], 2) ∧
      (base64Decode 0 [84, 87, 69, 61]).1.length ≤ base64NeededDecodedLength 4 :=
  ⟨((base64Decode_base64Encode 0).1 [77, 97] (by rw [length_base64Encode]; decide)).2,
    (base64Decode_base64Encode 0).2 [84, 87, 69, 61] (by decide)⟩

theorem length_base64DecodeLoop_replicate (tableAddr : BitVec 32) (k : ℕ) :
    (base64DecodeLoop tableAddr (replicate (4 * k) 65)).length = 3 * k := by
  induction k with
  | zero => rw [base64DecodeLoop_of_none rfl, length_nil]
  | succ k ih =>
    have hchar (shift : ℕ) : base64Char 0 shift = 65 := by
      simp [base64Char]
      decide
    have hround := base64DecodeQuantum_four (w := 0) (by decide) tableAddr
      (replicate (4 * k) 65)
    rw [hchar, hchar, hchar, hchar] at hround
    have hsplit : replicate (4 * (k + 1)) (65 : UInt8) =
        65 :: 65 :: 65 :: 65 :: replicate (4 * k) 65 := by
      simp only [Nat.mul_succ, replicate_succ]
    rw [hsplit, base64DecodeLoop_of_more hround, length_append]
    simp only [base64Bytes, length_map, length_cons, length_nil]
    omega

/-- The lengths of a text of `2^30` characters, and of the encoding of `3 * 2^29` bytes, are no
`int`s. -/
theorem base64NeededLength_negative :
    (∃ text : List UInt8, text.length = 1073741824 ∧
        base64NeededDecodedLength text.length < 0 ∧
        (base64Decode 0 text).1.length = 805306368) ∧
      base64NeededEncodedLength 1610612736 < 0 := by
  obtain ⟨k, hk⟩ : ∃ k, k = 268435456 := ⟨_, rfl⟩
  have hlength : (replicate (4 * k) (65 : UInt8)).length = 1073741824 := by
    rw [length_replicate]
    omega
  refine ⟨⟨replicate (4 * k) 65, hlength, ?_, ?_⟩, by decide⟩
  · rw [hlength]
    decide
  · have hout := length_base64DecodeLoop_replicate 0 k
    simp only [base64Decode]
    omega

end MySQL.Mysys
