import MySQL.Lib.Radix

/-!
# Fixed-point numbers

A number is stored in words of nine decimal digits, with `intg` digits in front of the point
and `frac` digits behind it.  The first word of the integer part has the digits that are left
over, and so has the last word of the fraction, which is filled up with zeros on the right.
-/

namespace MySQL.Strings

open Lib List

abbrev Byte := BitVec 8

def digPerDec1 : ℕ := 9

def digMask : ℕ := 100000000

def digBase : ℕ := 1000000000

def digMax : ℕ := digBase - 1

/-- `ROUND_UP`: the words for so many digits. -/
def roundUp (x : ℕ) : ℕ := (x + digPerDec1 - 1) / digPerDec1

def powers10 (i : ℕ) : ℕ := 10 ^ i

def dig2bytes (i : ℕ) : ℕ := [0, 1, 1, 2, 2, 3, 3, 4, 4, 4].getD i 0

/-- `E_DEC_OK` and the error codes that the functions below return. -/
inductive DecError where
  | ok
  | truncated
  | overflow
  | badNum
  deriving DecidableEq, Repr

/-- `decimal_t`; the length of the buffer is `len`. -/
structure Decimal where
  intg : ℕ
  frac : ℕ
  sign : Bool
  buf : List ℕ
  deriving DecidableEq, Repr

namespace Decimal

variable (d : Decimal)

/-- `decimal_make_zero`. -/
def makeZero : Decimal :=
  { d with intg := 1, frac := 0, sign := false, buf := d.buf.set 0 0 }

/-! ## Leading and trailing zeros -/

/-- The first loop of `remove_leading_zeroes`. -/
def skipZeroWords : ℕ → ℕ → List ℕ → ℕ × List ℕ
  | intg, _, [] => (intg, [])
  | intg, i, w :: buf =>
    if 0 < intg ∧ w = 0 then skipZeroWords (intg - i) digPerDec1 buf else (intg, w :: buf)

def skipZeroDigits (w : ℕ) : ℕ → ℕ → ℕ
  | 0, intg => intg
  | i + 1, intg => if w < powers10 (i + 1) then skipZeroDigits w i (intg - 1) else intg

/-- `remove_leading_zeroes`: the digits that are left, and the buffer from there on. -/
def removeLeadingZeroes : ℕ × List ℕ :=
  let (intg, buf0) := skipZeroWords d.intg ((d.intg - 1) % digPerDec1 + 1) d.buf
  if 0 < intg then (skipZeroDigits (buf0.headD 0) ((intg - 1) % digPerDec1) intg, buf0)
  else (0, buf0)

/-- The first loop of `decimal_actual_fraction`, over the words from the last one on. -/
def stripZeroWords : ℕ → ℕ → List ℕ → ℕ × ℕ
  | frac, _, [] => (frac, 0)
  | frac, i, w :: buf =>
    if 0 < frac ∧ w = 0 then stripZeroWords (frac - i) digPerDec1 buf else (frac, w)

/-- The second loop, for a word other than zero; `r` digits of it are in front of the digit
that is looked at. -/
def stripZeroDigits (w : ℕ) : ℕ → ℕ → ℕ
  | 0, frac => frac
  | r + 1, frac =>
    if w % powers10 (digPerDec1 - (r + 1)) = 0 then stripZeroDigits w r (frac - 1) else frac

/-- `decimal_actual_fraction`. -/
def actualFraction : ℕ :=
  if d.frac = 0 then 0
  else
    let words := (d.buf.take (roundUp d.intg + roundUp d.frac)).reverse
    let (frac, w) := stripZeroWords d.frac ((d.frac - 1) % digPerDec1 + 1) words
    if 0 < frac then stripZeroDigits w ((frac - 1) % digPerDec1) frac else frac

/-! ## Rounding -/

/-- `decimal_round_mode`. -/
inductive RoundMode where
  | truncate
  | halfEven
  | halfUp
  | ceiling
  | floor
  deriving DecidableEq, Repr

/-- `round_digit`. -/
def roundDigit (mode : RoundMode) (sign : Bool) : ℕ :=
  match mode with
  | .halfUp | .halfEven => 5
  | .ceiling => if sign then 10 else 0
  | .floor => if sign then 0 else 10
  | .truncate => 10

/-- The loop over `ADD` that carries one to the words in front of `i`: the words, and where
the carry stopped, or `none` if it went over the first word. -/
def carryUp (buf : List ℕ) : ℕ → List ℕ × Option ℕ
  | 0 => (buf, none)
  | i + 1 =>
    let a := buf.getD i 0 + 1
    if digBase ≤ a then carryUp (buf.set i (a - digBase)) i else (buf.set i a, some i)

/-- The loop that looks for a word other than zero, from the word `i` on to the first one. -/
def lastNonzero (buf : List ℕ) : ℕ → Option ℕ
  | 0 => if buf.getD 0 0 ≠ 0 then some 0 else none
  | i + 1 => if buf.getD (i + 1) 0 ≠ 0 then some (i + 1) else lastNonzero buf i

/-- Whether the `dropped` words from the word `n` on lead to an increment. -/
def roundsUpWord (mode : RoundMode) (d : Decimal) (n dropped : ℕ) : Bool :=
  match roundDigit mode d.sign with
  | 0 => ((d.buf.drop n).take dropped).any (· ≠ 0)
  | 5 =>
    let x := d.buf.getD n 0 / digMask
    5 < x || x == 5 && (mode == .halfUp || 0 < n && d.buf.getD (n - 1) 0 % 2 == 1)
  | _ => false

def roundWord (mode : RoundMode) (sign : Bool) (w pos : ℕ) : ℕ :=
  let x := w / powers10 pos
  let y := x % 10
  let roundDigit := roundDigit mode sign
  if roundDigit < y ∨ roundDigit = 5 ∧ y = 5 ∧ (mode = .halfUp ∨ x / 10 % 2 = 1) then
    powers10 pos * (x + 10 - y)
  else powers10 pos * (x - y)

/-- The end of `decimal_round`, where the word `i` of the buffer was rounded: carries, the
number zero, and the number of digits in front of the point. -/
def finishRound (i intg0 : ℕ) (frac0 scale : ℤ) (error : DecError) : Decimal × DecError :=
  if digBase ≤ d.buf.getD i 0 then
    match carryUp (d.buf.set i (d.buf.getD i 0 - digBase)) i with
    | (buf, some j) =>
      let firstDig := d.intg % digPerDec1
      let intg := if firstDig ≠ 0 ∧ powers10 firstDig ≤ buf.getD j 0 then d.intg + 1 else d.intg
      ({ d with intg := intg, frac := scale.toNat, buf := buf }, error)
    | (buf, none) =>
      let full := d.buf.length ≤ frac0 + intg0
      let frac0 := if full then frac0 - 1 else frac0
      let scale := if full then frac0 * digPerDec1 else scale
      let n := intg0 + frac0.toNat
      let buf := 1 :: (buf.take n ++ buf.drop (n + 1))
      let intg := d.intg + 1
      let firstDig := intg % digPerDec1
      let intg := if firstDig ≠ 0 ∧ powers10 firstDig ≤ 1 then intg + 1 else intg
      ({ d with intg := intg, frac := scale.toNat, buf := buf },
        if full then .truncated else error)
  else
    match lastNonzero d.buf i with
    | none =>
      let n := (frac0 + 1).toNat
      ({ intg := 1, frac := scale.toNat, sign := false,
          buf := replicate n 0 ++ d.buf.drop n }, .ok)
    | some j =>
      let firstDig := d.intg % digPerDec1
      let intg := if firstDig ≠ 0 ∧ powers10 firstDig ≤ d.buf.getD j 0 then d.intg + 1 else d.intg
      ({ d with intg := intg, frac := scale.toNat }, error)

/-- `decimal_round` of a number in place. -/
def decimalRound (scale : ℤ) (mode : RoundMode) : Decimal × DecError :=
  let intg0 := roundUp d.intg
  let frac1 := roundUp d.frac
  let frac0 : ℤ := if 0 < scale then roundUp scale.toNat else scale.tdiv digPerDec1
  let short := (d.buf.length : ℤ) < frac0 + intg0
  let frac0 := if short then (d.buf.length : ℤ) - intg0 else frac0
  let scale := if short then frac0 * digPerDec1 else scale
  let error : DecError := if short then .truncated else .ok
  let n := (frac0 + intg0).toNat
  if scale + d.intg < 0 then (d.makeZero, .ok)
  else if frac1 < frac0 then
    let fill := n - (intg0 + frac1)
    ({ d with
        frac := scale.toNat
        buf := d.buf.take (intg0 + frac1) ++ replicate fill 0 ++ d.buf.drop n }, error)
  else if d.frac ≤ scale then ({ d with frac := scale.toNat }, error)
  else
    -- The words behind the rounded one become zero.
    let clear := fun buf : List ℕ =>
      if frac0 < frac1 then
        let k := if scale = 0 ∧ intg0 = 0 then 1 else n
        buf.take k ++ replicate (buf.length - k) 0
      else buf
    let finish := fun buf =>
      finishRound { d with buf := clear buf } (n - 1) intg0 frac0 scale error
    if scale = frac0 * digPerDec1 then
      if roundsUpWord mode d n (frac1 - frac0).toNat then
        finish (if 0 < n then d.buf.set (n - 1) (d.buf.getD (n - 1) 0 + 1) else d.buf.set 0 digBase)
      else if n = 0 then (d.makeZero, .ok)
      else finish d.buf
    else
      let pos := (frac0 * digPerDec1 - scale - 1).toNat
      finish (d.buf.set (n - 1) (roundWord mode d.sign (d.buf.getD (n - 1) 0) pos))

/-! ## The binary form -/

/-- `mi_int1store` to `mi_int4store`. -/
def miIntStore (n : ℕ) (x : BitVec 32) : List Byte :=
  (List.range n).map fun k => x.extractLsb' (8 * (n - 1 - k)) 8

/-- `mi_sint1korr` to `mi_sint4korr`. -/
def miSintKorr (n : ℕ) (src : List Byte) : BitVec 32 :=
  (BitVec.ofNat (8 * n) (evalDigits 256 ((src.take n).map BitVec.toNat))).signExtend 32

def flipFirst : List Byte → List Byte
  | [] => []
  | b :: bs => (b ^^^ 0x80#8) :: bs

/-- `decimal_size`. -/
def decimalSize (precision scale : ℕ) : ℕ := roundUp (precision - scale) + roundUp scale

def digitBytes (digits : ℕ) : ℕ :=
  digits / digPerDec1 * 4 + dig2bytes (digits % digPerDec1)

/-- `decimal_bin_size`. -/
def decimalBinSize (precision scale : ℕ) : ℕ := digitBytes (precision - scale) + digitBytes scale

/-- `frac1x` after the loop that adds the digits for which the bytes are enough. -/
def widenTail (i lim : ℕ) : ℕ → ℕ → ℕ
  | 0, frac1x => frac1x
  | fuel + 1, frac1x =>
    if frac1x < lim ∧ dig2bytes frac1x = i then widenTail i lim fuel (frac1x + 1) else frac1x

variable (mask : BitVec 32)

def storeTail (frac0 frac0x frac1 frac1x w : ℕ) : List Byte :=
  if frac1x = 0 then []
  else
    let i := dig2bytes frac1x
    let lim := if frac1 < frac0 then digPerDec1 else frac0x
    let frac1x := widenTail i lim digPerDec1 frac1x
    miIntStore i (BitVec.ofNat 32 (w / powers10 (digPerDec1 - frac1x)) ^^^ mask)

def storeHead (intg1x w : ℕ) : List Byte :=
  if intg1x = 0 then []
  else miIntStore (dig2bytes intg1x) (BitVec.ofNat 32 (w % powers10 intg1x) ^^^ mask)

def storeWords (words : List ℕ) : List Byte :=
  words.flatMap fun w => miIntStore 4 (BitVec.ofNat 32 w ^^^ mask)

/-- The words and the further digits of the fraction that are stored, and the size `fsize0`
that the fraction is filled up to. -/
def fracPlan (frac0 frac0x frac1 frac1x : ℕ) : ℕ × ℕ × ℕ :=
  let fsize0 := frac0 * 4 + dig2bytes frac0x
  let fsize1 := frac1 * 4 + dig2bytes frac1x
  if fsize0 < fsize1 then (frac0, frac0x, fsize0)
  else if fsize1 < fsize0 ∧ frac1x ≠ 0 then
    if frac0 = frac1 then (frac1, frac0x, fsize1) else (frac1 + 1, 0, fsize0)
  else (frac1, frac1x, fsize0)

/-- `decimal2bin`. -/
def decimal2bin (precision frac : ℕ) : List Byte × DecError :=
  let intg := precision - frac
  let intg0 := intg / digPerDec1
  let frac0 := frac / digPerDec1
  let intg0x := intg - intg0 * digPerDec1
  let frac0x := frac - frac0 * digPerDec1
  let frac1 := d.frac / digPerDec1
  let frac1x := d.frac - frac1 * digPerDec1
  let isize0 := intg0 * 4 + dig2bytes intg0x
  let fsize0 := frac0 * 4 + dig2bytes frac0x
  let fsize1 := frac1 * 4 + dig2bytes frac1x
  let (fromIntg, buf1) := d.removeLeadingZeroes
  let isZero := fromIntg + fsize1 = 0
  let mask : BitVec 32 := if d.sign ∧ ¬ isZero then -1 else 0
  let intg := if isZero then 1 else intg
  let buf1 := if isZero then [0] else buf1
  let intg1 := fromIntg / digPerDec1
  let intg1x := fromIntg - intg1 * digPerDec1
  let isize1 := intg1 * 4 + dig2bytes intg1x
  let tooLong := intg < fromIntg
  let skip := intg1 + (if 0 < intg1x then 1 else 0) - (intg0 + if 0 < intg0x then 1 else 0)
  let buf1 := if tooLong then buf1.drop skip else buf1
  let intg1 := if tooLong then intg0 else intg1
  let intg1x := if tooLong then intg0x else intg1x
  let error : DecError := if tooLong then .overflow else .ok
  let pad := replicate (if tooLong then 0 else isize0 - isize1) (mask.truncate 8)
  let error := if fsize0 < fsize1 then .truncated else error
  let (frac1, frac1x, fsize) := fracPlan frac0 frac0x frac1 frac1x
  let head := storeHead mask intg1x (buf1.headD 0)
  let buf1 := if intg1x = 0 then buf1 else buf1.tail
  let words := storeWords mask (buf1.take (intg1 + frac1))
  let tail := storeTail mask frac0 frac0x frac1 frac1x (buf1.getD (intg1 + frac1) 0)
  let out := pad ++ head ++ words ++ tail
  let fill := min (fsize - fsize1) (isize0 + fsize0 - out.length)
  (flipFirst (out ++ replicate fill (mask.truncate 8)), error)

/-- `my_decimal2binary`. -/
def myDecimal2binary (prec scale : ℕ) : List Byte × DecError :=
  let rounded := { d with frac := d.actualFraction }
  let err1 : DecError := if scale < rounded.frac then .truncated else .ok
  let rounded := if scale < rounded.frac then (rounded.decimalRound scale .halfUp).1 else rounded
  let (bin, err2) := rounded.decimal2bin prec scale
  (bin, if err2 = .ok then err1 else err2)

/-- The loop of `bin2decimal` over the full words of the integer part: the bytes behind them,
the words that were stored, and the digits in front of the point. -/
def readIntgWords (mask : BitVec 32) :
    ℕ → List Byte → List ℕ → ℕ → Option (List Byte × List ℕ × ℕ)
  | 0, src, words, intg => some (src, words, intg)
  | k + 1, src, words, intg =>
    let w := miSintKorr 4 src ^^^ mask
    if digMax < w.toNat then none
    else if words ≠ [] ∨ w ≠ 0 then
      readIntgWords mask k (src.drop 4) (words ++ [w.toNat]) intg
    else readIntgWords mask k (src.drop 4) words (intg - digPerDec1)

def readFracWords (mask : BitVec 32) : ℕ → List Byte → List ℕ → Option (List Byte × List ℕ)
  | 0, src, words => some (src, words)
  | k + 1, src, words =>
    let w := miSintKorr 4 src ^^^ mask
    if digMax < w.toNat then none else readFracWords mask k (src.drop 4) (words ++ [w.toNat])

def readHead (intg0x : ℕ) (src : List Byte) (intg : ℕ) : Option (List Byte × List ℕ × ℕ) :=
  if intg0x = 0 then some (src, [], intg)
  else
    let i := dig2bytes intg0x
    let w := miSintKorr i src ^^^ mask
    if powers10 (intg0x + 1) ≤ (w.signExtend 64).toNat then none
    else if w ≠ 0 then some (src.drop i, [w.toNat], intg)
    else some (src.drop i, [], intg - intg0x)

def readTail (frac0x : ℕ) (src : List Byte) (words : List ℕ) : Option (List ℕ) :=
  if frac0x = 0 then some words
  else
    let w := (miSintKorr (dig2bytes frac0x) src ^^^ mask) *
      BitVec.ofNat 32 (powers10 (digPerDec1 - frac0x))
    if digMax < w.toNat then none else some (words ++ [w.toNat])

/-- `bin2decimal`; `dst` is what was in the target before. -/
def bin2decimal (src : List Byte) (dst : Decimal) (precision scale : ℕ) : Decimal × DecError :=
  let intg := precision - scale
  let intg0 := intg / digPerDec1
  let frac0 := scale / digPerDec1
  let intg0x := intg - intg0 * digPerDec1
  let frac0x := scale - frac0 * digPerDec1
  let intgWords := intg0 + if 0 < intg0x then 1 else 0
  let fracWords := frac0 + if 0 < frac0x then 1 else 0
  let mask : BitVec 32 := if src.headD 0 &&& 0x80#8 ≠ 0 then 0 else -1
  let src := flipFirst (src.take (decimalBinSize precision scale))
  let len := dst.buf.length
  -- `FIX_INTG_FRAC_ERROR`
  let (error, src, intg0, intg0x, frac0, frac0x) : DecError × List Byte × ℕ × ℕ × ℕ × ℕ :=
    if len < intgWords + fracWords then
      if len < intgWords then
        (.overflow, src.drop (dig2bytes intg0x + 4 * (intg0 - len)), len, 0, 0, 0)
      else (.truncated, src, intg0, intg0x, len - intgWords, 0)
    else (.ok, src, intg0, intg0x, frac0, frac0x)
  let result :=
    (readHead mask intg0x src (intg0 * digPerDec1 + intg0x)).bind fun (src, words, intg) =>
    (readIntgWords mask intg0 src words intg).bind fun (src, words, intg) =>
    (readFracWords mask frac0 src words).bind fun (src, words) =>
    (readTail mask frac0x src words).map fun words => (words, intg)
  match result with
  | none => (dst.makeZero, .badNum)
  | some (words, intg) =>
    let d : Decimal :=
      { intg := intg
        frac := frac0 * digPerDec1 + frac0x
        sign := decide (mask ≠ 0)
        buf := words ++ dst.buf.drop words.length }
    (if d.intg = 0 ∧ d.frac = 0 then d.makeZero else d, error)

end Decimal

end MySQL.Strings
