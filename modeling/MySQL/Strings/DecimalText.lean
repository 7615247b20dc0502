import MySQL.Strings.DecimalValue

/-!
# Numbers as text

The printed number has the integer part without its leading zeros, at least one digit of it,
and all the digits of the fraction.  The reader packs the integer digits into words from the
point to the left and the fraction from the point to the right.
-/

namespace MySQL.Strings

open Lib

def digitChar (n : ℕ) : Char := Char.ofNat ('0'.toNat + n)

def digitVal (c : Char) : ℕ := c.toNat - '0'.toNat

/-- `my_isspace` of `my_charset_latin1`. -/
def isSpace (c : Char) : Bool := 9 ≤ c.toNat && c.toNat ≤ 13 || c.toNat == 32 || c.toNat == 160

namespace Decimal

/-! ## Printing -/

/-- `decimal_string_size`: with the point, a sign and the terminator. -/
def decimalStringSize (d : Decimal) : ℕ :=
  (if d.intg ≠ 0 then d.intg else 1) + d.frac + (if 0 < d.frac then 1 else 0) + 2

/-- The first `i` digits of a word of the fraction. -/
def fracChars : ℕ → ℕ → List Char
  | 0, _ => []
  | i + 1, x =>
    let y := x / digMask
    digitChar y :: fracChars i ((x - y * digMask) * 10)

def fracText : ℕ → List ℕ → List Char
  | _, [] => []
  | frac, x :: buf =>
    if 0 < frac then fracChars (min frac digPerDec1) x ++ fracText (frac - digPerDec1) buf
    else []

/-- The last `i` digits of a word of the integer part, in front of `s`. -/
def intgChars : ℕ → ℕ → List Char → List Char
  | 0, _, s => s
  | i + 1, x, s =>
    let y := x / 10
    intgChars i y (digitChar (x - y * 10) :: s)

def intgText : ℕ → List ℕ → List Char → List Char
  | _, [], s => s
  | intg, x :: buf, s =>
    if 0 < intg then intgText (intg - digPerDec1) buf (intgChars (min intg digPerDec1) x s)
    else s

/-- The places that are printed, if the number does not fit into `toLen` bytes. -/
def cutToLength (len toLen intg frac : ℕ) : ℕ × ℕ × DecError :=
  let j := len - toLen
  let error : DecError := if frac ≠ 0 ∧ j ≤ frac + 1 then .truncated else .overflow
  let j := if frac ≠ 0 ∧ frac + 1 ≤ j then j - 1 else j
  if frac < j then (intg - (j - frac), 0, error) else (intg, frac - j, error)

def cutToFixed (fixedIntg fixedDecimals intg frac : ℕ) : ℕ × ℕ × DecError :=
  let (frac, error) : ℕ × DecError :=
    if fixedDecimals < frac then (fixedDecimals, .truncated) else (frac, .ok)
  if fixedIntg < intg then (fixedIntg, frac, .overflow) else (intg, frac, error)

def printedPlaces (d : Decimal) : ℕ × List ℕ :=
  if d.removeLeadingZeroes.1 + d.frac = 0 then (1, [0]) else d.removeLeadingZeroes

/-- The characters that are written in front of the terminator: `intg` and `frac` places, in
fields of the widths `intgLen` and `fracLen`. -/
def writeText (sign : Bool) (intg frac intgLen fracLen : ℕ) (buf0 : List ℕ) (filler : Char) :
    List Char :=
  let fracPart :=
    if frac ≠ 0 then
      '.' :: fracText frac (buf0.drop (roundUp intg)) ++ List.replicate (fracLen - frac) filler
    else []
  let intgPart :=
    if intg ≠ 0 then
      List.replicate (intgLen - intg) filler ++ intgText intg (buf0.take (roundUp intg)).reverse []
    else List.replicate (intgLen - 1) filler ++ ['0']
  (if sign then ['-'] else []) ++ intgPart ++ fracPart

/-- `decimal2string`: what is in the buffer afterwards, the length of the text and the error
code.  `dst` is what was in the buffer before, and its length is the one passed in. -/
def decimal2string (d : Decimal) (dst : List Char) (fixedPrecision fixedDecimals : ℕ)
    (filler : Char) : List Char × ℕ × DecError :=
  let fixedIntg := if fixedPrecision ≠ 0 then fixedPrecision - fixedDecimals else 0
  let (intg, buf0) := d.printedPlaces
  let intgLen := if fixedPrecision ≠ 0 then fixedIntg else intg
  let intgLen := if intgLen = 0 then 1 else intgLen
  let fracLen := if fixedPrecision ≠ 0 then fixedDecimals else d.frac
  let textLen (frac : ℕ) := d.sign.toNat + intgLen + (if frac ≠ 0 then 1 else 0) + fracLen
  let (intg, frac, error) : ℕ × ℕ × DecError :=
    if fixedPrecision ≠ 0 then cutToFixed fixedIntg fixedDecimals intg d.frac
    -- one byte is kept for the terminator
    else if dst.length - 1 < textLen d.frac then
      cutToLength (textLen d.frac) (dst.length - 1) intg d.frac
    else (intg, d.frac, .ok)
  let len := if fixedPrecision = 0 then textLen frac else textLen d.frac
  let written := writeText d.sign intg frac intgLen fracLen buf0 filler
  ((written ++ dst.drop written.length).set len (Char.ofNat 0), len, error)

/-! ## Reading -/

/-- The loop over the integer digits, from the point to the left: `i` of them are in `x`. -/
def packIntg : List Char → ℕ → ℕ → List ℕ → List ℕ
  | [], x, i, buf => if i ≠ 0 then x :: buf else buf
  | c :: s, x, i, buf =>
    let x := x + digitVal c * powers10 i
    if i + 1 = digPerDec1 then packIntg s 0 0 (x :: buf) else packIntg s x (i + 1) buf

def packFrac : List Char → ℕ → ℕ → List ℕ → List ℕ
  | [], x, i, buf => if i ≠ 0 then buf ++ [x * powers10 (digPerDec1 - i)] else buf
  | c :: s, x, i, buf =>
    let x := digitVal c + x * 10
    if i + 1 = digPerDec1 then packFrac s 0 0 (buf ++ [x]) else packFrac s x (i + 1) buf

/-- `FIX_INTG_FRAC_ERROR`. -/
def fixIntgFrac (len intg1 frac1 : ℕ) : ℕ × ℕ × DecError :=
  if len < intg1 + frac1 then
    if len < intg1 then (len, 0, .overflow) else (intg1, len - intg1, .truncated)
  else (intg1, frac1, .ok)

/-- What the reader calls for an exponent: `my_strtoll10`, with the number, the error code and
the text behind it, and `decimal_shift`. -/
structure ExponentOps where
  strtoll10 : List Char → ℤ × ℤ × List Char
  shift : Decimal → ℤ → Decimal × DecError

def intMax : ℤ := 2147483647

def intMin : ℤ := -2147483648

/-- An exponent in the text `endp` behind the digits. -/
def applyExponent (ops : ExponentOps) (d : Decimal) (error : DecError) (endp : List Char) :
    Decimal × DecError × List Char :=
  match endp with
  | [] => (d, error, [])
  | c :: t =>
    if t ≠ [] ∧ (c = 'e' ∨ c = 'E') then
      let (exponent, strError, rest) := ops.strtoll10 t
      if rest.length = t.length then (d, error, endp)
      else if 0 < strError then (d.makeZero, .badNum, rest)
      else if intMax / 2 < exponent ∨ strError = 0 ∧ exponent < 0 then
        (d.makeZero, .overflow, rest)
      else if exponent < intMin.tdiv 2 ∧ error ≠ .overflow then (d.makeZero, .truncated, rest)
      else if error ≠ .overflow then
        ((ops.shift d exponent).1, (ops.shift d exponent).2, rest)
      else (d, error, rest)
    else (d, error, endp)

def ofDigits (dst : Decimal) (sign : Bool) (intgDigits fracDigits : List Char) :
    Decimal × DecError :=
  let (intg1, frac1, error) :=
    fixIntgFrac dst.buf.length (roundUp intgDigits.length) (roundUp fracDigits.length)
  let frac := if error ≠ .ok then frac1 * digPerDec1 else fracDigits.length
  let intg := if error = .overflow then intg1 * digPerDec1 else intgDigits.length
  let words := packIntg (intgDigits.reverse.take intg) 0 0 [] ++
    packFrac (fracDigits.take frac) 0 0 []
  ({ intg := intg, frac := frac, sign := sign, buf := words ++ dst.buf.drop words.length }, error)

def scanDigits (s : List Char) : List Char × List Char × List Char :=
  match s.dropWhile Char.isDigit with
  | '.' :: t => (s.takeWhile Char.isDigit, t.takeWhile Char.isDigit, t.dropWhile Char.isDigit)
  | t => (s.takeWhile Char.isDigit, [], t)

/-- `string2decimal`: the number, the error code and the text behind it.  `dst` is what was in
the target before. -/
def string2decimal (ops : ExponentOps) (src : List Char) (dst : Decimal) :
    Decimal × DecError × List Char :=
  match src.dropWhile isSpace with
  | [] => (dst.makeZero, .badNum, [])
  | c :: t =>
    let s := if c = '-' ∨ c = '+' then t else c :: t
    let (intgDigits, fracDigits, endp) := scanDigits s
    if fracDigits.length + intgDigits.length = 0 then (dst.makeZero, .badNum, endp)
    else
      let (d, error) := dst.ofDigits (decide (c = '-')) intgDigits fracDigits
      applyExponent ops d error endp

end Decimal

end MySQL.Strings
